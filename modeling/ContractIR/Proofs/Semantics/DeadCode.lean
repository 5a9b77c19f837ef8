import ContractIR.Optimize.DeadCode
import ContractIR.Proofs.Flow.LiveSets
import ContractIR.Proofs.Semantics.Code
/-!
# Leaving out dead instructions

An instruction can be left out if it is quiet and none of its results is live
behind it. The two runs, with it and without it, then keep stores that agree
on all but dead results of what is left out; so they do the same.

The argument goes up from instructions to nodes, blocks and functions. At the
end of a node it needs that whatever is live at the start of the next one is
live here. The graph sees to that for every way out of a node but one: it has
no edges for branches in a node that a return or a revert closes. For these
the live sets have to be looked at (`Liveness.Covers`).
-/

namespace ContractIR

open Context Interpretation LiveNode

universe u v

variable {D : Type u} {E : Type v} {ctx : Context} {live : ValueSet} {σ τ : ValueId → D}
variable {x : Instruction} {e : E}

/-! ## Stores that agree -/

/-- **Stores agree** on everything but dropped locals that are not live. -/
def Agree (dropped : ValueId → Prop) (live : ValueSet) (σ τ : ValueId → D) : Prop :=
  ∀ v, (dropped v → v ∈ live) → σ v = τ v

namespace Agree

variable {dropped : ValueId → Prop}

theorem refl (live : ValueSet) (σ : ValueId → D) : Agree dropped live σ σ := fun _ _ => rfl

theorem mono {live' : ValueSet} (h : Agree dropped live σ τ)
    (hsub : ∀ v ∈ live', dropped v → v ∈ live) : Agree dropped live' σ τ :=
  fun v hv => h v fun hdropped => hsub v (hv hdropped) hdropped

/-- What an instruction reads is live before it. -/
theorem operands
    (h : Agree dropped (Access.before ⟨x.results, x.operands.filter ctx.isLocal⟩ live) σ τ)
    (hlocal : ∀ v, dropped v → ctx.isLocal v) : x.operands.map σ = x.operands.map τ := by
  refine List.map_congr_left fun v hv => h v fun hdropped => ?_
  exact Access.mem_before.2 (.inl (List.mem_filter.2 ⟨hv, hlocal v hdropped⟩))

/-- What is not written stays as it is. -/
theorem of_not_mem {reads : List ValueId}
    (h : Agree dropped (Access.before ⟨x.results, reads⟩ live) σ τ) {v : ValueId}
    (hv : dropped v → v ∈ live) (hw : v ∉ x.results) : σ v = τ v :=
  h v fun hdropped => Access.mem_before.2 (.inr ⟨hw, hv hdropped⟩)

/-- Both write the same. -/
theorem write_both {reads : List ValueId}
    (h : Agree dropped (Access.before ⟨x.results, reads⟩ live) σ τ) (values : Nat → D) :
    Agree dropped live (write values 0 x.results σ) (write values 0 x.results τ) :=
  fun _ hv => write_congr fun hw => h.of_not_mem hv hw

/-- Only one of them writes, and what it writes is dead. -/
theorem write_left {reads : List ValueId}
    (h : Agree dropped (Access.before ⟨x.results, reads⟩ live) σ τ)
    (hdropped : ∀ v ∈ x.results, dropped v) (hdead : ∀ v ∈ x.results, v ∉ live)
    (values : Nat → D) : Agree dropped live (write values 0 x.results σ) τ := by
  intro v hv
  have hw : v ∉ x.results := fun hw => hdead v hw (hv (hdropped v hw))
  rw [write_of_not_mem hw]
  exact h.of_not_mem hv hw

end Agree

/-! ## Runs that stay together -/

/-- **One run stays with another**: the same is observed, control leaves the
same way, and the stores are related as asked for where control goes on. -/
structure Stretch.Tracks (s s' : Stretch D E) (falls : (ValueId → D) → (ValueId → D) → Prop)
    (jumps : ValueId → (ValueId → D) → (ValueId → D) → Prop) : Prop where
  trace : s'.trace = s.trace
  departure : s'.departure = s.departure
  outside : s'.outside = s.outside
  falls : s.departure = none → falls s.store s'.store
  jumps : ∀ t, s.departure = some (.jumps t) → jumps t s.store s'.store

namespace Stretch.Tracks

variable {s s' : Stretch D E} {F F' : (ValueId → D) → (ValueId → D) → Prop}
variable {J J' : ValueId → (ValueId → D) → (ValueId → D) → Prop}

theorem imp (h : s.Tracks s' F J) (hF : s.departure = none → ∀ σ τ, F σ τ → F' σ τ)
    (hJ : ∀ t σ τ, J t σ τ → J' t σ τ) : s.Tracks s' F' J' :=
  ⟨h.trace, h.departure, h.outside, fun hs => hF hs _ _ (h.falls hs),
    fun t ht => hJ t _ _ (h.jumps t ht)⟩

theorem behind (h : s.Tracks s' F J) (trace : List (Action D E)) :
    (s.behind trace).Tracks (s'.behind trace) F J :=
  ⟨congrArg (trace ++ ·) h.trace, h.departure, h.outside, h.falls, h.jumps⟩

/-- What stands behind is out of reach if control never gets there. -/
theorem append_of_leaves {M : Interpretation D E} {xs xs' ys ys' : List Instruction}
    (h : (M.walk xs σ e).Tracks (M.walk xs' τ e) F J) (hleaves : (M.walk xs σ e).departure ≠ none) :
    (M.walk (xs ++ ys) σ e).Tracks (M.walk (xs' ++ ys') τ e) F J := by
  have hleaves' : (M.walk xs' τ e).departure ≠ none := fun h' => hleaves (h.departure ▸ h')
  rw [walk_append_of_leaves hleaves, walk_append_of_leaves hleaves']
  exact h

/-- Runs that stay together up to some point stay together if they do from
there on. -/
theorem append {M : Interpretation D E} {xs xs' ys ys' : List Instruction}
    (h : (M.walk xs σ e).Tracks (M.walk xs' τ e) F J)
    (h' : ∀ σ τ e, F σ τ → (M.walk ys σ e).Tracks (M.walk ys' τ e) F' J) :
    (M.walk (xs ++ ys) σ e).Tracks (M.walk (xs' ++ ys') τ e) F' J := by
  by_cases hfalls : (M.walk xs σ e).departure = none
  · have hfalls' : (M.walk xs' τ e).departure = none := h.departure.trans hfalls
    rw [walk_append_of_falls hfalls, walk_append_of_falls hfalls', h.trace,
      h.outside]
    exact (h' _ _ _ (h.falls hfalls)).behind _
  · refine (h.append_of_leaves hfalls).imp (fun hs => ?_) fun _ _ _ h => h
    rw [walk_append_of_leaves hfalls] at hs
    exact absurd hs hfalls

end Stretch.Tracks

/-! ## Instructions -/

/-- Branches, returns and reverts have no results. -/
theorem Context.Shaped.results_eq_nil (h : ctx.Shaped x) (hop : x.opcode.isTerminator) :
    x.results = [] := by
  have hcount := h.results
  cases hx : x.opcode with
  | ret | revert | br =>
    rw [hx] at hcount
    simpa [Opcode.shape, Arity.accepts] using hcount
  | _ =>
    rw [hx] at hop
    exact absurd hop (by decide)

theorem Context.Shaped.not_terminator_of_isQuiet (h : ctx.Shaped x) (hquiet : x.isQuiet) :
    x.opcode.isTerminator = false := by
  by_contra hop
  rw [Bool.not_eq_false] at hop
  rw [Instruction.isQuiet, h.results_eq_nil hop, List.isEmpty_nil, Bool.not_true, Bool.and_false]
    at hquiet
  cases hquiet

namespace Interpretation

variable {M : Interpretation D E} {values : List D} {e' : E}

/-- Only branches jump, and they jump to their last operand. -/
theorem of_react_jumps {t : ValueId} (h : M.react x values e = .leave (.jumps t) e') :
    x.opcode = .br ∧ x.operands.getLast? = some t := by
  by_cases hop : x.opcode = .br
  · refine ⟨hop, ?_⟩
    unfold react at h
    rw [hop] at h
    dsimp only at h
    split at h
    · rename_i target _ hlast
      obtain ⟨hdeparture, -⟩ := Reaction.leave.inj h
      rw [hlast, Departure.jumps.inj hdeparture]
    · rename_i target _ _ hlast
      split at h
      · cases h
      · obtain ⟨hdeparture, -⟩ := Reaction.leave.inj h
        rw [hlast, Departure.jumps.inj hdeparture]
    · cases h
  · unfold react at h
    split at h
    · cases h
    · cases h
    · exact absurd ‹x.opcode = .br› hop
    · split at h
      · cases h
      · cases h

/-- Nothing goes on behind an instruction that ends the control flow. -/
theorem react_ne_next_of_final (hs : ctx.Shaped x) (hflow : x.flow = .final) (σ : ValueId → D)
    {results : Nat → D} : M.react x (x.operands.map σ) e ≠ .next results e' := by
  intro h
  unfold Instruction.flow at hflow
  unfold react at h
  cases hop : x.opcode with
  | ret | revert => rw [hop] at h; cases h
  | br =>
    rw [hop] at h hflow
    dsimp only at h hflow
    have hone : x.operands.length = 1 := by
      rcases hs.branch_operands hop with hone | htwo
      · exact hone
      · rw [if_pos htwo] at hflow
        cases hflow
    obtain ⟨t, ht⟩ := List.length_eq_one_iff.1 hone
    rw [ht] at h
    cases h
  | _ =>
    rw [hop] at hflow
    cases hflow

end Interpretation

/-- A branch leads where it jumps to. -/
theorem Context.branchOf?_of_react {M : Interpretation D E} {i : InstId} {t : ValueId}
    {values : List D} {e' : E} (hs : ctx.Shaped x) (hx : ctx.inst? i = some x)
    (h : M.react x values e = .leave (.jumps t) e') : ctx.branchOf? i = some t := by
  obtain ⟨hop, hlast⟩ := of_react_jumps h
  rw [branchOf?, hx, Option.bind_some, target?, if_pos hop, hlast]
  simp [hs.target hop t hlast]

/-! ## Pieces -/

/-- Where a jump leaves a piece: at a branch of it, with stores that agree on
what is live behind that branch. -/
def Context.LeavesAt (ctx : Context) (dropped : ValueId → Prop) (is : List InstId) (out : ValueSet)
    (t : ValueId) (σ τ : ValueId → D) : Prop :=
  ∃ pre i post, is = pre ++ i :: post ∧ ctx.branchOf? i = some t ∧
    Agree dropped (Access.beforeAll (ctx.accessesOf post) out) σ τ

/-- **Instructions whose results are dead can be left out of a piece.** -/
theorem Machine.tracks_filter {M : Machine D E} (hs : WellShaped ctx) {out : ValueSet}
    {dropped : ValueId → Prop} (hdropped : ∀ v, dropped v → ctx.isLocal v) {gone : InstId → Bool}
    {is : List InstId} (hlive : ∀ i ∈ is, ∃ x, ctx.inst? i = some x)
    (hgone : ∀ pre i post x, is = pre ++ i :: post → gone i → ctx.inst? i = some x →
      x.isQuiet ∧ ∀ v ∈ x.results, dropped v ∧ v ∉ Access.beforeAll (ctx.accessesOf post) out)
    (hagree : Agree dropped (Access.beforeAll (ctx.accessesOf is) out) σ τ) :
    (M.walk (ctx.codeOf is) σ e).Tracks (M.walk (ctx.codeOf (is.filter fun j => !gone j)) τ e)
      (Agree dropped out) (ctx.LeavesAt dropped is out) := by
  induction is generalizing σ τ e with
  | nil => exact ⟨rfl, rfl, rfl, fun _ => hagree, nofun⟩
  | cons i is ih =>
    obtain ⟨x, hx⟩ := hlive i List.mem_cons_self
    have hshape := hs.shaped hx
    have hrest := fun {σ τ : ValueId → D} {e : E} => ih (σ := σ) (τ := τ) (e := e)
      (fun j hj => hlive j (List.mem_cons_of_mem i hj))
      (fun pre j post y hsplit => hgone (i :: pre) j post y (by rw [hsplit]; rfl))
    have hbehind : ∀ t (σ τ : ValueId → D), ctx.LeavesAt dropped is out t σ τ →
        ctx.LeavesAt dropped (i :: is) out t σ τ := by
      rintro t σ τ ⟨pre, j, post, rfl, hj, hpost⟩
      exact ⟨i :: pre, j, post, rfl, hj, hpost⟩
    have hbefore : Agree dropped (Access.before ⟨x.results, x.operands.filter ctx.isLocal⟩
        (Access.beforeAll (ctx.accessesOf is) out)) σ τ := by
      rw [← accessOf_of_live hx]
      exact hagree
    rw [codeOf_cons hx]
    by_cases hi : gone i
    · -- The instruction is left out: only the first run writes, and what it writes is dead.
      obtain ⟨hquiet, hdead⟩ := hgone [] i is x rfl hi hx
      obtain ⟨results, hreact⟩ := M.react_quiet (hshape.not_terminator_of_isQuiet hquiet) hquiet
        (x.operands.map σ) e
      rw [List.filter_cons_of_neg (by simpa using hi), walk_cons_of_next hreact, notice,
        if_pos hquiet]
      exact (hrest (hbefore.write_left (fun v hv => (hdead v hv).1) (fun v hv => (hdead v hv).2)
        results)).imp (fun _ _ _ h => h) hbehind
    · -- The instruction stays: both runs read the same and write the same.
      have hvalues := hbefore.operands hdropped
      rw [List.filter_cons_of_pos (by simpa using hi), codeOf_cons hx]
      cases hreact : M.react x (x.operands.map σ) e with
      | next results e' =>
        have hreact' : M.react x (x.operands.map τ) e = .next results e' := by
          rw [← hvalues]
          exact hreact
        rw [walk_cons_of_next hreact, walk_cons_of_next hreact', ← hvalues]
        exact ((hrest (hbefore.write_both results)).imp (fun _ _ _ h => h) hbehind).behind _
      | leave departure e' =>
        have hreact' : M.react x (x.operands.map τ) e = .leave departure e' := by
          rw [← hvalues]
          exact hreact
        rw [walk_cons_of_leave hreact, walk_cons_of_leave hreact', ← hvalues]
        refine ⟨rfl, rfl, rfl, nofun, fun t ht => ⟨[], i, is, rfl, ?_, ?_⟩⟩
        · obtain rfl : departure = .jumps t := Option.some.inj ht
          exact branchOf?_of_react hshape hx hreact
        · -- A branch writes nothing, so the stores agree behind it as they did before.
          obtain rfl : departure = .jumps t := Option.some.inj ht
          have hnone : x.results = [] :=
            hshape.results_eq_nil (by rw [(of_react_jumps hreact).1]; rfl)
          refine fun v hv => hbefore.of_not_mem hv ?_
          rw [hnone]
          exact List.not_mem_nil

/-! ## Nodes -/

/-- Whether dead code elimination erases an instruction. -/
def Context.erases (ctx : Context) (l : Liveness) (i : InstId) : Bool :=
  (ctx.inst? i).any fun x =>
    x.isQuiet && !x.results.any fun v => ((l.after? i).getD ∅).contains v

theorem Context.of_erases {l : Liveness} {i : InstId} (h : ctx.erases l i)
    (hx : ctx.inst? i = some x) : x.isQuiet ∧ ∀ v ∈ x.results, v ∉ (l.after? i).getD ∅ := by
  rw [erases, hx, Option.any_some, Bool.and_eq_true, Bool.not_eq_true', List.any_eq_false] at h
  exact ⟨h.1, fun v hv hlive => h.2 v hv (Std.ExtTreeSet.contains_iff_mem.2 hlive)⟩

/-- Whether an instruction of the graph that writes a local is erased. -/
def Liveness.drops (l : Liveness) (ctx : Context) (g : FlowGraph) (v : ValueId) : Bool :=
  g.nodes.any fun n => n.instructions.any fun i =>
    ctx.erases l i && decide (v ∈ (ctx.accessOf i).writes)

/-- **The live sets cover the branches that returns and reverts close off**:
if an instruction that writes a local is erased, and the local is live at the
start of such a branch's target, then it is live behind the branch. -/
def Liveness.Covers (l : Liveness) (ctx : Context) (g : FlowGraph) : Prop :=
  ∀ n ∈ g.nodes, ctx.endsInExit n.instructions = true → ∀ i ∈ n.instructions,
    ∀ t ∈ ctx.branchOf? i, ∀ m ∈ g.nodeAt? t 0, ∀ v ∈ valuesAt l.liveIn m,
      l.drops ctx g v → v ∈ (l.after? i).getD ∅

theorem Liveness.drops_of_mem {l : Liveness} {g : FlowGraph} {n : GraphNode} {i : InstId}
    {v : ValueId} (hn : n ∈ g.nodes) (hi : i ∈ n.instructions) (herases : ctx.erases l i)
    (hx : ctx.inst? i = some x) (hv : v ∈ x.results) : l.drops ctx g v := by
  refine List.any_eq_true.2 ⟨n, hn, List.any_eq_true.2 ⟨i, hi, ?_⟩⟩
  rw [herases, accessOf_of_live hx, Bool.true_and]
  exact decide_eq_true hv

/-- What is dropped is local. -/
theorem Liveness.isLocal_of_drops {l : Liveness} {g : FlowGraph} {v : ValueId} (hs : WellShaped ctx)
    (h : l.drops ctx g v) : ctx.isLocal v := by
  obtain ⟨n, -, hn⟩ := List.any_eq_true.1 h
  obtain ⟨i, -, hi⟩ := List.any_eq_true.1 hn
  obtain ⟨herases, hv⟩ := Bool.and_eq_true _ _ ▸ hi
  obtain ⟨x, hx, -⟩ := (Option.any_eq_true _ _).1 herases
  have hv := of_decide_eq_true hv
  rw [accessOf_of_live hx] at hv
  exact (hs.shaped hx).locals v hv

/-- The graph of some blocks and its live sets. -/
structure Context.Analyzed (ctx : Context) (blocks : List ValueId) (g : FlowGraph)
    (l : Liveness) : Prop extends g.Built ctx blocks where
  describes : l.Describes ctx g

/-- Where a jump arrives: the stores agree on what is live there. -/
def Liveness.Arrives (l : Liveness) (ctx : Context) (g : FlowGraph) (t : ValueId)
    (σ τ : ValueId → D) : Prop :=
  ∀ m, g.nodeAt? t 0 = some m → Agree (l.drops ctx g ·) (valuesAt l.liveIn m) σ τ

/-- Control that falls out of instructions runs on behind them. -/
theorem Context.runsOn_of_falls {M : Interpretation D E} (hs : WellShaped ctx) {is : List InstId}
    (h : (M.walk (ctx.codeOf is) σ e).departure = none)
    (hlive : ∀ i ∈ is, ∃ x, ctx.inst? i = some x) : ctx.RunsOn is := by
  intro z hz hfinal
  obtain ⟨pre, rfl⟩ := List.getLast?_eq_some_iff.1 hz
  obtain ⟨x, hx⟩ := hlive z (List.mem_append_right pre List.mem_cons_self)
  rw [codeOf_append, codeOf_singleton hx] at h
  obtain ⟨-, values, e', hreact, -⟩ := exists_react_of_falls h
  rw [flowOf_of_live hx] at hfinal
  exact react_ne_next_of_final (hs.shaped hx) hfinal _ hreact

/-- What is live behind instructions that do not write it is live before
them. -/
theorem Access.mem_beforeAll_of_not_written {as : List Access} {v : ValueId}
    (h : ∀ a ∈ as, v ∉ a.writes) (hv : v ∈ live) : v ∈ beforeAll as live := by
  induction as with
  | nil => exact hv
  | cons a as ih =>
    refine mem_before.2 (.inr ⟨h a List.mem_cons_self, ?_⟩)
    exact ih fun c hc => h c (List.mem_cons_of_mem a hc)

namespace Context.Analyzed

variable {M : Machine D E} {blocks : List ValueId} {g : FlowGraph} {l : Liveness}

/-- What is live behind a node that runs on is live at the next one. -/
theorem mem_liveOut_of_next (h : ctx.Analyzed blocks g l) {k : Nat} {n : GraphNode}
    (hk : g.nodes[k]? = some n) (hruns : ctx.RunsOn n.instructions) {v : ValueId}
    (hv : v ∈ valuesAt l.liveIn (k + 1)) : v ∈ valuesAt l.liveOut k := by
  have hk' := hk
  rw [h.nodes] at hk'
  obtain ⟨ns, ms, hsplit, rfl⟩ := Exit.split_of_getElem? hk'
  have hms : ms ≠ [] := by
    rintro rfl
    obtain ⟨n', hn'⟩ := h.describes.exists_node hv
    rw [h.nodes, hsplit] at hn'
    simp at hn'
  exact (h.describes.liveOut hk v).2 ⟨_, (h.edges hsplit).2 (.inr ⟨hruns, hms, rfl⟩), hv⟩

/-- **What is live where a branch leads is live behind the branch.** -/
theorem mem_after_of_branch (h : ctx.Analyzed blocks g l) (hs : Sound ctx) (hc : l.Covers ctx g)
    {k m : Nat} {n : GraphNode} (hk : g.nodes[k]? = some n) {pre post : List InstId} {i : InstId}
    {t : ValueId} (hn : n.instructions = pre ++ i :: post) (hi : ctx.branchOf? i = some t)
    (hm : g.nodeAt? t 0 = some m) {v : ValueId} (hv : v ∈ valuesAt l.liveIn m)
    (hdropped : l.drops ctx g v) :
    v ∈ Access.beforeAll (ctx.accessesOf post) (valuesAt l.liveOut k) := by
  have hmem : n ∈ g.nodes := List.mem_of_getElem? hk
  have hin : i ∈ n.instructions := by
    rw [hn]
    exact List.mem_append_right pre List.mem_cons_self
  cases hclosed : ctx.endsInExit n.instructions with
  | true =>
    have hcovered := hc n hmem hclosed i hin t hi m hm v hv hdropped
    rwa [h.describes.after hk hn] at hcovered
  | false =>
    -- An edge leads there, and only branches follow, which write nothing.
    have hk' := hk
    rw [h.nodes] at hk'
    obtain ⟨ns, ms, hsplit, rfl⟩ := Exit.split_of_getElem? hk'
    have hout : v ∈ valuesAt l.liveOut ns.length :=
      (h.describes.liveOut hk v).2
        ⟨m, (h.edges hsplit).2 (.inl ⟨hclosed, i, hin, t, hi, hm⟩), hv⟩
    have hstreak : ctx.Streak n.instructions :=
      streak_of_mem_graphNodes hs.threaded (by rw [← h.nodes]; exact hmem)
    rw [hn] at hstreak hclosed
    refine Access.mem_beforeAll_of_not_written (fun a ha => ?_) hout
    obtain ⟨j, hj, rfl⟩ := List.mem_map.1 ha
    obtain ⟨y, hy, hop⟩ :=
      isBranch_iff.1 (hstreak.isBranch_behind hclosed (isBranch_of_branchOf? hi) hj)
    rw [accessOf_of_live hy, (hs.shaped.shaped hy).results_eq_nil (by rw [hop]; rfl)]
    exact List.not_mem_nil

/-- **Dead instructions can be left out of a node.** -/
theorem tracks_node (h : ctx.Analyzed blocks g l) (hs : Sound ctx) (hc : l.Covers ctx g) {k : Nat}
    {n : GraphNode} (hk : g.nodes[k]? = some n)
    (hagree : Agree (l.drops ctx g ·) (valuesAt l.liveIn k) σ τ) :
    (M.walk (ctx.codeOf n.instructions) σ e).Tracks
      (M.walk (ctx.codeOf (n.instructions.filter fun j => !ctx.erases l j)) τ e)
      (Agree (l.drops ctx g ·) (valuesAt l.liveIn (k + 1))) (l.Arrives ctx g) := by
  have hmem : n ∈ ctx.graphNodes blocks := by
    rw [← h.nodes]
    exact List.mem_of_getElem? hk
  have hlive := (streak_of_mem_graphNodes hs.threaded hmem).1
  rw [h.describes.liveIn hk] at hagree
  refine (Machine.tracks_filter hs.shaped (fun v hv => l.isLocal_of_drops hs.shaped hv) hlive
    (fun pre i post x hn hi hx => ?_) hagree).imp
    (fun hfalls σ τ hout => ?_) fun t σ τ hleaves m hm => ?_
  · obtain ⟨hquiet, hdead⟩ := of_erases hi hx
    rw [h.describes.after hk hn] at hdead
    have hin : i ∈ n.instructions := by
      rw [hn]
      exact List.mem_append_right pre List.mem_cons_self
    exact ⟨hquiet, fun v hv =>
      ⟨Liveness.drops_of_mem (List.mem_of_getElem? hk) hin hi hx hv, hdead v hv⟩⟩
  · exact hout.mono fun v hv _ =>
      h.mem_liveOut_of_next hk (runsOn_of_falls hs.shaped hfalls hlive) hv
  · obtain ⟨pre, i, post, hn, hi, hpost⟩ := hleaves
    exact hpost.mono fun v hv hdropped => h.mem_after_of_branch hs hc hk hn hi hm hv hdropped

/-- Nor are they needed in a run of nodes. -/
theorem tracks_nodes (h : ctx.Analyzed blocks g l) (hs : Sound ctx) (hc : l.Covers ctx g)
    {ns us ms : List GraphNode} (hnodes : g.nodes = ns ++ (us ++ ms))
    (hagree : Agree (l.drops ctx g ·) (valuesAt l.liveIn ns.length) σ τ) :
    (M.walk (ctx.codeOf (us.flatMap GraphNode.instructions)) σ e).Tracks
      (M.walk
        (ctx.codeOf ((us.flatMap GraphNode.instructions).filter fun j => !ctx.erases l j)) τ e)
      (Agree (l.drops ctx g ·) (valuesAt l.liveIn (ns.length + us.length))) (l.Arrives ctx g) := by
  induction us generalizing ns σ τ e with
  | nil => exact ⟨rfl, rfl, rfl, fun _ => hagree, nofun⟩
  | cons n us ih =>
    have hk : g.nodes[ns.length]? = some n := by
      rw [hnodes, List.getElem?_append_right (Nat.le_refl _), Nat.sub_self]
      rfl
    rw [List.flatMap_cons, List.filter_append, codeOf_append, codeOf_append]
    have hlength : (ns ++ [n]).length = ns.length + 1 := List.length_append
    have hnodes' : g.nodes = (ns ++ [n]) ++ (us ++ ms) := by
      rw [hnodes, List.append_assoc]
      rfl
    have hend : ns.length + (n :: us).length = (ns ++ [n]).length + us.length := by
      rw [hlength, List.length_cons]
      omega
    rw [hend]
    refine (h.tracks_node hs hc hk hagree).append fun σ τ e hnext => ?_
    exact ih hnodes' (by rw [hlength]; exact hnext)

/-- **Dead instructions can be left out of a block.** What stands behind the
end of its control flow is out of reach with and without them. -/
theorem tracks_block (h : ctx.Analyzed blocks g l) (hs : Sound ctx) (hc : l.Covers ctx g)
    {bs₁ bs₂ : List ValueId} {b : ValueId} (hblocks : blocks = bs₁ ++ b :: bs₂)
    (hagree : Agree (l.drops ctx g ·) (valuesAt l.liveIn (ctx.graphNodes bs₁).length) σ τ) :
    (M.walk (ctx.code b) σ e).Tracks
      (M.walk (ctx.codeOf ((ctx.body b).filter fun j => !ctx.erases l j)) τ e)
      (Agree (l.drops ctx g ·) (valuesAt l.liveIn (ctx.graphNodes (bs₁ ++ [b])).length))
      (l.Arrives ctx g) := by
  have hnodes : g.nodes = ctx.graphNodes bs₁ ++ (ctx.nodesOf b ++ ctx.graphNodes bs₂) := by
    rw [h.nodes, hblocks, graphNodes, List.flatMap_append, List.flatMap_cons]
    rfl
  have hnext : (ctx.graphNodes (bs₁ ++ [b])).length =
      (ctx.graphNodes bs₁).length + (ctx.nodesOf b).length := by
    rw [graphNodes, List.flatMap_append, List.length_append, List.flatMap_singleton]
    rfl
  have hcovered := h.tracks_nodes (M := M) (e := e) hs hc hnodes hagree
  rw [← hnext] at hcovered
  obtain ⟨tail, hbody, hreach⟩ := ctx.exists_tail b
  rcases hreach with rfl | ⟨z, hz, hfinal⟩
  · rw [code, hbody, List.append_nil]
    exact hcovered
  · have hlive : ∀ i ∈ (ctx.nodesOf b).flatMap GraphNode.instructions,
        ∃ x, ctx.inst? i = some x := by
      intro i hi
      have hib : i ∈ ctx.body b := by
        rw [hbody]
        exact List.mem_append_left tail hi
      obtain ⟨x, hx, -⟩ := hs.threaded.live hib
      exact ⟨x, hx⟩
    rw [code, hbody, List.filter_append, codeOf_append, codeOf_append]
    refine hcovered.append_of_leaves fun hfalls => ?_
    exact runsOn_of_falls hs.shaped hfalls hlive z hz hfinal

/-- **Dead instructions can be left out of a function.** -/
theorem follow_eq (h : ctx.Analyzed blocks g l) (hs : Sound ctx) (hc : l.Covers ctx g)
    {code' : ValueId → List Instruction}
    (hcode : ∀ b ∈ blocks,
      code' b = ctx.codeOf ((ctx.body b).filter fun j => !ctx.erases l j))
    {bs rest : List ValueId} (hblocks : blocks = bs ++ rest) (n : Nat)
    (hagree : Agree (l.drops ctx g ·) (valuesAt l.liveIn (ctx.graphNodes bs).length) σ τ) :
    M.follow code' blocks n rest τ e = M.follow ctx.code blocks n rest σ e := by
  induction n generalizing bs rest σ τ e with
  | zero => rfl
  | succ n ih =>
    cases rest with
    | nil => rfl
    | cons b rest =>
      have hb : b ∈ blocks := by
        rw [hblocks]
        exact List.mem_append_right bs List.mem_cons_self
      have htracks := h.tracks_block (M := M) (e := e) hs hc hblocks hagree
      rw [← hcode b hb] at htracks
      rw [Interpretation.follow, Interpretation.follow, htracks.departure, htracks.trace,
        htracks.outside]
      split
      · rename_i hfalls
        rw [ih (by rw [hblocks, List.append_assoc]; rfl) (htracks.falls hfalls)]
      · rename_i t hjumps
        split
        · rename_i ht
          -- Control goes on at the front of the target, where the graph has a node.
          obtain ⟨bs₁, bs₂, hsplit⟩ := List.append_of_mem ht
          have hdrop : blocks.dropWhile (· ≠ t) = t :: bs₂ := by
            have hnodup := h.nodup
            rw [hsplit] at hnodup ⊢
            have hfront : ∀ c ∈ bs₁, decide (c ≠ t) = true := fun c hc =>
              decide_eq_true ((List.nodup_append.1 hnodup).2.2 c hc t List.mem_cons_self)
            rw [List.dropWhile_append_of_pos hfront, List.dropWhile_cons_of_neg (by simp)]
          have hm : g.nodeAt? t 0 = some (ctx.graphNodes bs₁).length := by
            rw [FlowGraph.nodeAt?, h.nodes]
            exact nodeAt?_front h.nodup hsplit
          rw [hdrop, ih hsplit (htracks.jumps t hjumps _ hm)]
        · rfl
      · rfl

end Context.Analyzed

end ContractIR
