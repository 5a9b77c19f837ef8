import ContractIR.Proofs.Flow.Partition
import ContractIR.Proofs.Semantics.Erasure
/-!
# Dead code along the paths of a graph

A path of a flow graph is a sequence of nodes, each of which leads to the next
one. Its instructions can be carried out one after the other, without asking
whether control would go that way. Here opcodes may do anything to the world
outside, and the only thing asked of them is that quiet ones leave it alone and
do not halt.

Along every path of the graph the live sets were computed for, the instructions
that dead code elimination leaves meet the same operands and the same world as
before. The two passages keep stores that agree on all but dead locals. What is
live at the start of a node is live at the end of each node that leads there,
so the agreement is handed on from node to node, however often a path comes
back to one.
-/

namespace ContractIR

open Context LiveNode

universe u v

/-- **What the opcodes do**, over values `D` and states of the world outside
`E`. An operation is given its opcode, how many results are wanted, the values
of its operands and the state. -/
structure Effects (D : Type u) (E : Type v) where
  /-- What an operation does. -/
  perform : Opcode → Nat → List D → E → Response D E
  /-- Quiet operations neither halt nor change anything outside. -/
  quiet : ∀ (op : Opcode) (n : Nat) (args : List D) (e : E), op.mayHaveSideEffects = false →
    0 < n → ∃ values, perform op n args e = .results values e

/-- An instruction that was carried out, with the values of its operands and
the state it met. -/
structure Occurrence (D : Type u) (E : Type v) where
  inst : InstId
  operands : List D
  outside : E
deriving DecidableEq

/-- What was carried out, whether that ended early, and what it left. -/
structure Passage (D : Type u) (E : Type v) where
  trace : List (Occurrence D E)
  halted : Bool
  store : ValueId → D
  outside : E

variable {D : Type u} {E : Type v}

namespace Passage

/-- The same after an instruction that was carried out before. -/
def behind (o : Occurrence D E) (p : Passage D E) : Passage D E := { p with trace := o :: p.trace }

/-- **What is left of a passage keeps up with the whole**: the instructions
that are kept occur in the same order, with the same operands and the same
state outside; both end early or neither does, in the same state; and if they
do not, the stores are related as asked for. -/
structure Keeps (whole rest : Passage D E) (kept : InstId → Bool)
    (related : (ValueId → D) → (ValueId → D) → Prop) : Prop where
  trace : rest.trace = whole.trace.filter fun o => kept o.inst
  halted : rest.halted = whole.halted
  outside : rest.outside = whole.outside
  store : whole.halted = false → related whole.store rest.store

namespace Keeps

variable {whole rest : Passage D E} {kept : InstId → Bool} {o : Occurrence D E}
  {related related' : (ValueId → D) → (ValueId → D) → Prop}

theorem imp (h : whole.Keeps rest kept related)
    (himp : ∀ σ τ, related σ τ → related' σ τ) : whole.Keeps rest kept related' :=
  ⟨h.trace, h.halted, h.outside, fun hgoes => himp _ _ (h.store hgoes)⟩

/-- Both carry out an instruction that is kept. -/
theorem behind_both (h : whole.Keeps rest kept related) (ho : kept o.inst) :
    (whole.behind o).Keeps (rest.behind o) kept related := by
  refine ⟨?_, h.halted, h.outside, h.store⟩
  simp [behind, h.trace, ho]

/-- Only the whole carries out an instruction that is not kept. -/
theorem behind_left (h : whole.Keeps rest kept related) (ho : kept o.inst = false) :
    (whole.behind o).Keeps rest kept related := by
  refine ⟨?_, h.halted, h.outside, h.store⟩
  simp [behind, h.trace, ho]

end Keeps

end Passage

namespace Effects

/-- **Carries out instructions one after the other**, with the operands they
have in the context. What is gone from the context is passed over. -/
def pass (M : Effects D E) (ctx : Context) : List InstId → (ValueId → D) → E → Passage D E
  | [], σ, e => ⟨[], false, σ, e⟩
  | i :: is, σ, e =>
    match ctx.inst? i with
    | none => pass M ctx is σ e
    | some x =>
      match M.perform x.opcode x.results.length (x.operands.map σ) e with
      | .results values e' =>
        (pass M ctx is (write values 0 x.results σ) e').behind ⟨i, x.operands.map σ, e⟩
      | .halt e' => ⟨[⟨i, x.operands.map σ, e⟩], true, σ, e'⟩

variable {M : Effects D E} {ctx c : Context} {i : InstId} {is js : List InstId} {x : Instruction}
  {σ τ : ValueId → D} {e e' : E}

theorem pass_cons_of_gone (hi : ctx.inst? i = none) :
    M.pass ctx (i :: is) σ e = M.pass ctx is σ e := by
  rw [pass, hi]

theorem pass_cons_of_results {values : Nat → D} (hx : ctx.inst? i = some x)
    (h : M.perform x.opcode x.results.length (x.operands.map σ) e = .results values e') :
    M.pass ctx (i :: is) σ e =
      (M.pass ctx is (write values 0 x.results σ) e').behind ⟨i, x.operands.map σ, e⟩ := by
  rw [pass, hx]
  simp only [h]

theorem pass_cons_of_halt (hx : ctx.inst? i = some x)
    (h : M.perform x.opcode x.results.length (x.operands.map σ) e = .halt e') :
    M.pass ctx (i :: is) σ e = ⟨[⟨i, x.operands.map σ, e⟩], true, σ, e'⟩ := by
  rw [pass, hx]
  simp only [h]

/-- A quiet instruction only writes its results. -/
theorem exists_results_of_isQuiet (M : Effects D E) (h : x.isQuiet) (args : List D) (e : E) :
    ∃ values, M.perform x.opcode x.results.length args e = .results values e := by
  obtain ⟨heffects, hpos⟩ := Instruction.isQuiet_iff.1 h
  exact M.quiet x.opcode x.results.length args e heffects hpos

/-- **Instructions whose results are dead can be passed over.** Stores that
agree on what is live before some instructions lead to stores that agree on
what is live behind them; so if what stands there keeps up from such stores,
all of it does. -/
theorem keeps_append (hs : WellShaped ctx) {gone : InstId → Bool} (hc : Without c ctx gone)
    {out : ValueSet} (hlive : ∀ i ∈ is, ∃ x, ctx.inst? i = some x)
    (hdead : ∀ pre i post x, is = pre ++ i :: post → gone i → ctx.inst? i = some x →
      x.isQuiet ∧ ∀ v ∈ x.results, v ∉ Access.beforeAll (ctx.accessesOf post) out)
    {related : (ValueId → D) → (ValueId → D) → Prop}
    (hbehind : ∀ σ τ e, Agree (fun v => ctx.isLocal v) out σ τ →
      (M.pass ctx js σ e).Keeps (M.pass c js τ e) c.ownsInst related)
    (hagree : Agree (fun v => ctx.isLocal v) (Access.beforeAll (ctx.accessesOf is) out) σ τ) :
    (M.pass ctx (is ++ js) σ e).Keeps (M.pass c (is ++ js) τ e) c.ownsInst related := by
  induction is generalizing σ τ e with
  | nil => exact hbehind σ τ e hagree
  | cons i is ih =>
    obtain ⟨x, hx⟩ := hlive i List.mem_cons_self
    have hlocals := (hs.shaped hx).locals
    have hrest := fun {σ τ : ValueId → D} {e : E} => ih (σ := σ) (τ := τ) (e := e)
      (fun j hj => hlive j (List.mem_cons_of_mem i hj))
      (fun pre j post y hsplit => hdead (i :: pre) j post y (by rw [hsplit]; rfl))
    have hbefore : Agree (fun v => ctx.isLocal v)
        (Access.before ⟨x.results, x.operands.filter ctx.isLocal⟩
          (Access.beforeAll (ctx.accessesOf is) out)) σ τ := by
      rw [← accessOf_of_live hx]
      exact hagree
    rw [List.cons_append]
    by_cases hi : gone i
    · -- The instruction is gone: only the whole writes, and what it writes is dead.
      have hnone : c.inst? i = none := by rw [hc.inst, if_pos hi]
      obtain ⟨hquiet, hresults⟩ := hdead [] i is x rfl hi hx
      obtain ⟨values, hperform⟩ := M.exists_results_of_isQuiet hquiet (x.operands.map σ) e
      rw [pass_cons_of_results hx hperform, pass_cons_of_gone hnone]
      refine (hrest (hbefore.write_left hlocals hresults values)).behind_left ?_
      rw [ownsInst, hnone]
      rfl
    · -- The instruction is kept: it reads the same on both sides and does the same.
      have hsome : c.inst? i = some x := by rw [hc.inst, if_neg hi, hx]
      have hkept : c.ownsInst i := by
        rw [ownsInst, hsome]
        rfl
      have hvalues := hbefore.operands fun _ hv => hv
      cases hperform : M.perform x.opcode x.results.length (x.operands.map σ) e with
      | results values e' =>
        have hperform' := hperform
        rw [hvalues] at hperform'
        rw [pass_cons_of_results hx hperform, pass_cons_of_results hsome hperform', hvalues]
        exact (hrest (hbefore.write_both values)).behind_both hkept
      | halt e' =>
        have hperform' := hperform
        rw [hvalues] at hperform'
        rw [pass_cons_of_halt hx hperform, pass_cons_of_halt hsome hperform', hvalues]
        exact ⟨by simp [hkept], rfl, rfl, fun hgoes => by cases hgoes⟩

end Effects

/-! ## Paths -/

variable {ctx c : Context} {g : FlowGraph} {l : Liveness} {blocks : List ValueId}
  {σ τ : ValueId → D} {e : E}

/-- What is erased in a node is quiet, and its results are dead behind it. -/
theorem Liveness.Describes.dead_of_erases (h : l.Describes ctx g) {k : Nat} {n : GraphNode}
    (hk : g.nodes[k]? = some n) {pre post : List InstId} {i : InstId} {x : Instruction}
    (hsplit : n.instructions = pre ++ i :: post) (herases : ctx.erases l i)
    (hx : ctx.inst? i = some x) :
    x.isQuiet ∧ ∀ v ∈ x.results,
      v ∉ Access.beforeAll (ctx.accessesOf post) (valuesAt l.liveOut k) := by
  have hdead := of_erases herases hx
  rw [h.after hk hsplit] at hdead
  exact hdead

namespace Effects

variable {M : Effects D E} {gone : InstId → Bool}

/-- **What is left of a node keeps up with the node.** -/
theorem keeps_node (h : Sound ctx) (ha : ctx.Analyzed blocks g l) (hc : Without c ctx gone)
    (hgone : ∀ i, gone i → ctx.erases l i) {k : Nat} (hk : k < g.size) {js : List InstId}
    {related : (ValueId → D) → (ValueId → D) → Prop}
    (hbehind : ∀ σ τ e, Agree (fun v => ctx.isLocal v) (valuesAt l.liveOut k) σ τ →
      (M.pass ctx js σ e).Keeps (M.pass c js τ e) c.ownsInst related)
    (hagree : Agree (fun v => ctx.isLocal v) (valuesAt l.liveIn k) σ τ) :
    (M.pass ctx (g.instructionsOf k ++ js) σ e).Keeps (M.pass c (g.instructionsOf k ++ js) τ e)
      c.ownsInst related := by
  obtain ⟨n, hn⟩ : ∃ n, g.nodes[k]? = some n := ⟨_, List.getElem?_eq_getElem hk⟩
  have hlive : ∀ i ∈ n.instructions, ∃ x, ctx.inst? i = some x := by
    have hmem := List.mem_of_getElem? hn
    rw [ha.nodes] at hmem
    exact (streak_of_mem_graphNodes h.threaded hmem).1
  rw [FlowGraph.instructionsOf_of_node hn]
  rw [ha.describes.liveIn hn] at hagree
  refine keeps_append h.shaped hc hlive (fun pre i post x hsplit hi hx => ?_) hbehind hagree
  exact ha.describes.dead_of_erases hn hsplit (hgone i hi) hx

/-- **What is left of a path keeps up with the path**, from stores that agree
on what is live at its start to stores that agree on what is live at its
end. -/
theorem keeps_path (h : Sound ctx) (ha : ctx.Analyzed blocks g l) (hc : Without c ctx gone)
    (hgone : ∀ i, gone i → ctx.erases l i) {path : List Nat} :
    ∀ {k σ τ e}, (k :: path).IsChain (fun k m => m ∈ g.successorsOf k) →
      (∀ m ∈ k :: path, m < g.size) →
      Agree (fun v => ctx.isLocal v) (valuesAt l.liveIn k) σ τ →
      (M.pass ctx ((k :: path).flatMap g.instructionsOf) σ e).Keeps
        (M.pass c ((k :: path).flatMap g.instructionsOf) τ e) c.ownsInst
        fun σ τ => ∀ m ∈ (k :: path).getLast?,
          Agree (fun v => ctx.isLocal v) (valuesAt l.liveOut m) σ τ := by
  induction path with
  | nil =>
    intro k σ τ e _ hnodes hagree
    refine keeps_node h ha hc hgone (hnodes k List.mem_cons_self) (fun σ τ e hout => ?_) hagree
    refine ⟨rfl, rfl, rfl, fun _ m hm => ?_⟩
    rw [← Option.some.inj hm]
    exact hout
  | cons m path ih =>
    intro k σ τ e hchain hnodes hagree
    obtain ⟨hedge, hrest⟩ := List.isChain_cons_cons.1 hchain
    have hk := hnodes k List.mem_cons_self
    rw [List.flatMap_cons, List.getLast?_cons_cons]
    refine keeps_node h ha hc hgone hk (fun σ τ e hout => ?_) hagree
    refine ih hrest (fun j hj => hnodes j (List.mem_cons_of_mem k hj)) (hout.mono fun v hv _ => ?_)
    -- What is live at the start of the next node is live at the end of this one.
    exact (ha.describes.liveOut (List.getElem?_eq_getElem hk) v).2 ⟨m, hedge, hv⟩

end Effects

/-- **Dead code elimination is sound along every path of the graph.** The live
sets of a graph that was built can be computed, and dead code can be eliminated
by them. Whatever the opcodes do, along every path of the graph, and from every
store and state, the instructions that are left occur in the same order and
meet the same operands and the same state outside; and the stores agree at the
end on everything that is live there. -/
theorem eliminateDeadCode_keeps_paths {ctx : Context} (reachable : Reachable ctx) {f : ValueId}
    {g : FlowGraph} (built : (FlowGraph.build ctx f).outcome = .ok g) :
    ∃ l count, Liveness.compute ctx g = .ok l ∧
      ((Edit.eliminateDeadCode f l).run ctx).outcome = .ok count ∧
      ∀ (M : Effects D E) (path : List Nat) (σ : ValueId → D) (e : E),
        (∀ k ∈ path, k < g.size) → path.IsChain (fun k m => m ∈ g.successorsOf k) →
        (M.pass ctx (path.flatMap g.instructionsOf) σ e).Keeps
          (M.pass ((Edit.eliminateDeadCode f l).run ctx).context
            (path.flatMap g.instructionsOf) σ e)
          ((Edit.eliminateDeadCode f l).run ctx).context.ownsInst
          fun σ τ => ∀ k ∈ path.getLast?, ∀ v ∈ valuesAt l.liveOut k, σ v = τ v := by
  have h := reachable.sound
  have hbuilt := FlowGraph.built_of_build h built
  obtain ⟨l, hl, hdescribes⟩ := Liveness.compute_of_built h hbuilt
  have herase := (Edit.without_eliminateDeadCode (l := l) (f := f) h).imp (fun _ _ hc => hc)
    fun _ _ hforeign => hforeign (FlowGraph.ownsValue_of_build built)
  obtain ⟨count, hcount, -, hwithout⟩ := herase.exists_ok
  refine ⟨l, count, hl, hcount, fun M path σ e hnodes hchain => ?_⟩
  cases path with
  | nil => exact ⟨rfl, rfl, rfl, nofun⟩
  | cons k path =>
    have hgone : ∀ i, (decide (∃ b ∈ ctx.members f .blocks, i ∈ ctx.body b) &&
        ctx.erases l i) → ctx.erases l i := fun i hi => (Bool.and_eq_true_iff.1 hi).2
    refine (Effects.keeps_path h ⟨hbuilt, hdescribes⟩ hwithout hgone hchain hnodes
      (.refl _ σ)).imp fun σ τ hagree m hm v hv => ?_
    exact hagree m hm v fun _ => hv

/-- Opcodes that add up their operands; those with side effects, and those that
nothing is wanted of, are counted outside. -/
def counter : Effects Nat Nat where
  perform op n args e :=
    .results (fun _ => Sequence.total args) (if op.mayHaveSideEffects ∨ n = 0 then e + 1 else e)
  quiet op n args e hop hn := by
    refine ⟨fun _ => Sequence.total args, ?_⟩
    rw [if_neg]
    rintro (heffects | hzero)
    · rw [hop] at heffects
      cases heffects
    · omega

/-- A function with an argument `c`, locals `x` and `y` and two blocks. The
first adds `c` to `x`, writes a product to `y` and, if `c` is not zero, starts
over; the second returns `x`. -/
def productInLoop : Context :=
  Operation.runAll
    [.createFunction true "" none, .createArgument "" (some ⟨0, 0⟩),
      .createLocal "" (some ⟨0, 0⟩), .createLocal "" (some ⟨0, 0⟩),
      .createBlock "" (some ⟨0, 0⟩) none, .createBlock "" (some ⟨0, 0⟩) none,
      .createForm (.binary .add ⟨0, 2⟩ ⟨0, 2⟩ ⟨0, 1⟩) (.atEnd ⟨0, 4⟩),
      .createForm (.binary .mul ⟨0, 3⟩ ⟨0, 2⟩ ⟨0, 2⟩) (.atEnd ⟨0, 4⟩),
      .createForm (.branch ⟨0, 1⟩ ⟨0, 4⟩) (.atEnd ⟨0, 4⟩),
      .createForm (.ret [⟨0, 2⟩]) (.atEnd ⟨0, 5⟩)] { id := 0 }

/-- Twice around the loop and out of it: the product is erased, and what is
left still sees `x` grow to two and to three. -/
theorem eliminateDeadCode_keeps_paths_productInLoop :
    Reachable productInLoop ∧
    ∃ g l, (FlowGraph.build productInLoop ⟨0, 0⟩).outcome = .ok g ∧
      Liveness.compute productInLoop g = .ok l ∧
      (∀ k ∈ [0, 0, 1], k < g.size) ∧
      [0, 0, 1].IsChain (fun k m => m ∈ g.successorsOf k) ∧
      ((Edit.eliminateDeadCode ⟨0, 0⟩ l).run productInLoop).context.ownsInst ⟨0, 1⟩ = false ∧
      (counter.pass ((Edit.eliminateDeadCode ⟨0, 0⟩ l).run productInLoop).context
          ([0, 0, 1].flatMap g.instructionsOf) (fun _ => 1) 0).trace =
        [⟨⟨0, 0⟩, [1, 1], 0⟩, ⟨⟨0, 2⟩, [1, 1], 0⟩, ⟨⟨0, 0⟩, [2, 1], 1⟩, ⟨⟨0, 2⟩, [1, 1], 1⟩,
          ⟨⟨0, 3⟩, [3], 2⟩] := by
  have hreachable : Reachable productInLoop := (Reachable.empty 0).runAll (by decide)
  obtain ⟨g, hg, hnodes, hchain, hsets⟩ : ∃ g,
      (FlowGraph.build productInLoop ⟨0, 0⟩).outcome = .ok g ∧ (∀ k ∈ [0, 0, 1], k < g.size) ∧
      [0, 0, 1].IsChain (fun k m => m ∈ g.successorsOf k) ∧
      ∀ l ∈ (Liveness.compute productInLoop g).toOption,
        ((Edit.eliminateDeadCode ⟨0, 0⟩ l).run productInLoop).context.ownsInst ⟨0, 1⟩ = false ∧
        (counter.pass productInLoop ([0, 0, 1].flatMap g.instructionsOf)
            (fun _ => 1) 0).trace.filter (fun o =>
              ((Edit.eliminateDeadCode ⟨0, 0⟩ l).run productInLoop).context.ownsInst o.inst) =
          [⟨⟨0, 0⟩, [1, 1], 0⟩, ⟨⟨0, 2⟩, [1, 1], 0⟩, ⟨⟨0, 0⟩, [2, 1], 1⟩, ⟨⟨0, 2⟩, [1, 1], 1⟩,
            ⟨⟨0, 3⟩, [3], 2⟩] :=
    ⟨_, rfl, by decide +kernel⟩
  obtain ⟨l, -, hl, -, hkeeps⟩ := eliminateDeadCode_keeps_paths hreachable hg
  obtain ⟨hgone, hwhole⟩ := hsets l (by rw [hl]; rfl)
  have hpath := (hkeeps counter [0, 0, 1] (fun _ => 1) 0 hnodes hchain).trace
  exact ⟨hreachable, g, l, hg, hl, hnodes, hchain, hgone, hpath.trans hwhole⟩

end ContractIR
