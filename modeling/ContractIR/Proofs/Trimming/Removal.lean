import ContractIR.Proofs.Cursors
import ContractIR.Proofs.Flow.LivePaths
import ContractIR.Proofs.Trimming.Stages
/-!
# What dead code elimination leaves

`Context.stays` says which instructions have to stay, from what is live behind
them. Dead code elimination leaves exactly these of the instructions of a
function (`eliminateDeadCode_leaves_what_stays`), in their order, and counts
the others. It does so one instruction after the other, in bodies that shrink
under it: as a run that is in `without_eliminateDeadCode` and `Trims`, as a loop
with a cursor in `Edit.Clears`.
-/

namespace ContractIR

namespace Context

/-- **Whether an instruction has to stay**: it has no results, leaving it out
could be noticed, or one of its results is live behind it. Nothing is live
behind an instruction for which there is no set. -/
def stays (ctx : Context) (l : Liveness) (i : InstId) : Bool :=
  (ctx.inst? i).any fun x => x.results.isEmpty || x.opcode.mayHaveSideEffects ||
    (l.after? i).any fun live => x.results.any fun v => decide (v ∈ live)

variable {ctx : Context} {l : Liveness} {f b : ValueId} {i : InstId} {x : Instruction}

/-- What is in the context stays or is erased. -/
theorem erases_eq_not_stays (hx : ctx.inst? i = some x) : ctx.erases l i = !ctx.stays l i := by
  rw [erases, stays, hx, Option.any_some, Option.any_some, Instruction.isQuiet]
  cases l.after? i with
  | none =>
    have hdead : (x.results.any fun v => (∅ : ValueSet).contains v) = false := by simp
    rw [Option.getD_none, hdead, Option.any_none]
    cases x.results.isEmpty <;> cases x.opcode.mayHaveSideEffects <;> rfl
  | some live =>
    have hlive : (fun v => decide (v ∈ live)) = fun v => live.contains v := by
      funext v
      rw [← Bool.coe_iff_coe, decide_eq_true_iff, Std.ExtTreeSet.contains_iff_mem]
    rw [Option.getD_some, Option.any_some, hlive]
    cases x.results.isEmpty <;> cases x.opcode.mayHaveSideEffects <;> simp

/-- In a block, leaving out what is erased leaves what stays. -/
theorem filter_erases (h : Threaded ctx) (b : ValueId) :
    (ctx.body b).filter (fun j => !ctx.erases l j) = (ctx.body b).filter (ctx.stays l) := by
  refine List.filter_congr fun j hj => ?_
  obtain ⟨x, hx, -⟩ := h.live hj
  rw [erases_eq_not_stays hx, Bool.not_not]

end Context

open Context

/-- **Dead code elimination leaves exactly what has to stay.** It is what the loop
ends in that goes over each block with a cursor, from the first instruction to
the next one or to what the erasure of one answers. Each block of the function
keeps those of its instructions that stay, in their order, and the number of the
others is the result; nothing can fail. The others are no longer in the context,
and every instruction that stays or is not of the function is as it was, as are
all other blocks. Something may be live behind the instructions in the nodes of
the graph only. -/
theorem eliminateDeadCode_leaves_what_stays {ctx : Context} (reachable : Reachable ctx)
    {f : ValueId} (function : ctx.kind? f = some .function) {g : FlowGraph}
    (built : (FlowGraph.build ctx f).outcome = .ok g) {l : Liveness}
    (computed : Liveness.compute ctx g = .ok l) :
    (∀ last, Edit.Clears l (ctx.members f .blocks) ctx last ↔
        (Edit.eliminateDeadCode f l).run ctx = last) ∧
      ((Edit.eliminateDeadCode f l).run ctx).outcome =
        .ok ((ctx.instsOf f).countP fun i => !ctx.stays l i) ∧
      ((Edit.eliminateDeadCode f l).run ctx).context.members f .blocks = ctx.members f .blocks ∧
      (∀ b ∈ ctx.members f .blocks, ((Edit.eliminateDeadCode f l).run ctx).context.body b =
        (ctx.body b).filter (ctx.stays l)) ∧
      (∀ b ∉ ctx.members f .blocks,
        ((Edit.eliminateDeadCode f l).run ctx).context.body b = ctx.body b) ∧
      (∀ i ∈ ctx.instsOf f, ctx.stays l i = false →
        ((Edit.eliminateDeadCode f l).run ctx).context.ownsInst i = false) ∧
      (∀ i, i ∉ ctx.instsOf f ∨ ctx.stays l i = true →
        ((Edit.eliminateDeadCode f l).run ctx).context.inst? i = ctx.inst? i) ∧
      ∀ i, (l.after? i).isSome ↔ ∃ n ∈ g.nodes, i ∈ n.instructions := by
  have h := reachable.sound
  have hf := ownsValue_of_kind? function
  have hrun : (Edit.eliminateDeadCode f l).Ensures _ (fun _ _ => False) ctx :=
    ((Edit.trimming_eliminateDeadCode (P := True) h hf).and
      (Edit.without_eliminateDeadCode h)).imp (fun _ _ hc => hc) fun _ _ hfails => hfails.2 hf
  obtain ⟨n, hn, htrims, -, hgone⟩ := hrun.exists_ok
  generalize ((Edit.eliminateDeadCode f l).run ctx).context = c at htrims hgone ⊢
  have hinside : ∀ b ∈ ctx.members f .blocks, c.body b = (ctx.body b).filter (ctx.stays l) := by
    intro b hb
    rw [hgone.body, ← filter_erases h.threaded]
    refine List.filter_congr fun j hj => ?_
    have hmem : ∃ b ∈ ctx.members f .blocks, j ∈ ctx.body b := ⟨b, hb, hj⟩
    rw [decide_eq_true hmem, Bool.true_and]
  -- What is left of the function is what stays, so what was counted is the rest.
  have hleft : c.instsOf f = (ctx.instsOf f).filter (ctx.stays l) := by
    rw [instsOf, instsOf, List.filter_flatMap, hgone.same.members]
    exact List.flatMap_congr hinside
  have hcount : n = (ctx.instsOf f).countP fun i => !ctx.stays l i := by
    have hlength := htrims.length_instsOf h
    rw [hleft, ← List.countP_eq_length_filter,
      List.length_eq_countP_add_countP (ctx.stays l)] at hlength
    simp only [Bool.not_eq_true, Bool.decide_eq_false] at hlength
    omega
  refine ⟨fun _ => Edit.clears_iff_eliminateDeadCode h hf, hcount ▸ hn,
    congrFun (congrFun hgone.same.members f) .blocks, hinside, fun b hb => ?_,
    fun i hi hgoes => ?_, fun i hi => ?_, fun i => ?_⟩
  · exact (htrims.trimmed h).kept_body b hb
  · obtain ⟨b, hb, hib⟩ := mem_instsOf.1 hi
    obtain ⟨x, hx, -⟩ := h.threaded.live hib
    have hmem : ∃ b ∈ ctx.members f .blocks, i ∈ ctx.body b := ⟨b, hb, hib⟩
    rw [ownsInst, hgone.inst, decide_eq_true hmem, erases_eq_not_stays hx, hgoes]
    rfl
  · rw [hgone.inst]
    split
    · rename_i hgoes
      obtain ⟨hmem, herases⟩ := Bool.and_eq_true _ _ ▸ hgoes
      obtain ⟨x, hx, -⟩ := (Option.any_eq_true _ _).1 herases
      rw [erases_eq_not_stays hx, Bool.not_eq_true'] at herases
      rcases hi with hout | hstays
      · exact absurd (mem_instsOf.2 (of_decide_eq_true hmem)) hout
      · rw [herases] at hstays
        cases hstays
    · rfl
  · obtain ⟨l', hl', hdescribes⟩ :=
      Liveness.compute_of_built h (FlowGraph.built_of_build h built)
    obtain rfl : l = l' := Except.ok.inj (computed.symm.trans hl')
    exact hdescribes.isSome_after?_iff

/-- A function of one block: two dead writes at the head, the write that is
returned, a division whose result nobody reads, and, behind the return, a write,
a return and a copy. -/
def deadAroundLive : Context :=
  Operation.runAll
    [.createFunction true "" none, .createArgument "" (some ⟨0, 0⟩),
      .createLocal "" (some ⟨0, 0⟩), .createLocal "" (some ⟨0, 0⟩),
      .createBlock "" (some ⟨0, 0⟩) none,
      .createForm (.binary .mul ⟨0, 2⟩ ⟨0, 1⟩ ⟨0, 1⟩) (.atEnd ⟨0, 4⟩),
      .createForm (.binary .add ⟨0, 3⟩ ⟨0, 1⟩ ⟨0, 1⟩) (.atEnd ⟨0, 4⟩),
      .createForm (.binary .add ⟨0, 2⟩ ⟨0, 1⟩ ⟨0, 1⟩) (.atEnd ⟨0, 4⟩),
      .createForm (.binary .div ⟨0, 3⟩ ⟨0, 2⟩ ⟨0, 1⟩) (.atEnd ⟨0, 4⟩),
      .createForm (.ret [⟨0, 2⟩]) (.atEnd ⟨0, 4⟩),
      .createForm (.binary .add ⟨0, 2⟩ ⟨0, 1⟩ ⟨0, 1⟩) (.atEnd ⟨0, 4⟩),
      .createForm (.ret [⟨0, 2⟩]) (.atEnd ⟨0, 4⟩),
      .createForm (.assign ⟨0, 3⟩ ⟨0, 2⟩) (.atEnd ⟨0, 4⟩)] { id := 0 }

/-- It loses the writes at the head, the write behind the return and the copy at
the tail. -/
theorem eliminateDeadCode_leaves_what_stays_deadAroundLive :
    Reachable deadAroundLive ∧ deadAroundLive.kind? ⟨0, 0⟩ = some .function ∧
    ∃ g l, (FlowGraph.build deadAroundLive ⟨0, 0⟩).outcome = .ok g ∧
      Liveness.compute deadAroundLive g = .ok l ∧
      ((Edit.eliminateDeadCode ⟨0, 0⟩ l).run deadAroundLive).outcome = .ok 4 ∧
      ((Edit.eliminateDeadCode ⟨0, 0⟩ l).run deadAroundLive).context.body ⟨0, 4⟩ =
        [⟨0, 2⟩, ⟨0, 3⟩, ⟨0, 4⟩, ⟨0, 6⟩] := by
  have hreachable : Reachable deadAroundLive := (Reachable.empty 0).runAll (by decide)
  have hkind : deadAroundLive.kind? ⟨0, 0⟩ = some .function := by decide +kernel
  have hbuilt : (FlowGraph.build deadAroundLive ⟨0, 0⟩).outcome.toBool = true := by decide +kernel
  have hsets : ∀ g ∈ (FlowGraph.build deadAroundLive ⟨0, 0⟩).outcome.toOption,
      ∀ l ∈ (Liveness.compute deadAroundLive g).toOption,
        (deadAroundLive.body ⟨0, 4⟩).filter (deadAroundLive.stays l) =
          [⟨0, 2⟩, ⟨0, 3⟩, ⟨0, 4⟩, ⟨0, 6⟩] ∧
        (deadAroundLive.instsOf ⟨0, 0⟩).countP (fun i => !deadAroundLive.stays l i) = 4 := by
    decide +kernel
  cases hg : (FlowGraph.build deadAroundLive ⟨0, 0⟩).outcome with
  | error fault =>
    rw [hg] at hbuilt
    cases hbuilt
  | ok g =>
    obtain ⟨l, hl, -⟩ :=
      Liveness.compute_of_built hreachable.sound (FlowGraph.built_of_build hreachable.sound hg)
    obtain ⟨hblock, hcount⟩ := hsets g (by rw [hg]; rfl) l (by rw [hl]; rfl)
    obtain ⟨-, hok, -, hbody, -⟩ := eliminateDeadCode_leaves_what_stays hreachable hkind hg hl
    exact ⟨hreachable, hkind, g, l, rfl, hl, hcount ▸ hok,
      (hbody ⟨0, 4⟩ (by decide +kernel)).trans hblock⟩

end ContractIR
