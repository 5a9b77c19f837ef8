import ContractIR.Optimize.Pass
import ContractIR.Proofs.Semantics.Copies
import ContractIR.Proofs.Semantics.Erasure
/-!
# The optimizer keeps what a function does

Copy propagation keeps what every block does, and dead code elimination leaves
out what nobody reads. So an optimized function runs as before, for every
machine, every store and every state of the world outside
(`optimizeFunction_keeps_runs`).

One thing has to be looked at: the flow graph has no edges for a branch in a
node that a return or a revert closes. If something is live at the target of
such a branch only, dead code elimination takes it for dead. A function where
this happens stands at the end.
-/

namespace ContractIR

open Context

universe u v

variable {D : Type u} {E : Type v} {ctx : Context} {l : Liveness}

/-- Noting the graph and the sets does not change the sets. -/
theorem Edit.compute_of_analyze {g : FlowGraph} {trace : Bool}
    (h : (analyze ctx g trace).outcome = .ok l) : Liveness.compute ctx g = .ok l := by
  have hreport : ∀ {l}, (Liveness.report ctx g true).outcome = .ok l →
      Liveness.compute ctx g = .ok l := by
    intro l h
    unfold Liveness.report at h
    simp only [Report.outcome_bind, Report.outcome_liftM, Report.outcome_pure, bind_eq_ok] at h
    obtain ⟨l', hl', _, -, hl⟩ := h
    rw [hl', Except.ok.inj hl]
  unfold analyze at h
  split at h
  · simp only [Report.outcome_bind, Report.outcome_liftM, Report.outcome_note, Report.outcome_pure,
      bind_eq_ok] at h
    obtain ⟨_, -, _, -, l', hl', _, -, hl⟩ := h
    rw [← Except.ok.inj hl]
    exact hreport hl'
  · exact hreport h

/-- **A function of a context can be rid of dead code**: the live sets of its
graph cover the branches that returns and reverts close off. -/
def Context.Covered (ctx : Context) (f : ValueId) : Prop :=
  ∀ g l, (FlowGraph.build ctx f).outcome = .ok g → Liveness.compute ctx g = .ok l → l.Covers ctx g

instance (ctx : Context) (g : FlowGraph) (l : Liveness) : Decidable (l.Covers ctx g) :=
  decidable_of_iff
    (∀ n ∈ g.nodes, ctx.endsInExit n.instructions = true → ∀ i ∈ n.instructions,
      ∀ t ∈ ctx.branchOf? i, ∀ m ∈ g.nodeAt? t 0,
        ∀ v ∈ (LiveNode.valuesAt l.liveIn m).toList, l.drops ctx g v → v ∈ (l.after? i).getD ∅)
    (by simp only [Liveness.Covers, Std.ExtTreeSet.mem_toList])

instance (ctx : Context) (f : ValueId) : Decidable (ctx.Covered f) :=
  match hg : (FlowGraph.build ctx f).outcome with
  | .error _ => isTrue fun _ _ hg' => by cases hg.symm.trans hg'
  | .ok g =>
    match hl : Liveness.compute ctx g with
    | .error _ => isTrue fun _ _ hg' hl' => by
      cases hg.symm.trans hg'
      cases hl.symm.trans hl'
    | .ok l =>
      decidable_of_iff (l.Covers ctx g) ⟨fun h g' l' hg' hl' => by
        cases hg.symm.trans hg'
        cases hl.symm.trans hl'
        exact h, fun h => h g l hg hl⟩

/-- The context in which the optimizer looks for dead code: copies have been
propagated, if that was wanted. -/
def Context.copied (ctx : Context) (f : ValueId) (options : OptimizerOptions) : Context :=
  ((Edit.copyStage options (ctx.members f .blocks)).run ctx).context

theorem Edit.ensures_copyStage {M : Machine D E} (h : Sound ctx) (options : OptimizerOptions)
    (blocks : List ValueId) :
    (copyStage options blocks).Ensures (fun _ c => Sound c ∧ M.Alike c ctx) (fun _ _ => True)
      ctx := by
  unfold copyStage
  split
  · exact (keepsBlocks_propagateAllCopies h blocks).imp (fun _ _ hc => hc) fun _ _ _ => trivial
  · exact ⟨h, .refl ctx⟩

/-- A graph and its live sets, as they are built. -/
theorem Sound.analyzed (h : Sound ctx) {f : ValueId} {g : FlowGraph}
    (hg : (FlowGraph.build ctx f).outcome = .ok g) (hl : Liveness.compute ctx g = .ok l) :
    ctx.Analyzed (ctx.members f .blocks) g l := by
  have hbuilt := FlowGraph.built_of_build h hg
  obtain ⟨l', hl', hdescribes⟩ := Liveness.compute_of_built h hbuilt
  obtain rfl : l' = l := Except.ok.inj (hl'.symm.trans hl)
  exact ⟨hbuilt, hdescribes⟩

/-- **Dead code elimination keeps what a function does.** -/
theorem Edit.ensures_eliminateDeadCode {M : Machine D E} (h : Sound ctx) {f : ValueId}
    {g : FlowGraph} (ha : ctx.Analyzed (ctx.members f .blocks) g l) (hc : l.Covers ctx g) :
    (eliminateDeadCode f l).Ensures
      (fun _ c => ∀ n σ e, M.run c f n σ e = M.run ctx f n σ e) (fun _ _ => True) ctx := by
  refine (without_eliminateDeadCode h).imp (fun _ c hgone n σ e => ?_) fun _ _ _ => trivial
  have hcode : ∀ b ∈ ctx.members f .blocks,
      c.code b = ctx.codeOf ((ctx.body b).filter fun j => !ctx.erases l j) := by
    intro b hb
    rw [hgone.2.code_eq]
    refine congrArg _ (List.filter_congr fun j hj => ?_)
    rw [decide_eq_true ⟨b, hb, hj⟩, Bool.true_and]
  have hall : ctx.members f .blocks = [] ++ ctx.members f .blocks := rfl
  rw [Interpretation.run, Interpretation.run, hgone.2.same.members]
  exact ha.follow_eq h hc hcode hall n (.refl _ σ)

/-- **An optimized function does what it did**, if dead code is left alone or
the live sets cover the branches that returns and reverts close off. This
holds for every machine, from every store and state, and after any number of
blocks: the same is observed, and the run ends the same way or not at all. -/
theorem optimizeFunction_keeps_runs {ctx : Context} (reachable : Reachable ctx) (f : ValueId)
    (options : OptimizerOptions)
    (covered : options.deadCodeElimination = true → (ctx.copied f options).Covered f)
    {statistics : FunctionStatistics}
    (ok : ((Edit.optimizeFunction f options).run ctx).outcome = .ok statistics)
    (M : Machine D E) (n : Nat) (σ : ValueId → D) (e : E) :
    M.run ((Edit.optimizeFunction f options).run ctx).context f n σ e = M.run ctx f n σ e := by
  refine Edit.Ensures.of_ok (Q := fun _ c => M.run c f n σ e = M.run ctx f n σ e)
    (E := fun _ _ => True) ?_ ok
  rw [Edit.optimizeFunction]
  simp only [Edit.ensures_bind, Edit.ensures_context, Edit.ensures_liftM,
    Edit.ensures_liftM_report, implies_true, and_true]
  intro x hx
  have hf := read_eq_ok.1 hx
  have hblocks : x.members .blocks = ctx.members f .blocks := by
    rw [Context.members, hf]
    rfl
  rw [hblocks]
  refine (Edit.ensures_copyStage (M := M) reachable.sound options _).and_run.mono
    fun _ c hc g hg l hl => ?_
  obtain ⟨⟨hsound, halike⟩, hcopied⟩ := hc
  have hcopies := halike.run_eq f n σ e
  rw [Edit.deadStage]
  split
  · rename_i hdead
    -- The graph and the sets were built after the copies were propagated.
    have hl := Edit.compute_of_analyze hl
    have hc : l.Covers c g := by
      rw [hcopied] at hg hl ⊢
      exact covered hdead g l hg hl
    refine (Edit.ensures_eliminateDeadCode (M := M) hsound (hsound.analyzed hg hl) hc).mono
      fun _ c' hc' => ?_
    simp only [Edit.ensures_note, Edit.ensures_pure]
    exact (hc' n σ e).trans hcopies
  · simp only [Edit.ensures_note, Edit.ensures_pure]
    exact hcopies

/-- A function with an argument `c`, locals `x` and `y` and two blocks. The
first writes `x` twice, copies it to `y` and, if `c` is not zero, branches to
the second, which returns `x`; otherwise it returns `y`. -/
def readsOnBothSides : Context :=
  Operation.runAll
    [.createFunction true "" none, .createArgument "" (some ⟨0, 0⟩),
      .createLocal "" (some ⟨0, 0⟩), .createLocal "" (some ⟨0, 0⟩),
      .createBlock "" (some ⟨0, 0⟩) none, .createBlock "" (some ⟨0, 0⟩) none,
      .createForm (.binary .mul ⟨0, 2⟩ ⟨0, 1⟩ ⟨0, 1⟩) (.atEnd ⟨0, 4⟩),
      .createForm (.binary .add ⟨0, 2⟩ ⟨0, 1⟩ ⟨0, 1⟩) (.atEnd ⟨0, 4⟩),
      .createForm (.assign ⟨0, 3⟩ ⟨0, 2⟩) (.atEnd ⟨0, 4⟩),
      .createForm (.branch ⟨0, 1⟩ ⟨0, 5⟩) (.atEnd ⟨0, 4⟩),
      .createForm (.ret [⟨0, 3⟩]) (.atEnd ⟨0, 4⟩), .createForm (.ret [⟨0, 2⟩]) (.atEnd ⟨0, 5⟩)]
    { id := 0 }

/-- It loses the first write and the copy, and still returns two. -/
theorem optimizeFunction_keeps_runs_readsOnBothSides :
    Reachable readsOnBothSides ∧ (readsOnBothSides.copied ⟨0, 0⟩ {}).Covered ⟨0, 0⟩ ∧
      (∃ s, ((Edit.optimizeFunction ⟨0, 0⟩ {}).run readsOnBothSides).outcome = .ok s ∧
        s.dead = 2) ∧
      (adder.run ((Edit.optimizeFunction ⟨0, 0⟩ {}).run readsOnBothSides).context ⟨0, 0⟩ 2
        (fun _ => 1) ()).outcome = some (.returned [2]) := by
  have hreachable : Reachable readsOnBothSides := (Reachable.empty 0).runAll (by decide)
  have hcovered : (readsOnBothSides.copied ⟨0, 0⟩ {}).Covered ⟨0, 0⟩ := by decide +kernel
  have hok : ((Edit.optimizeFunction ⟨0, 0⟩ {}).run readsOnBothSides).outcome =
      .ok { function := "", nodes := 2, edges := 0, sweeps := 2, replacedReads := 1,
            selfCopies := 0, dead := 2 } := by
    decide +kernel
  refine ⟨hreachable, hcovered, ⟨_, hok, rfl⟩, ?_⟩
  rw [optimizeFunction_keeps_runs hreachable ⟨0, 0⟩ {} (fun _ => hcovered) hok adder 2]
  decide +kernel

/-- A function with an argument `c`, a local `x` and two blocks. The first
writes `x` and, if `c` is not zero, branches to the second, which returns
`x`; otherwise it returns nothing. -/
def readsBehindBranch : Context :=
  Operation.runAll
    [.createFunction true "" none, .createArgument "" (some ⟨0, 0⟩),
      .createLocal "" (some ⟨0, 0⟩), .createBlock "" (some ⟨0, 0⟩) none,
      .createBlock "" (some ⟨0, 0⟩) none,
      .createForm (.binary .add ⟨0, 2⟩ ⟨0, 1⟩ ⟨0, 1⟩) (.atEnd ⟨0, 3⟩),
      .createForm (.branch ⟨0, 1⟩ ⟨0, 4⟩) (.atEnd ⟨0, 3⟩), .createForm .retVoid (.atEnd ⟨0, 3⟩),
      .createForm (.ret [⟨0, 2⟩]) (.atEnd ⟨0, 4⟩)]
    { id := 0 }

/-- It loses the write: from ones everywhere, it returned two and then returns
one. -/
theorem readsBehindBranch_loses_write :
    Reachable readsBehindBranch ∧
      (∃ s, ((Edit.optimizeFunction ⟨0, 0⟩ {}).run readsBehindBranch).outcome = .ok s ∧
        s.dead = 1) ∧
      (adder.run readsBehindBranch ⟨0, 0⟩ 2 (fun _ => 1) ()).outcome = some (.returned [2]) ∧
      (adder.run ((Edit.optimizeFunction ⟨0, 0⟩ {}).run readsBehindBranch).context ⟨0, 0⟩ 2
        (fun _ => 1) ()).outcome = some (.returned [1]) := by
  have hok : ((Edit.optimizeFunction ⟨0, 0⟩ {}).run readsBehindBranch).outcome =
      .ok { function := "", nodes := 2, edges := 0, sweeps := 2, replacedReads := 0,
            selfCopies := 0, dead := 1 } := by
    decide +kernel
  refine ⟨(Reachable.empty 0).runAll (by decide), ⟨_, hok, rfl⟩, ?_, ?_⟩
  · decide +kernel
  · decide +kernel

end ContractIR
