import ContractIR.Proofs.Flow.Reports
import ContractIR.Proofs.Semantics.Copies
import ContractIR.Proofs.Semantics.Erasure
import ContractIR.Proofs.Trimming.Steps
/-!
# The optimizer only trims

Here the stages of the optimizer are taken apart into steps of `Trim`. Each
edit is shown to amount to a run of such steps, however it ends, and to report
how many instructions the run destroyed. With it goes what can make the edit
fail: copy propagation is refused only a source that is not of the function,
and the graph is refused only if a branch leads out of the function. So nothing
fails in a function that uses what is its own.
-/

namespace ContractIR

open Context

variable {α : Type} {ctx c : Context} {b f s t v : ValueId} {i : InstId} {x : Instruction}
variable {is js : List InstId} {k n : Nat} {P : Prop}

theorem Kind.isFunctionLocal_of_isLocal {k : Kind} (h : k.isLocal) : k.isFunctionLocal := by
  cases k <;> first | rfl | cases h

/-- A local of the function belongs to it. -/
theorem Context.belongs_of_isLocal (h : ctx.isLocal v) (hf : ctx.parent? v = some f) :
    ctx.Belongs f v := by
  obtain ⟨k, hk, -⟩ := (Option.any_eq_true _ _).1 h
  exact ⟨k, hk, fun _ => hf⟩

/-- In a function that uses what is its own, what a local copy reads is. -/
theorem Context.SelfContained.parent?_of_mem (h : ctx.SelfContained Instruction.operands f)
    (hb : b ∈ ctx.members f .blocks) (hi : i ∈ ctx.body b) (hx : ctx.inst? i = some x)
    (hv : v ∈ x.operands) (hlocal : ctx.isLocal v) : ctx.parent? v = some f := by
  obtain ⟨k, hk, hlocal⟩ := (Option.any_eq_true _ _).1 hlocal
  refine h b hb i hi x hx v hv ?_
  rw [hk]
  exact Kind.isFunctionLocal_of_isLocal hlocal

namespace Edit

/-- **An edit that trims a function**: it amounts to a run of steps and reports
how many instructions the run destroyed. It may stop on the way, but not if `P`
holds. -/
def Trimming (e : Edit α) (f : ValueId) (count : α → Nat) (P : Prop) (ctx : Context) : Prop :=
  e.Ensures (fun a c => ctx.Trims f (count a) c) (fun _ c => (∃ n, ctx.Trims f n c) ∧ ¬P) ctx

/-- What an edit adds to an earlier run. -/
theorem Trimming.since {e : Edit α} {count : α → Nat} (h : e.Trimming f count P c)
    (hrun : ctx.Trims f n c) :
    e.Ensures (fun a c' => ctx.Trims f (n + count a) c')
      (fun _ c' => (∃ m, ctx.Trims f m c') ∧ ¬P) c := by
  refine h.imp (fun a c' hc' => hrun.trans hc') fun _ c' hc' => ⟨?_, hc'.2⟩
  obtain ⟨m, hm⟩ := hc'.1
  exact ⟨n + m, hrun.trans hm⟩

/-! ## Copy propagation -/

/-- Replacing an operand of an instruction by a value of the context depends on
the check of the operand alone. -/
theorem ensures_setOperand_of_live {Q : Unit → Context → Prop} {E : Fault → Context → Prop}
    (hv : ctx.ownsValue v) (hx : ctx.inst? i = some x)
    (fails : ∀ fault, ctx.checkOperand x k v = .error fault → E fault ctx)
    (replaces : ctx.checkOperand x k v = .ok () → Q () (ctx.withOperand i k v)) :
    (setOperand i k v).Ensures Q E ctx := by
  obtain ⟨y, hy⟩ := Option.isSome_iff_exists.1 hv
  unfold setOperand
  simp only [ensures_bind, ensures_context, ensures_liftM, own_eq_ok.2 hy, ownInst_eq_ok.2 hx,
    Except.ok.injEq, forall_eq', reduceCtorEq, false_implies, implies_true, and_true]
  exact ⟨fun _ hcheck => replaces hcheck, fails⟩

/-- Some locals replaced by a local. -/
theorem trimming_replaceOperands (h : Sound ctx) (hb : b ∈ ctx.members f .blocks)
    (hi : i ∈ ctx.body b) (hs : ctx.isLocal s) (hown : P → ctx.parent? s = some f) {ks : List Nat}
    (hks : ∀ x, ctx.inst? i = some x → ∀ k ∈ ks, x.operands[k]?.any ctx.isLocal) :
    (replaceOperands i s ks).Trimming f (fun _ => 0) P ctx := by
  induction ks generalizing ctx with
  | nil => exact .refl
  | cons k ks ih =>
    obtain ⟨x, hx, hblock⟩ := h.threaded.live hi
    obtain ⟨w, hw, hlocal⟩ := (Option.any_eq_true _ _).1 (hks x hx k List.mem_cons_self)
    have hk : k < x.operands.length := (List.getElem?_eq_some_iff.1 hw).1
    rw [replaceOperands, Trimming, ensures_bind]
    refine ensures_setOperand_of_live (ownsValue_of_isLocal hs) hx (fun fault hfault => ?_)
      fun hcheck => ?_
    · refine ⟨⟨0, .refl⟩, fun hP => ?_⟩
      -- A local stands where no branch has its target, so only the function could object.
      have hcheck : ctx.checkOperand x k s = .ok () := by
        refine checkOperand_of_belongs hk (fun hop hlast => ?_) fun g hg => ?_
        · exact absurd hlast ((h.shaped.shaped hx).not_last_of_local hop hw hlocal)
        · rw [bind_parentOfKind?_of_mem h.membered hblock hb] at hg
          exact Option.some.inj hg ▸ belongs_of_isLocal hs (hown hP)
      rw [hcheck] at hfault
      cases hfault
    · have hstep : ctx.Trim f 0 (ctx.withOperand i k s) :=
        .reread hx hblock hb hw hlocal hs hcheck
      have hsame : SameMembers (ctx.withOperand i k s) ctx := .withOperand
      have hlocals : (ctx.withOperand i k s).isLocal = ctx.isLocal := by
        funext v
        rw [isLocal, isLocal, hsame.kind]
      refine (ih (hstep.sound h) ?_ ?_ ?_ ?_ fun x' hx' k' hk' => ?_).since (.single hstep)
      · rw [hsame.members]
        exact hb
      · rw [withOperand, body_congr skeleton?_updateInst]
        exact hi
      · rw [hlocals]
        exact hs
      · rw [hsame.parent]
        exact hown
      · rw [inst?_withOperand hx, if_pos rfl] at hx'
        rw [hlocals, ← Option.some.inj hx', Instruction.setOperand]
        by_cases hkk : k = k'
        · rw [← hkk, List.getElem?_set_self hk]
          exact hs
        · rw [List.getElem?_set_ne hkk]
          exact hks x hx k' (List.mem_cons_of_mem k hk')

/-- **A copy forwarded** to instructions of a block. -/
theorem trimming_forwardCopy (h : Sound ctx) (hb : b ∈ ctx.members f .blocks)
    (hjs : ∀ j ∈ js, j ∈ ctx.body b) (ht : ctx.isLocal t) (hs : ctx.isLocal s)
    (hown : P → ctx.parent? s = some f) :
    (forwardCopy t s js).Trimming f (fun _ => 0) P ctx := by
  induction js generalizing ctx with
  | nil => exact .refl
  | cons i js ih =>
    have hi := hjs i List.mem_cons_self
    obtain ⟨x, hx, -⟩ := h.threaded.live hi
    have hreads : ∀ x', ctx.inst? i = some x' → ∀ k ∈ x.positionsOf t,
        x'.operands[k]?.any ctx.isLocal := by
      intro x' hx' k hk
      obtain rfl : x = x' := Option.some.inj (hx.symm.trans hx')
      rw [Instruction.get_of_mem_positionsOf hk]
      exact ht
    rw [forwardCopy, Trimming]
    simp only [ensures_bind, ensures_context, ensures_liftM, readInst_eq_ok.2 hx, Except.ok.injEq,
      forall_eq', reduceCtorEq, false_implies, implies_true, and_true]
    refine (trimming_replaceOperands h hb hi hs hown hreads).imp (fun _ c hc => ?_) fun _ _ hc => hc
    split
    · exact hc
    · have hsame := (hc.trimmed h).sameMembers
      simp only [ensures_bind, ensures_pure]
      refine (ih (hc.sound h) ?_ (fun j hj => ?_) ?_ ?_ ?_).since hc
      · rw [hsame.members]
        exact hb
      · rw [hc.body_eq]
        exact hjs j (List.mem_cons_of_mem i hj)
      · rw [isLocal, hsame.kind]
        exact ht
      · rw [isLocal, hsame.kind]
        exact hs
      · rw [hsame.parent]
        exact hown

/-- **A sweep** over the rest of a block: it destroys as many instructions as it
counts copies of a local to itself. -/
theorem trimming_sweepCopies (h : Sound ctx) (hb : b ∈ ctx.members f .blocks)
    (hbody : ctx.body b = is ++ js) (hself : P → ctx.SelfContained Instruction.operands f) :
    (sweepCopies js).Trimming f CopyTally.selfCopies P ctx := by
  induction js generalizing ctx is with
  | nil => exact .refl
  | cons i js ih =>
    have hnext : ctx.body b = (is ++ [i]) ++ js := by
      rw [hbody, List.append_assoc]
      rfl
    have hi : i ∈ ctx.body b := by
      rw [hbody]
      simp
    obtain ⟨x, hx, hblock⟩ := h.threaded.live hi
    rw [sweepCopies, Trimming]
    simp only [ensures_bind, ensures_context, ensures_liftM, readInst_eq_ok.2 hx, Except.ok.injEq,
      forall_eq', reduceCtorEq, false_implies, implies_true, and_true]
    split
    · exact ih h hb hnext hself
    · rename_i t s hcopy
      obtain ⟨-, hresults, hoperands, hs⟩ := (h.shaped.shaped hx).of_localCopy? hcopy
      split
      · simp only [ensures_bind, ensures_note, ensures_pure]
        refine (ensures_eraseInst_of_placed hx hblock ?_).imp (fun _ _ hc => hc)
          fun _ _ hfails => hfails.elim
        have hstep : ctx.Trim f 1 ((ctx.unplaced i b).destroyed i) := .erase hx hblock hb
        have hgone := h.threaded.without_erased hx hblock
        have hrest : ((ctx.unplaced i b).destroyed i).body b = is ++ js := by
          rw [hgone.body, h.threaded.filter_eq hbody, if_pos rfl]
        refine (ih (hstep.sound h) ?_ hrest fun hP => ?_).since (.single hstep)
        · rw [hgone.same.members]
          exact hb
        · exact hstep.selfContained h operandLocal_operands (hself hP)
      · have ht : ctx.isLocal t :=
          (h.shaped.shaped hx).locals t (by rw [hresults]; exact List.mem_cons_self)
        have hown : P → ctx.parent? s = some f := fun hP =>
          (hself hP).parent?_of_mem hb hi hx (by rw [hoperands]; exact List.mem_cons_self) hs
        have hjs : ∀ j ∈ js, j ∈ ctx.body b := by
          intro j hj
          rw [hnext]
          exact List.mem_append_right _ hj
        simp only [ensures_bind, ensures_pure, ensures_noteForwarded]
        refine (trimming_forwardCopy h hb hjs ht hs hown).imp (fun reads c hc => ?_) fun _ _ hc => hc
        have hrest : c.body b = (is ++ [i]) ++ js := by
          rw [hc.body_eq]
          exact hnext
        refine (ih (hc.sound h) ?_ hrest fun hP => ?_).since hc
        · rw [(hc.trimmed h).sameMembers.members]
          exact hb
        · exact hc.selfContained h operandLocal_operands (hself hP)

theorem trimming_settleCopies (h : Sound ctx) (hb : b ∈ ctx.members f .blocks)
    (hself : P → ctx.SelfContained Instruction.operands f) (bound : Nat) :
    (settleCopies b bound).Trimming f CopyTally.selfCopies P ctx := by
  induction bound generalizing ctx with
  | zero => exact .refl
  | succ bound ih =>
    have hread : ctx.readBody b = .ok (ctx.body b) := readBody_eq_ok.2 ⟨h.membered.kind hb, rfl⟩
    have hbody : ctx.body b = [] ++ ctx.body b := rfl
    rw [settleCopies, Trimming]
    simp only [ensures_bind, ensures_context, ensures_liftM, hread, Except.ok.injEq, forall_eq',
      reduceCtorEq, false_implies, implies_true, and_true]
    refine (trimming_sweepCopies h hb hbody hself).imp (fun tally c hc => ?_) fun _ _ hc => hc
    split
    · exact hc
    · simp only [ensures_bind, ensures_pure]
      refine (ih (hc.sound h) ?_ fun hP => ?_).since hc
      · rw [(hc.trimmed h).sameMembers.members]
        exact hb
      · exact hc.selfContained h operandLocal_operands (hself hP)

/-- **Copy propagation** in blocks of a function. -/
theorem trimming_propagateAllCopies {blocks : List ValueId} (h : Sound ctx)
    (hblocks : ∀ b ∈ blocks, b ∈ ctx.members f .blocks)
    (hself : P → ctx.SelfContained Instruction.operands f) :
    (propagateAllCopies blocks).Trimming f CopyTally.selfCopies P ctx := by
  induction blocks generalizing ctx with
  | nil => exact .refl
  | cons b blocks ih =>
    rw [propagateAllCopies, Trimming]
    simp only [ensures_bind, ensures_pure, propagateCopies, ensures_context]
    refine (trimming_settleCopies h (hblocks b List.mem_cons_self) hself _).imp (fun tally c hc => ?_)
      fun _ _ hc => hc
    refine (ih (hc.sound h) (fun b' hb' => ?_) fun hP => ?_).since hc
    · rw [(hc.trimmed h).sameMembers.members]
      exact hblocks b' (List.mem_cons_of_mem b hb')
    · exact hc.selfContained h operandLocal_operands (hself hP)

/-! ## Dead code elimination -/

/-- The dead ones among some instructions of the function are destroyed and
counted. -/
theorem trims_eraseDead {l : Liveness} (h : Sound ctx)
    (hjs : ∀ j ∈ js, ∀ x, ctx.inst? j = some x → ∃ b ∈ ctx.members f .blocks, x.block = some b) :
    (eraseDead l js).Ensures (fun n c => ctx.Trims f n c) (fun _ _ => True) ctx := by
  induction js generalizing ctx with
  | nil => exact .refl
  | cons i js ih =>
    have hrest := fun j hj => hjs j (List.mem_cons_of_mem i hj)
    rw [eraseDead]
    refine .look (.check (fun _ => trivial) fun dead _ => ?_)
    split
    · refine .check (fun _ => trivial) fun text _ => ?_
      simp only [ensures_bind, ensures_note, ensures_pure]
      refine ensures_eraseInst (fun _ => trivial) fun x b hx hblock => ?_
      obtain ⟨b', hb', hblock'⟩ := hjs i List.mem_cons_self x hx
      obtain rfl : b = b' := Option.some.inj (hblock.symm.trans hblock')
      have hstep : ctx.Trim f 1 ((ctx.unplaced i b).destroyed i) := .erase hx hblock hb'
      have hgone := h.threaded.without_erased hx hblock
      refine (ih (hstep.sound h) fun j hj y hy => ?_).mono fun n c hc => ?_
      · rw [hgone.inst] at hy
        split at hy
        · cases hy
        · rw [hgone.same.members]
          exact hrest j hj y hy
      · rw [Nat.add_comm]
        exact (Trims.single hstep).trans hc
    · exact ih h hrest

theorem trims_eraseDeadIn {l : Liveness} {blocks : List ValueId} (h : Sound ctx)
    (hblocks : ∀ b ∈ blocks, b ∈ ctx.members f .blocks) :
    (eraseDeadIn l blocks).Ensures (fun n c => ctx.Trims f n c) (fun _ _ => True) ctx := by
  induction blocks generalizing ctx with
  | nil => exact .refl
  | cons b blocks ih =>
    rw [eraseDeadIn]
    refine .look (.check (fun _ => trivial) fun is his => ?_)
    obtain ⟨-, rfl⟩ := readBody_eq_ok.1 his
    have hin : ∀ j ∈ ctx.body b, ∀ x, ctx.inst? j = some x →
        ∃ b' ∈ ctx.members f .blocks, x.block = some b' := by
      intro j hj x hx
      obtain ⟨x', hx', hblock⟩ := h.threaded.live hj
      obtain rfl : x = x' := Option.some.inj (hx.symm.trans hx')
      exact ⟨b, hblocks b List.mem_cons_self, hblock⟩
    simp only [ensures_bind, ensures_pure]
    refine (trims_eraseDead h hin).mono fun n c hc => ?_
    refine (ih (hc.sound h) fun b' hb' => ?_).mono fun m c' hc' => hc.trans hc'
    rw [(hc.trimmed h).sameMembers.members]
    exact hblocks b' (List.mem_cons_of_mem b hb')

/-- **Dead code elimination** in a function of the context: it does not fail. -/
theorem trimming_eliminateDeadCode {l : Liveness} (h : Sound ctx) (hf : ctx.ownsValue f) :
    (eliminateDeadCode f l).Trimming f (fun n => n) P ctx := by
  obtain ⟨x, hx⟩ := Option.isSome_iff_exists.1 hf
  have htrims : (eliminateDeadCode f l).Ensures (fun n c => ctx.Trims f n c) (fun _ _ => True)
      ctx := by
    unfold eliminateDeadCode
    refine .look (.check (fun _ => trivial) fun y hy => ?_)
    refine trims_eraseDeadIn h fun b hb => ?_
    rw [members_of_value? (read_eq_ok.1 hy)]
    exact hb
  refine (htrims.and (without_eliminateDeadCode h)).imp (fun _ _ hc => hc.1) fun _ _ hfails => ?_
  exact absurd hf hfails.2

/-! ## The stages together -/

theorem trimming_copyStage (h : Sound ctx) (options : OptimizerOptions)
    (hself : P → ctx.SelfContained Instruction.operands f) :
    (copyStage options (ctx.members f .blocks)).Trimming f CopyTally.selfCopies P ctx := by
  unfold copyStage
  split
  · exact trimming_propagateAllCopies h (fun _ hb => hb) hself
  · exact .refl

theorem trimming_deadStage {l : Liveness} (h : Sound ctx) (options : OptimizerOptions)
    (hf : ctx.ownsValue f) : (deadStage options f l).Trimming f (fun n => n) P ctx := by
  unfold deadStage
  split
  · exact trimming_eliminateDeadCode h hf
  · exact .refl

end Edit

/-- A branch that leads out of a function stands in one of its blocks. -/
theorem Context.exists_branch_of_leaks (h : ctx.Leaks (ctx.members f .blocks)) :
    ∃ b ∈ ctx.members f .blocks, ∃ i ∈ ctx.body b, ∃ x t, ctx.inst? i = some x ∧
      ctx.target? x = some t ∧ t ∉ ctx.members f .blocks := by
  obtain ⟨n, hn, -, i, hi, t, ht, hout⟩ := h
  obtain ⟨b, hb, hnb⟩ := List.mem_flatMap.1 hn
  obtain ⟨x, hx, htarget⟩ := Option.bind_eq_some_iff.1 ht
  exact ⟨b, hb, i, mem_body_of_mem_node hnb hi, x, t, hx, htarget, hout⟩

/-- **The graph of a function that uses what is its own can be built**: where a
branch leads out of the function, it uses a block that is not its own. -/
theorem Context.SelfContained.not_leaks (h : Sound ctx)
    (hself : ctx.SelfContained Instruction.operands f) : ¬ctx.Leaks (ctx.members f .blocks) := by
  intro hleaks
  obtain ⟨b, hb, i, hi, x, t, hx, ht, hout⟩ := exists_branch_of_leaks hleaks
  obtain ⟨-, hlast, hkind⟩ := of_target? ht
  have hmem : t ∈ x.operands := List.mem_of_getLast? hlast
  have hparent : ctx.parent? t = some f := by
    refine hself b hb i hi x hx t hmem ?_
    rw [hkind]
    rfl
  obtain ⟨list, hlist⟩ := h.membered.listed hparent
  have hblocks : list = .blocks := by
    refine MemberList.eq_blocks (Option.some.inj ?_)
    rw [← h.membered.kind hlist]
    exact hkind
  exact hout (hblocks ▸ hlist)

namespace Edit

/-- **Optimizing a function** trims it: the instructions that are gone are the
copies of a local to itself and the dead ones that it counts. It fails only if
the function uses what is not its own. -/
theorem ensures_optimizeFunction (h : Sound ctx) (hf : ctx.ownsValue f)
    (options : OptimizerOptions) :
    (optimizeFunction f options).Ensures
      (fun s c => s.function = ctx.nameOf f ∧ ctx.Trims f (s.selfCopies + s.dead) c)
      (fun _ c => (∃ n, ctx.Trims f n c) ∧ ¬ctx.SelfContained Instruction.operands f) ctx := by
  obtain ⟨x, hx⟩ := Option.isSome_iff_exists.1 hf
  have hmembers : x.members .blocks = ctx.members f .blocks := (members_of_value? hx .blocks).symm
  have hname : x.label = ctx.nameOf f := by
    rw [nameOf, hx]
    rfl
  rw [optimizeFunction]
  simp only [ensures_bind, ensures_context, ensures_liftM, read_eq_ok.2 hx, Except.ok.injEq,
    forall_eq', reduceCtorEq, false_implies, implies_true, and_true, hmembers]
  refine (trimming_copyStage h options fun hself => hself).imp (fun copies c hc => ?_)
    fun _ _ hc => hc
  have hsound := hc.sound h
  have howned : c.ownsValue f := by
    rw [(hc.trimmed h).sameMembers.ownsValue]
    exact hf
  simp only [ensures_liftM_report]
  refine ⟨fun g hg => ⟨fun l hl => ?_, fun fault hfault => ?_⟩, fun fault hfault => ?_⟩
  · simp only [ensures_note, ensures_pure]
    refine ((trimming_deadStage hsound options howned).since hc).imp (fun dead c' hc' => ?_)
      fun _ _ hc' => hc'
    exact ⟨hname, hc'⟩
  · obtain ⟨l, hl⟩ := exists_analyze hsound hg options.traceLiveness
    rw [hl] at hfault
    cases hfault
  · refine ⟨⟨_, hc⟩, fun hself => ?_⟩
    rcases FlowGraph.build_cases hsound howned with ⟨g, hg, -⟩ | ⟨hleaks, -⟩
    · rw [hg] at hfault
      cases hfault
    · exact (hc.selfContained h operandLocal_operands hself).not_leaks hsound hleaks

end Edit

/-- **A function that uses what is its own can always be optimized.** Its graph
can be built, and with every choice of options the optimizer succeeds and leaves
a function that uses what is its own. So it is whether only the operands of an
instruction count as used or its results as well. For any handle, the graph is
built or refused because a branch of the function leads to a block that is not
of the function; only a handle of another context is misused. -/
theorem optimizeFunction_accepts_selfContained {ctx : Context} (reachable : Reachable ctx) :
    (∀ f, ctx.kind? f = some .function →
      ∀ used ∈ [Instruction.operands, Instruction.references], ctx.SelfContained used f →
        (∃ g, (FlowGraph.build ctx f).outcome = .ok g) ∧
        ∀ options, ∃ statistics,
          ((Edit.optimizeFunction f options).run ctx).outcome = .ok statistics ∧
          ((Edit.optimizeFunction f options).run ctx).context.SelfContained used f) ∧
    ∀ f, (∃ g, (FlowGraph.build ctx f).outcome = .ok g) ∨
      (∃ cause, (FlowGraph.build ctx f).outcome = .error (.refused cause) ∧
        cause.kind = .unresolvedControlFlow ∧
        ∃ b ∈ ctx.members f .blocks, ∃ i ∈ ctx.body b, ∃ x t, ctx.inst? i = some x ∧
          x.opcode = .br ∧ ctx.target? x = some t ∧ t ∉ ctx.members f .blocks) ∨
      ((FlowGraph.build ctx f).outcome = .error .misuse ∧ ¬ctx.ownsValue f) := by
  have h := reachable.sound
  refine ⟨fun f hkind used hused hself => ?_, fun f => ?_⟩
  · have hf := ownsValue_of_kind? hkind
    have hlocal : OperandLocal used := by
      rcases List.mem_pair.1 hused with rfl | rfl
      · exact operandLocal_operands
      · exact operandLocal_references
    have hoperands : ctx.SelfContained Instruction.operands f := by
      rcases List.mem_pair.1 hused with rfl | rfl
      · exact hself
      · exact fun b hb i hi x hx v hv =>
          hself b hb i hi x hx v (List.mem_append_right x.results hv)
    refine ⟨?_, fun options => ?_⟩
    · rcases FlowGraph.build_cases h hf with ⟨g, hg, -⟩ | ⟨hleaks, -⟩
      · exact ⟨g, hg⟩
      · exact absurd hleaks (hoperands.not_leaks h)
    · have hrun := (Edit.ensures_optimizeFunction h hf options).imp (fun _ _ hc => hc)
        fun _ _ hfails => hfails.2 hoperands
      obtain ⟨statistics, hok, -, htrims⟩ := hrun.exists_ok
      exact ⟨statistics, hok, htrims.selfContained h hlocal hself⟩
  · by_cases hf : ctx.ownsValue f
    · rcases FlowGraph.build_cases h hf with ⟨g, hg, -⟩ | ⟨hleaks, fault, hfault, cause, rfl, hc⟩
      · exact .inl ⟨g, hg⟩
      · obtain ⟨b, hb, i, hi, x, t, hx, ht, hout⟩ := exists_branch_of_leaks hleaks
        exact .inr (.inl ⟨cause, hfault, hc, b, hb, i, hi, x, t, hx, (of_target? ht).1, ht, hout⟩)
    · refine .inr (.inr ⟨?_, hf⟩)
      have hvalue : ctx.value? f = none := by simpa [ownsValue] using hf
      unfold FlowGraph.build Context.read
      rw [hvalue]
      rfl

/-- A function with a loop: the first block copies `x` to `y`, and the second
adds `y` to itself and branches back to its own start while the sum is not
zero. -/
def copyIntoLoop : Context :=
  Operation.runAll
    [.createFunction true "f" none, .createLocal "x" (some ⟨0, 0⟩), .createLocal "y" (some ⟨0, 0⟩),
      .createBlock "a" (some ⟨0, 0⟩) none, .createBlock "b" (some ⟨0, 0⟩) none,
      .createForm (.assign ⟨0, 2⟩ ⟨0, 1⟩) (.atEnd ⟨0, 3⟩),
      .createForm (.binary .add ⟨0, 2⟩ ⟨0, 2⟩ ⟨0, 2⟩) (.atEnd ⟨0, 4⟩),
      .createForm (.branch ⟨0, 2⟩ ⟨0, 4⟩) (.atEnd ⟨0, 4⟩)] { id := 0 }

/-- It uses what is its own before and after it is optimized, also with all
notes on the way. -/
theorem optimizeFunction_accepts_selfContained_copyIntoLoop :
    Reachable copyIntoLoop ∧ copyIntoLoop.SelfContained Instruction.references ⟨0, 0⟩ ∧
    (∃ g, (FlowGraph.build copyIntoLoop ⟨0, 0⟩).outcome = .ok g) ∧
    ∃ statistics, ((Edit.optimizeFunction ⟨0, 0⟩ ⟨true, true, true⟩).run copyIntoLoop).outcome =
        .ok statistics ∧
      ((Edit.optimizeFunction ⟨0, 0⟩ ⟨true, true, true⟩).run copyIntoLoop).context.SelfContained
        Instruction.references ⟨0, 0⟩ := by
  have hreachable : Reachable copyIntoLoop := (Reachable.empty 0).runAll (by decide)
  have hself : copyIntoLoop.SelfContained Instruction.references ⟨0, 0⟩ := by decide +kernel
  obtain ⟨haccepts, -⟩ := optimizeFunction_accepts_selfContained hreachable
  obtain ⟨hbuilt, hoptimized⟩ := haccepts ⟨0, 0⟩ (by decide +kernel) Instruction.references
    (by simp) hself
  exact ⟨hreachable, hself, hbuilt, hoptimized ⟨true, true, true⟩⟩

end ContractIR
