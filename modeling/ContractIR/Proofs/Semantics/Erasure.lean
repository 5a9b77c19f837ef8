import ContractIR.Proofs.Semantics.DeadCode
import ContractIR.Proofs.Texts
/-!
# Which instructions are erased

Dead code elimination goes through the blocks of a function and erases one
dead instruction after the other. The sets it judges by were computed before,
so erasing one does not change how the others are judged: in the end those are
gone that were dead at the start, and nothing else is different. On the way
nothing can fail, since what is erased has a text and is in a block.
-/

namespace ContractIR

open Context

variable {ctx : Context} {l : Liveness} {i : InstId} {x : Instruction}

theorem Context.isDead_eq (hx : ctx.inst? i = some x) : ctx.isDead l i = .ok (ctx.erases l i) := by
  have hread := readInst_eq_ok.2 hx
  rw [isDead, hread, ok_bind, erases, hx, Option.any_some, Instruction.isQuiet]
  cases heffects : x.opcode.mayHaveSideEffects with
  | true => rfl
  | false =>
    cases hresults : x.results.isEmpty with
    | true => rfl
    | false =>
      simp only [Bool.or_self, Bool.false_eq_true, if_false, Bool.not_false, Bool.and_self,
        Bool.true_and]
      rw [Liveness.hasLiveResult]
      cases l.after? i with
      | none => simp [ok_bind, pure, Except.pure]
      | some live =>
        simp only [hread, ok_bind, Option.getD_some]
        rfl

namespace Edit

/-- An instruction that is in a block can be erased. -/
theorem ensures_eraseInst_of_placed {Q : Option InstId → Context → Prop} {b : ValueId}
    (hx : ctx.inst? i = some x) (hb : x.block = some b)
    (erases : Q (ctx.nextInst? i) ((ctx.unplaced i b).destroyed i)) :
    (eraseInst i).Ensures Q (fun _ _ => False) ctx := by
  unfold eraseInst unplace
  simp only [ensures_bind, ensures_context, ensures_liftM, ownInst_eq_ok.2 hx, Except.ok.injEq,
    forall_eq', reduceCtorEq, false_implies, implies_true, and_true, hb, ensures_modify,
    ensures_note, ensures_pure]
  exact erases

/-- **Erasing the dead ones** among some instructions leaves the others. -/
theorem ensures_eraseDead (h : Sound ctx) {js : List InstId} (hnodup : js.Nodup)
    (hplaced : ∀ j ∈ js, ∃ x b, ctx.inst? j = some x ∧ x.block = some b) :
    (eraseDead l js).Ensures
      (fun _ c => Sound c ∧ Without c ctx fun j => decide (j ∈ js) && ctx.erases l j)
      (fun _ _ => False) ctx := by
  induction js generalizing ctx with
  | nil => exact ⟨h, .refl ctx fun j => by simp⟩
  | cons i js ih =>
    obtain ⟨x, b, hx, hb⟩ := hplaced i List.mem_cons_self
    obtain ⟨hi, hjs⟩ := List.nodup_cons.1 hnodup
    rw [eraseDead]
    simp only [ensures_bind, ensures_context, ensures_liftM, isDead_eq hx, Except.ok.injEq,
      forall_eq', reduceCtorEq, false_implies, implies_true, and_true]
    split
    · rename_i herases
      obtain ⟨text, htext⟩ := exists_instText h.shaped hx
      simp only [ensures_bind, ensures_liftM, htext, Except.ok.injEq, forall_eq', reduceCtorEq,
        false_implies, implies_true, and_true, ensures_note, ensures_pure]
      refine ensures_eraseInst_of_placed hx hb ?_
      -- Erasing this one leaves the others to be judged as before.
      have hgone := h.threaded.without_erased hx hb
      have hsame : ∀ j, j ≠ i → ((ctx.unplaced i b).destroyed i).inst? j = ctx.inst? j := by
        intro j hj
        rw [hgone.inst, decide_eq_false hj]
        rfl
      have hne : ∀ j ∈ js, j ≠ i := fun j hj hji => hi (hji ▸ hj)
      refine (ih (h.erased hx hb) hjs fun j hj => ?_).imp (fun _ c hc => ⟨hc.1, ?_⟩)
        fun _ _ hfails => hfails
      · rw [hsame j (hne j hj)]
        exact hplaced j (List.mem_cons_of_mem i hj)
      · refine (hc.2.trans hgone).congr h.threaded fun j _ => ?_
        by_cases hj : j = i
        · subst hj
          simp [herases]
        · have herases' : ((ctx.unplaced i b).destroyed i).erases l j = ctx.erases l j := by
            rw [erases, erases, hsame j hj]
          simp [hj, herases']
    · rename_i hkeeps
      refine (ih h hjs fun j hj => hplaced j (List.mem_cons_of_mem i hj)).imp
        (fun _ c hc => ⟨hc.1, ?_⟩) fun _ _ hfails => hfails
      refine hc.2.congr h.threaded fun j _ => ?_
      by_cases hj : j = i
      · subst hj
        simp [hkeeps]
      · simp [hj]

/-- **Erasing the dead instructions** of some blocks leaves the others. -/
theorem ensures_eraseDeadIn (h : Sound ctx) {blocks : List ValueId}
    (hblocks : ∀ b ∈ blocks, ctx.kind? b = some .block) :
    (eraseDeadIn l blocks).Ensures
      (fun _ c => Sound c ∧
        Without c ctx fun j => decide (∃ b ∈ blocks, j ∈ ctx.body b) && ctx.erases l j)
      (fun _ _ => False) ctx := by
  induction blocks generalizing ctx with
  | nil => exact ⟨h, .refl ctx fun j => by simp⟩
  | cons b blocks ih =>
    have hread := readBody_eq_ok.2 ⟨hblocks b List.mem_cons_self, rfl⟩
    rw [eraseDeadIn]
    simp only [ensures_bind, ensures_context, ensures_liftM, ensures_pure, hread, Except.ok.injEq,
      forall_eq', reduceCtorEq, false_implies, implies_true, and_true]
    refine (ensures_eraseDead h (h.threaded.nodup b) fun j hj => ?_).imp (fun _ c hc => ?_)
      fun _ _ hfails => hfails
    · obtain ⟨x, hx, hb⟩ := h.threaded.live hj
      exact ⟨x, b, hx, hb⟩
    · obtain ⟨hsound, hhere⟩ := hc
      refine (ih hsound fun b' hb' => ?_).imp (fun _ c' hc' => ⟨hc'.1, ?_⟩)
        fun _ _ hfails => hfails
      · rw [hhere.same.kind]
        exact hblocks b' (List.mem_cons_of_mem b hb')
      refine (hc'.2.trans hhere).congr h.threaded fun j _ => ?_
      cases hj : decide (j ∈ ctx.body b) && ctx.erases l j with
      | true =>
        obtain ⟨hb, herases⟩ := Bool.and_eq_true _ _ ▸ hj
        simp [of_decide_eq_true hb, herases]
      | false =>
        -- The first block leaves the instruction, so the others find it as it was.
        have hinst : c.inst? j = ctx.inst? j := by
          rw [hhere.inst, hj]
          rfl
        have hbody : ∀ b', j ∈ c.body b' ↔ j ∈ ctx.body b' := by
          intro b'
          rw [hhere.body, List.mem_filter, hj]
          simp
        have herases : c.erases l j = ctx.erases l j := by
          rw [erases, erases, hinst]
        rw [Bool.false_or, herases]
        cases he : ctx.erases l j with
        | false => simp
        | true =>
          have hother : j ∉ ctx.body b := by simpa [he] using hj
          simp [hbody, hother]

/-- **Dead code elimination** erases the dead instructions of a function and
nothing else; only a handle of another context makes it fail. -/
theorem without_eliminateDeadCode (h : Sound ctx) {f : ValueId} :
    (eliminateDeadCode f l).Ensures
      (fun _ c => Sound c ∧ Without c ctx fun j =>
        decide (∃ b ∈ ctx.members f .blocks, j ∈ ctx.body b) && ctx.erases l j)
      (fun _ _ => ¬ctx.ownsValue f) ctx := by
  rw [eliminateDeadCode]
  simp only [ensures_bind, ensures_context, ensures_liftM]
  refine ⟨fun x hx => ?_, fun fault hfault hf => ?_⟩
  · have hkind : ∀ b ∈ ctx.members f .blocks, ctx.kind? b = some .block :=
      fun b hb => h.membered.kind hb
    rw [← Context.members_of_value? (read_eq_ok.1 hx)]
    exact (ensures_eraseDeadIn h hkind).imp (fun _ _ hc => hc) fun _ _ hfails => hfails.elim
  · obtain ⟨x, hx⟩ := Option.isSome_iff_exists.1 hf
    rw [read_eq_ok.2 hx] at hfault
    cases hfault

end Edit

end ContractIR
