import ContractIR.Context.Edit
/-!
# What an edit ensures

`Edit.Ensures Q E` says what holds once an edit was carried out: `Q` of its
result and the context it leaves, or `E` of the fault and that context. The
rules below take an edit apart along its `do` block, so a statement about an
edit turns into one about the checks it makes and the changes between them.
-/

namespace ContractIR

/-- Checks one after the other pass if each of them does. -/
theorem bind_eq_ok {ε α β : Type} {x : Except ε α} {f : α → Except ε β} {b : β} :
    x >>= f = .ok b ↔ ∃ a, x = .ok a ∧ f a = .ok b := by
  cases x with
  | error fault =>
    refine ⟨nofun, ?_⟩
    rintro ⟨a, ha, -⟩
    cases ha
  | ok a => exact ⟨fun h => ⟨a, rfl, h⟩, fun ⟨_, ha, h⟩ => Except.ok.inj ha ▸ h⟩

/-- Checks of the elements of a list pass if each of them does. -/
theorem forM_eq_ok {ε α : Type} {f : α → Except ε Unit} {l : List α} :
    l.forM f = .ok () ↔ ∀ a ∈ l, f a = .ok () := by
  induction l with
  | nil => exact ⟨fun _ a ha => absurd ha List.not_mem_nil, fun _ => rfl⟩
  | cons a l ih =>
    have hcons : (f a >>= fun _ => l.forM f) = .ok () ↔ f a = .ok () ∧ l.forM f = .ok () := by
      rw [bind_eq_ok]
      exact ⟨fun ⟨_, ha, hl⟩ => ⟨ha, hl⟩, fun ⟨ha, hl⟩ => ⟨(), ha, hl⟩⟩
    rw [List.forall_mem_cons, ← ih]
    exact hcons

/-- Checks one after the other end in a fault if one of them does and those
before it pass. -/
theorem bind_eq_error {ε α β : Type} {x : Except ε α} {f : α → Except ε β} {e : ε} :
    x >>= f = .error e ↔ x = .error e ∨ ∃ a, x = .ok a ∧ f a = .error e := by
  cases x with
  | error fault =>
    have hstop : (Except.error fault >>= f : Except ε β) = .error fault := rfl
    simp [hstop]
  | ok a =>
    refine ⟨fun h => .inr ⟨a, rfl, h⟩, ?_⟩
    rintro (h | ⟨_, ha, h⟩)
    · cases h
    · exact Except.ok.inj ha ▸ h

/-- The fault that checks of the elements of a list end in is one element's. -/
theorem exists_of_forM_eq_error {ε α : Type} {f : α → Except ε Unit} {e : ε} :
    ∀ {l : List α}, l.forM f = .error e → ∃ a ∈ l, f a = .error e
  | [], h => nomatch h
  | a :: l, h => by
    rcases bind_eq_error.1 (show (f a >>= fun _ => l.forM f) = .error e from h) with h | ⟨_, -, h⟩
    · exact ⟨a, List.mem_cons_self, h⟩
    · obtain ⟨b, hb, h⟩ := exists_of_forM_eq_error h
      exact ⟨b, List.mem_cons_of_mem a hb, h⟩

theorem map_eq_error {ε α β : Type} {f : α → β} {x : Except ε α} {e : ε} :
    x.map f = .error e ↔ x = .error e := by
  cases x <;> simp [Except.map]

theorem ok_bind {ε α β : Type} (a : α) (f : α → Except ε β) : (Except.ok a >>= f) = f a := rfl

namespace Edit

variable {α β : Type} {ctx : Context}

/-- **What holds after an edit**: `Q` if it has a result, `E` if it fails. -/
def Ensures (e : Edit α) (Q : α → Context → Prop) (E : Fault → Context → Prop)
    (ctx : Context) : Prop :=
  match (e.run ctx).outcome with
  | .ok a => Q a (e.run ctx).context
  | .error fault => E fault (e.run ctx).context

variable {Q : β → Context → Prop} {E : Fault → Context → Prop}

/-- One edit after another: the second starts where the first ends. -/
@[simp] theorem ensures_bind (e : Edit α) (f : α → Edit β) :
    (e >>= f).Ensures Q E ctx ↔ e.Ensures (fun a c => (f a).Ensures Q E c) E ctx := by
  unfold Ensures
  cases h : (e.run ctx).outcome with
  | ok a => rw [run_bind_of_ok h]
  | error fault => rw [run_bind_of_error h]

@[simp] theorem ensures_pure (b : β) : (pure b : Edit β).Ensures Q E ctx ↔ Q b ctx := Iff.rfl

@[simp] theorem ensures_context {Q : Context → Context → Prop} :
    context.Ensures Q E ctx ↔ Q ctx ctx := Iff.rfl

@[simp] theorem ensures_modify {Q : Unit → Context → Prop} (f : Context → Context) :
    (modify f).Ensures Q E ctx ↔ Q () (f ctx) := Iff.rfl

@[simp] theorem ensures_note {Q : Unit → Context → Prop} (e : Event) :
    (note e).Ensures Q E ctx ↔ Q () ctx := Iff.rfl

@[simp] theorem ensures_throw (fault : Fault) :
    (throw fault : Edit β).Ensures Q E ctx ↔ E fault ctx := Iff.rfl

@[simp] theorem ensures_refuse (c : Cause) :
    (refuse c : Edit β).Ensures Q E ctx ↔ E (.refused c) ctx := Iff.rfl

@[simp] theorem ensures_misuse : (misuse : Edit β).Ensures Q E ctx ↔ E .misuse ctx := Iff.rfl

/-- A check changes nothing: it passes with a value or it fails. -/
@[simp] theorem ensures_liftM (x : Except Fault β) :
    (liftM x : Edit β).Ensures Q E ctx ↔
      (∀ b, x = .ok b → Q b ctx) ∧ ∀ fault, x = .error fault → E fault ctx := by
  cases x with
  | ok b =>
    simp only [Except.ok.injEq, forall_eq', reduceCtorEq, false_implies, implies_true, and_true]
    exact Iff.rfl
  | error fault =>
    simp only [reduceCtorEq, false_implies, implies_true, Except.error.injEq, forall_eq', true_and]
    exact Iff.rfl

/-- A report changes nothing either. -/
@[simp] theorem ensures_liftM_report (r : Report β) :
    (liftM r : Edit β).Ensures Q E ctx ↔
      (∀ b, r.outcome = .ok b → Q b ctx) ∧ ∀ fault, r.outcome = .error fault → E fault ctx := by
  have h : (liftM r : Edit β).run ctx = ⟨r.outcome, ctx, r.events⟩ := rfl
  unfold Ensures
  rw [h]
  cases r.outcome <;> simp

/-- Changing the result of an edit changes nothing else. -/
@[simp] theorem ensures_map (f : α → β) (e : Edit α) :
    (f <$> e).Ensures Q E ctx ↔ e.Ensures (fun a c => Q (f a) c) E ctx := by
  unfold Ensures
  rw [run_map]
  cases (e.run ctx).outcome <;> exact Iff.rfl

/-- An edit that first looks at the context. -/
theorem Ensures.look {f : Context → Edit β} (h : (f ctx).Ensures Q E ctx) :
    (context >>= f).Ensures Q E ctx := h

/-- **An edit that first makes a check** fails and has changed nothing, or goes
on with what the check gave. -/
theorem Ensures.check {x : Except Fault α} {f : α → Edit β} (fails : ∀ fault, E fault ctx)
    (passes : ∀ a, x = .ok a → (f a).Ensures Q E ctx) :
    ((liftM x : Edit α) >>= f).Ensures Q E ctx := by
  rw [ensures_bind, ensures_liftM]
  exact ⟨passes, fun fault _ => fails fault⟩

/-- The same, where it matters which fault the check ends in. -/
theorem Ensures.inspect {x : Except Fault α} {f : α → Edit β}
    (fails : ∀ fault, x = .error fault → E fault ctx)
    (passes : ∀ a, x = .ok a → (f a).Ensures Q E ctx) :
    ((liftM x : Edit α) >>= f).Ensures Q E ctx := by
  rw [ensures_bind, ensures_liftM]
  exact ⟨passes, fails⟩

/-- Weaker statements hold as well. -/
theorem Ensures.imp {e : Edit β} {Q' : β → Context → Prop} {E' : Fault → Context → Prop}
    (h : e.Ensures Q E ctx) (hQ : ∀ b c, Q b c → Q' b c) (hE : ∀ fault c, E fault c → E' fault c) :
    e.Ensures Q' E' ctx := by
  unfold Ensures at h ⊢
  split <;> rename_i heq <;> rw [heq] at h
  · exact hQ _ _ h
  · exact hE _ _ h

/-- So they do where failures do not matter. -/
theorem Ensures.mono {e : Edit β} {Q' : β → Context → Prop}
    (h : e.Ensures Q (fun _ _ => True) ctx) (hQ : ∀ b c, Q b c → Q' b c) :
    e.Ensures Q' (fun _ _ => True) ctx :=
  h.imp hQ fun _ _ _ => trivial

/-- Two statements about an edit hold together. -/
theorem Ensures.and {e : Edit β} {Q' : β → Context → Prop} {E' : Fault → Context → Prop}
    (h : e.Ensures Q E ctx) (h' : e.Ensures Q' E' ctx) :
    e.Ensures (fun b c => Q b c ∧ Q' b c) (fun fault c => E fault c ∧ E' fault c) ctx := by
  unfold Ensures at h h' ⊢
  split <;> rename_i heq <;> rw [heq] at h h' <;> exact ⟨h, h'⟩

/-- What an edit ensures whichever way it ends holds of the context it
leaves. -/
theorem Ensures.context_of {e : Edit β} {P : Context → Prop}
    (h : e.Ensures (fun _ => P) (fun _ => P) ctx) : P (e.run ctx).context := by
  unfold Ensures at h
  split at h <;> exact h

/-- What an edit ensures holds of the context that its run leaves. -/
theorem Ensures.and_run {e : Edit β} (h : e.Ensures Q E ctx) :
    e.Ensures (fun b c => Q b c ∧ c = (e.run ctx).context) E ctx := by
  unfold Ensures at h ⊢
  split <;> rename_i heq <;> rw [heq] at h
  · exact ⟨h, rfl⟩
  · exact h

/-- An edit that cannot fail has a result. -/
theorem Ensures.exists_ok {e : Edit β} (h : e.Ensures Q (fun _ _ => False) ctx) :
    ∃ b, (e.run ctx).outcome = .ok b ∧ Q b (e.run ctx).context := by
  unfold Ensures at h
  split at h
  · exact ⟨_, ‹_›, h⟩
  · exact h.elim

/-- An edit that ends as a check does. -/
theorem Ensures.outcome_eq {e : Edit β} {x : Except Fault β}
    (h : e.Ensures (fun b _ => x = .ok b) (fun fault _ => x = .error fault) ctx) :
    (e.run ctx).outcome = x := by
  unfold Ensures at h
  split at h <;> rename_i heq <;> rw [heq, h]

/-- What an edit ensures of its results, read off a run that has one. -/
theorem Ensures.of_ok {e : Edit β} {b : β} (h : e.Ensures Q E ctx)
    (hok : (e.run ctx).outcome = .ok b) : Q b (e.run ctx).context := by
  unfold Ensures at h
  rw [hok] at h
  exact h

/-- What it ensures of its faults, read off a run that fails. -/
theorem Ensures.of_error {e : Edit β} {fault : Fault} (h : e.Ensures Q E ctx)
    (herror : (e.run ctx).outcome = .error fault) : E fault (e.run ctx).context := by
  unfold Ensures at h
  rw [herror] at h
  exact h

end Edit

end ContractIR
