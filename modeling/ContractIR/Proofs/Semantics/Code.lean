import ContractIR.Proofs.Semantics.Machine
import ContractIR.Proofs.Shapes
/-!
# How edits change what runs

The optimizer replaces operands and erases instructions. Here is what either
does to the code of a block, and when a context runs like another one: its
functions have the same blocks, and every block does the same from every
store and state.
-/

namespace ContractIR

namespace Context

variable {ctx ctx' : Context} {b : ValueId} {i j : InstId} {is js : List InstId} {x : Instruction}

theorem codeOf_append : ctx.codeOf (is ++ js) = ctx.codeOf is ++ ctx.codeOf js :=
  List.filterMap_append

theorem codeOf_cons (h : ctx.inst? i = some x) : ctx.codeOf (i :: is) = x :: ctx.codeOf is := by
  rw [codeOf, List.filterMap_cons_some h]
  rfl

theorem codeOf_singleton (h : ctx.inst? i = some x) : ctx.codeOf [i] = [x] := codeOf_cons h

theorem codeOf_split (h : ctx.inst? i = some x) :
    ctx.codeOf (is ++ i :: js) = ctx.codeOf is ++ x :: ctx.codeOf js := by
  rw [codeOf_append, codeOf_cons h]

theorem codeOf_congr (h : ∀ j ∈ is, ctx'.inst? j = ctx.inst? j) : ctx'.codeOf is = ctx.codeOf is :=
  List.filterMap_congr h

/-- **One instruction has other operands**, and nothing else is different. -/
structure Rewritten (ctx' ctx : Context) (i : InstId) : Prop where
  same : SameMembers ctx' ctx
  body : ctx'.body = ctx.body
  others : ∀ j, j ≠ i → ctx'.inst? j = ctx.inst? j
  results : ∀ x', ctx'.inst? i = some x' → ∃ x, ctx.inst? i = some x ∧ x'.results = x.results

namespace Rewritten

theorem refl (ctx : Context) (i : InstId) : Rewritten ctx ctx i :=
  ⟨.refl ctx, rfl, fun _ _ => rfl, fun x hx => ⟨x, hx, rfl⟩⟩

theorem trans {ctx'' : Context} (h : Rewritten ctx'' ctx' i) (h' : Rewritten ctx' ctx i) :
    Rewritten ctx'' ctx i := by
  refine ⟨h.same.trans h'.same, h.body.trans h'.body,
    fun j hj => (h.others j hj).trans (h'.others j hj), fun x'' hx'' => ?_⟩
  obtain ⟨x', hx', hresults'⟩ := h.results x'' hx''
  obtain ⟨x, hx, hresults⟩ := h'.results x' hx'
  exact ⟨x, hx, hresults'.trans hresults⟩

theorem withOperand (hx : ctx.inst? i = some x) {k : Nat} {v : ValueId} :
    Rewritten (ctx.withOperand i k v) ctx i := by
  refine ⟨.withOperand, body_congr skeleton?_updateInst, fun j hj => ?_, fun x' hx' => ?_⟩
  · rw [inst?_withOperand hx, if_neg hj]
  · rw [inst?_withOperand hx, if_pos rfl] at hx'
    exact ⟨x, hx, by rw [← Option.some.inj hx']; rfl⟩

theorem codeOf_eq (h : Rewritten ctx' ctx i) (hi : i ∉ is) : ctx'.codeOf is = ctx.codeOf is :=
  codeOf_congr fun j hj => h.others j fun hji => hi (hji ▸ hj)

end Rewritten

/-- **Some instructions are gone**, and nothing else is different. -/
structure Without (ctx' ctx : Context) (gone : InstId → Bool) : Prop where
  same : SameMembers ctx' ctx
  body : ∀ b, ctx'.body b = (ctx.body b).filter fun j => !gone j
  inst : ∀ j, ctx'.inst? j = if gone j then none else ctx.inst? j

namespace Without

variable {gone gone' : InstId → Bool}

theorem refl (ctx : Context) (h : ∀ j, gone j = false) : Without ctx ctx gone := by
  refine ⟨.refl ctx, fun b => ?_, fun j => ?_⟩
  · rw [List.filter_eq_self.2 fun j _ => by rw [h j]; rfl]
  · rw [h j]
    rfl

theorem trans {ctx'' : Context} (h : Without ctx'' ctx' gone') (h' : Without ctx' ctx gone) :
    Without ctx'' ctx fun j => gone j || gone' j := by
  refine ⟨h.same.trans h'.same, fun b => ?_, fun j => ?_⟩
  · rw [h.body, h'.body, List.filter_filter]
    refine List.filter_congr fun j _ => ?_
    cases gone j <;> cases gone' j <;> rfl
  · rw [h.inst, h'.inst]
    cases gone j <;> cases gone' j <;> rfl

/-- Only the instructions that were there matter. -/
theorem congr (h : Without ctx' ctx gone) (ht : Threaded ctx)
    (hgone : ∀ j, (∃ x, ctx.inst? j = some x) → gone' j = gone j) : Without ctx' ctx gone' := by
  refine ⟨h.same, fun b => ?_, fun j => ?_⟩
  · rw [h.body]
    refine List.filter_congr fun j hj => ?_
    obtain ⟨x, hx, -⟩ := ht.live hj
    rw [hgone j ⟨x, hx⟩]
  · rw [h.inst]
    cases hj : ctx.inst? j with
    | none => rw [ite_self, ite_self]
    | some x => rw [hgone j ⟨x, hj⟩]

/-- What is left of a block is its code without what is gone. -/
theorem code_eq (h : Without ctx' ctx gone) (b : ValueId) :
    ctx'.code b = ctx.codeOf ((ctx.body b).filter fun j => !gone j) := by
  rw [code, h.body]
  refine codeOf_congr fun j hj => ?_
  have hstays : gone j = false := by simpa using (List.mem_filter.1 hj).2
  rw [h.inst, hstays]
  rfl

end Without

end Context

open Context

variable {ctx ctx' : Context} {b : ValueId} {i : InstId} {x : Instruction}

/-- An instruction stands once in one block. -/
theorem Threaded.split (h : Threaded ctx) {is js : List InstId} (hb : ctx.body b = is ++ i :: js) :
    i ∉ is ∧ i ∉ js ∧ ∀ c, i ∈ ctx.body c → c = b := by
  obtain ⟨hfront, x, hx, hblock⟩ := h.once hb
  have hnodup := h.nodup b
  rw [hb] at hnodup
  have hback := (List.nodup_cons.1 (List.nodup_append.1 hnodup).2.1).1
  refine ⟨hfront, hback, fun c hc => ?_⟩
  rw [h.mem_iff, blockOf?_of_live hx, hblock] at hc
  exact (Option.some.inj hc).symm

/-- Leaving out an instruction leaves what stands around it. -/
theorem Threaded.filter_eq (h : Threaded ctx) {is js : List InstId}
    (hb : ctx.body b = is ++ i :: js) (c : ValueId) :
    (ctx.body c).filter (fun j => !decide (j = i)) = if c = b then is ++ js else ctx.body c := by
  obtain ⟨hfront, hback, honly⟩ := h.split hb
  have hkept : ∀ {js : List InstId}, i ∉ js → js.filter (fun j => !decide (j = i)) = js := by
    intro js hi
    refine List.filter_eq_self.2 fun j hj => ?_
    have hne : j ≠ i := fun hji => hi (hji ▸ hj)
    simp [hne]
  by_cases hc : c = b
  · rw [if_pos hc, hc, hb, List.filter_append, hkept hfront, List.filter_cons_of_neg (by simp),
      hkept hback]
  · rw [if_neg hc, hkept fun hi => hc (honly c hi)]

/-- An erased instruction is gone. -/
theorem Threaded.without_erased (h : Threaded ctx) (hx : ctx.inst? i = some x)
    (hb : x.block = some b) :
    Without ((ctx.unplaced i b).destroyed i) ctx fun j => decide (j = i) := by
  refine ⟨SameMembers.destroyed.trans .unplaced, fun c => ?_, fun j => ?_⟩
  · rw [body_destroyed, h.body_unplaced_eq_filter hx hb]
  · rw [inst?_destroyed, inst?_unplaced hx]
    by_cases hj : j = i <;> simp [hj]

theorem Sound.erased (h : Sound ctx) (hx : ctx.inst? i = some x) (hb : x.block = some b) :
    Sound ((ctx.unplaced i b).destroyed i) :=
  (h.step (.unplace hx hb)).step (.destroy (inst?_unplaced_self hx) rfl)

universe u v

variable {D : Type u} {E : Type v}

/-- **One context runs like another**: its owners have the same members, and
its blocks do the same. -/
structure Interpretation.Alike (M : Interpretation D E) (ctx' ctx : Context) : Prop where
  members : ctx'.members = ctx.members
  walk : ∀ b σ e, M.walk (ctx'.code b) σ e = M.walk (ctx.code b) σ e

namespace Interpretation.Alike

variable {M : Interpretation D E}

theorem refl (ctx : Context) : M.Alike ctx ctx := ⟨rfl, fun _ _ _ => rfl⟩

theorem trans {ctx'' : Context} (h : M.Alike ctx'' ctx') (h' : M.Alike ctx' ctx) :
    M.Alike ctx'' ctx :=
  ⟨h.members.trans h'.members, fun b σ e => (h.walk b σ e).trans (h'.walk b σ e)⟩

/-- **Then every function does the same.** -/
theorem run_eq (h : M.Alike ctx' ctx) (f : ValueId) (n : Nat) (σ : ValueId → D) (e : E) :
    M.run ctx' f n σ e = M.run ctx f n σ e := by
  have hfollow : ∀ blocks rest, M.follow ctx'.code blocks n rest σ e =
      M.follow ctx.code blocks n rest σ e := by
    intro blocks
    induction n generalizing σ e with
    | zero => intro rest; rfl
    | succ n ih =>
      intro rest
      cases rest with
      | nil => rfl
      | cons b rest => simp only [Interpretation.follow, h.walk, ih]
  rw [Interpretation.run, h.members]
  exact hfollow _ _

end Interpretation.Alike

end ContractIR
