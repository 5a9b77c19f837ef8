import Mathlib.Data.List.Perm.Subperm
import ContractIR.Proofs.Effect
/-!
# What an instruction may refer to

In a block of a function, an instruction may refer to locals, arguments and
blocks of that function only; in a block without a function it may refer to
anything. The checks of entries, operands, admissions and moves all come down
to `Context.Belongs`, which speaks of kinds and parents and nothing else.
-/

namespace ContractIR

namespace Context

/-- **A value that instructions of a function may refer to**: a local, an
argument or a block is a member of the function. -/
def Belongs (ctx : Context) (f v : ValueId) : Prop :=
  ∃ k, ctx.kind? v = some k ∧ (k.isFunctionLocal → ctx.parent? v = some f)

/-- **An instruction that a block can take**: all it refers to belongs to the
function of the block, if there is one. -/
def Admits (ctx : Context) (b : ValueId) (x : Instruction) : Prop :=
  ∀ f, ctx.parentOfKind? .function b = some f → ∀ v ∈ x.references, ctx.Belongs f v

variable {ctx ctx' : Context} {f b v source target : ValueId} {i : InstId} {x : Instruction}
variable {is : List InstId}

/-! ## What the checks tell -/

theorem checkMember_eq_ok {op : Opcode} : ctx.checkMember op f v = .ok () ↔ ctx.Belongs f v := by
  unfold checkMember
  rw [bind_eq_ok]
  constructor
  · rintro ⟨y, hy, h⟩
    have hy := read_eq_ok.1 hy
    split at h
    · cases h
    · rename_i hmember
      refine ⟨y.kind, kind?_of_value? hy, fun hlocal => ?_⟩
      rw [parent?_of_value? hy]
      exact Decidable.byContradiction fun hparent => hmember ⟨hlocal, hparent⟩
  · rintro ⟨k, hk, hmember⟩
    obtain ⟨y, hy, rfl⟩ := Option.map_eq_some_iff.1 hk
    refine ⟨y, read_eq_ok.2 hy, if_neg fun h => h.2 ?_⟩
    rw [← parent?_of_value? hy]
    exact hmember h.1

theorem checkReferences_eq_ok :
    ctx.checkReferences x f = .ok () ↔ ∀ v ∈ x.references, ctx.Belongs f v :=
  forM_eq_ok.trans (forall₂_congr fun _ _ => checkMember_eq_ok)

theorem checkEntry_eq_ok : ctx.checkEntry x b = .ok () ↔ ctx.Admits b x := by
  unfold checkEntry Admits
  cases ctx.parentOfKind? .function b with
  | none => exact ⟨fun _ _ => nofun, fun _ => rfl⟩
  | some f =>
    refine checkReferences_eq_ok.trans ⟨fun h g hg => ?_, fun h => h f rfl⟩
    exact Option.some.inj hg ▸ h

/-- A body that passes refers to nothing of another function. -/
theorem belongs_of_checkBody (h : ctx.checkBody is f = .ok ()) (hi : i ∈ is)
    (hx : ctx.inst? i = some x) : ∀ v ∈ x.references, ctx.Belongs f v := by
  obtain ⟨y, hy, hcheck⟩ := bind_eq_ok.1 (forM_eq_ok.1 h i hi)
  obtain rfl : y = x := Option.some.inj ((readInst_eq_ok.1 hy).symm.trans hx)
  exact checkReferences_eq_ok.1 hcheck

/-- A block that may enter a function refers to nothing of another one. -/
theorem belongs_of_checkAdmission (h : ctx.checkAdmission .blocks f b = .ok ())
    (hi : i ∈ ctx.body b) (hx : ctx.inst? i = some x) : ∀ v ∈ x.references, ctx.Belongs f v := by
  unfold checkAdmission at h
  rw [if_neg (by simp), if_pos rfl] at h
  obtain ⟨is, his, hcheck⟩ := bind_eq_ok.1 h
  rw [← (readBody_eq_ok.1 his).2] at hcheck
  exact belongs_of_checkBody hcheck hi hx

/-- A new operand of an instruction in a function belongs there. -/
theorem belongs_of_checkOperand {index : Nat} (h : ctx.checkOperand x index v = .ok ())
    (hf : x.block.bind (ctx.parentOfKind? .function) = some f) : ctx.Belongs f v := by
  unfold checkOperand at h
  split at h
  · cases h
  split at h
  · cases h
  rw [hf] at h
  exact checkMember_eq_ok.1 h

/-- An operand passes if there is one at the position, if it leaves the target
of a branch a block, and if it belongs to the function. -/
theorem checkOperand_of_belongs {index : Nat} (hindex : index < x.operands.length)
    (hlast : x.opcode = .br → index + 1 = x.operands.length → ctx.kind? v = some .block)
    (hbelongs : ∀ f, x.block.bind (ctx.parentOfKind? .function) = some f → ctx.Belongs f v) :
    ctx.checkOperand x index v = .ok () := by
  unfold checkOperand
  rw [if_neg (by omega), if_neg fun h => h.2.2 (hlast h.1 h.2.1)]
  cases hf : x.block.bind (ctx.parentOfKind? .function) with
  | none => rfl
  | some f => exact checkMember_eq_ok.2 (hbelongs f hf)

/-- Instructions that may be moved stay in their function, or may be in the
block they go to. -/
theorem of_checkMove (h : ctx.checkMove is source target = .ok ()) :
    ctx.parentOfKind? .function source = ctx.parentOfKind? .function target ∨
      ∀ i ∈ is, ∀ x, ctx.inst? i = some x → ctx.Admits target x := by
  unfold checkMove at h
  split at h
  · rename_i hnone
    refine .inr fun i _ x _ f hf => ?_
    rw [hnone] at hf
    cases hf
  · rename_i f hf
    split at h
    · rename_i hsame
      exact .inl (hsame.trans hf.symm)
    · refine .inr fun i hi x hx g hg => ?_
      obtain rfl : f = g := Option.some.inj (hf.symm.trans hg)
      exact belongs_of_checkBody h hi hx

/-! ## Only kinds and parents matter -/

namespace SameMembers

theorem parentOfKind? (h : SameMembers ctx' ctx) (k : Kind) (v : ValueId) :
    ctx'.parentOfKind? k v = ctx.parentOfKind? k v := by
  rw [Context.parentOfKind?, Context.parentOfKind?, h.parent, h.kind]

theorem belongs_iff (h : SameMembers ctx' ctx) : ctx'.Belongs f v ↔ ctx.Belongs f v := by
  rw [Belongs, Belongs, h.parent, h.kind]

theorem admits (h : SameMembers ctx' ctx) (hadmits : ctx.Admits b x) : ctx'.Admits b x := by
  intro f hf v hv
  rw [h.parentOfKind?] at hf
  exact h.belongs_iff.2 (hadmits f hf v hv)

end SameMembers

/-- Where an instruction is placed does not matter. -/
theorem Admits.of_references {y : Instruction} (h : ctx.Admits b x)
    (hreferences : y.references = x.references) : ctx.Admits b y := by
  intro f hf
  rw [hreferences]
  exact h f hf

/-! ## Runs of instructions -/

/-- **Instructions that may go to a block**: it can take each of them, or they
come from a block of its function. -/
def Transferable (ctx : Context) (is : List InstId) (target : ValueId) : Prop :=
  (∀ i ∈ is, ∀ x, ctx.inst? i = some x → ctx.Admits target x) ∨
    ∃ source, is.Subperm (ctx.body source) ∧
      ctx.parentOfKind? .function source = ctx.parentOfKind? .function target

theorem transferable_of_checkMove (h : ctx.checkMove is source target = .ok ())
    (his : is.Subperm (ctx.body source)) : ctx.Transferable is target := by
  rcases of_checkMove h with hsame | hadmits
  · exact .inr ⟨source, his, hsame⟩
  · exact .inl hadmits

/-- The first of them may go there. -/
theorem Transferable.head (h : ctx.Transferable (i :: is) target) (hx : ctx.inst? i = some x) :
    ctx.Admits target x ∨ ∃ source, i ∈ ctx.body source ∧
      ctx.parentOfKind? .function source = ctx.parentOfKind? .function target := by
  rcases h with hadmits | ⟨source, his, hsame⟩
  · exact .inl (hadmits i List.mem_cons_self x hx)
  · exact .inr ⟨source, his.subset List.mem_cons_self, hsame⟩

/-- A body without one instruction has the others. -/
theorem subperm_body_unplaced (h : (i :: is).Subperm (ctx.body source)) :
    is.Subperm ((ctx.unplaced i b).body source) := by
  have hothers : is.Subperm (ctx.body source) := (List.sublist_cons_self i is).subperm.trans h
  by_cases hkind : ctx.kind? b = some .block
  · rw [body_unplaced hkind]
    by_cases hsource : source = b
    · subst hsource
      rw [Function.update_self]
      have herased := h.erase i
      rwa [List.erase_cons_head] at herased
    · rw [Function.update_of_ne hsource]
      exact hothers
  · rw [unplaced, relinks_unlink.body, body_congr skeleton?_updateInst,
      body_update_setBody_of_ne hkind]
    exact hothers

theorem subperm_body_placed {k : Nat} (hkind : ctx.kind? b = some .block)
    (h : is.Subperm (ctx.body source)) : is.Subperm ((ctx.placed i b k).body source) := by
  rw [body_placed hkind]
  by_cases hsource : source = b
  · subst hsource
    rw [Function.update_self]
    exact h.trans (Sequence.sublist_splice k [i] _).subperm
  · rw [Function.update_of_ne hsource]
    exact h

/-- When the first of them is there, the others still may go. -/
theorem Transferable.tail (h : ctx.Transferable (i :: is) target) (hx : ctx.inst? i = some x)
    (hkind : ctx.kind? target = some .block) {k : Nat} :
    ((ctx.unplaced i b).placed i target k).Transferable is target := by
  have hsame : SameMembers ((ctx.unplaced i b).placed i target k) ctx :=
    SameMembers.placed.trans .unplaced
  rcases h with hadmits | ⟨source, his, hfunction⟩
  · refine .inl fun j hj y hy => hsame.admits ?_
    rw [inst?_moved hx] at hy
    split at hy
    · have hplaced := hadmits i List.mem_cons_self x hx
      exact hplaced.of_references (by rw [← Option.some.inj hy]; rfl)
    · exact hadmits j (List.mem_cons_of_mem i hj) y hy
  · refine .inr ⟨source, ?_, ?_⟩
    · refine subperm_body_placed ?_ (subperm_body_unplaced his)
      rw [SameMembers.unplaced.kind]
      exact hkind
    · rw [hsame.parentOfKind?, hsame.parentOfKind?]
      exact hfunction

end Context

end ContractIR
