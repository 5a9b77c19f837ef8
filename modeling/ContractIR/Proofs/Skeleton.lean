import ContractIR.Context.Name
/-!
# Skeletons

The skeleton of a value is what structural statements speak of: its kind,
its parent, its members and what it holds as a block. Names, symbol tables, flags, metadata
and addresses are left out, so that a change to one of those is seen at once
to change nothing structural. Every query about kinds, parents, members and
blocks is a query about skeletons.
-/

namespace ContractIR

/-- What a value is apart from its name and its attributes. -/
@[ext] structure Skeleton where
  /-- Its kind. -/
  kind : Kind
  /-- The contract or function it is a member of. -/
  parent : Option ValueId
  /-- Its members, list by list. -/
  members : MemberList → List ValueId
  /-- What it holds, if it is a block. -/
  block : Option BlockBody

namespace Value

/-- The skeleton of a value. -/
def skeleton (x : Value) : Skeleton := ⟨x.kind, x.parent, x.members, x.block?⟩

variable (x : Value)

@[simp] theorem skeleton_kind : x.skeleton.kind = x.kind := rfl

@[simp] theorem skeleton_parent : x.skeleton.parent = x.parent := rfl

@[simp] theorem skeleton_members : x.skeleton.members = x.members := rfl

@[simp] theorem skeleton_block : x.skeleton.block = x.block? := rfl

theorem skeleton_ext {x y : Value} (kind : x.kind = y.kind) (parent : x.parent = y.parent)
    (members : ∀ list, x.members list = y.members list) (block : x.block? = y.block?) :
    x.skeleton = y.skeleton :=
  Skeleton.ext kind parent (funext members) block

@[simp] theorem skeleton_mapSymbols (f : SymbolTable → SymbolTable) :
    (x.mapSymbols f).skeleton = x.skeleton :=
  skeleton_ext (kind_mapSymbols x f) (parent_mapSymbols x f) (members_mapSymbols x f)
    (block?_mapSymbols x f)

@[simp] theorem skeleton_name (name : Option String) :
    ({ x with name } : Value).skeleton = x.skeleton := rfl

/-- Only owners of the right kind keep a list. -/
theorem kind_of_mem_members {list : MemberList} {v : ValueId} (h : v ∈ x.members list) :
    x.kind = list.ownerKind := by
  obtain ⟨payload, name, parent⟩ := x
  cases payload <;> cases list <;> first | rfl | exact absurd h List.not_mem_nil

/-- Only blocks hold instructions. -/
theorem block?_isSome_iff : x.block?.isSome ↔ x.kind = .block := by
  obtain ⟨payload, name, parent⟩ := x
  cases payload <;> simp [block?, kind, Payload.kind]

theorem members_mapBlock (f : BlockBody → BlockBody) : (x.mapBlock f).members = x.members := by
  obtain ⟨payload, name, parent⟩ := x
  cases payload <;> rfl

theorem parent_mapBlock (f : BlockBody → BlockBody) : (x.mapBlock f).parent = x.parent := by
  obtain ⟨payload, name, parent⟩ := x
  cases payload <;> rfl

end Value

namespace Context

variable (ctx : Context)

/-- The skeleton of a value, if the context holds it. -/
def skeleton? (v : ValueId) : Option Skeleton := (ctx.value? v).map Value.skeleton

theorem kind?_eq (v : ValueId) : ctx.kind? v = (ctx.skeleton? v).map Skeleton.kind := by
  simp [kind?, skeleton?, Function.comp_def]

theorem parent?_eq (v : ValueId) : ctx.parent? v = (ctx.skeleton? v).bind Skeleton.parent := by
  simp only [parent?, skeleton?]
  cases ctx.value? v <;> rfl

theorem members_eq (v : ValueId) (list : MemberList) :
    ctx.members v list = ((ctx.skeleton? v).map fun s => s.members list).getD [] := by
  simp [members, skeleton?, Function.comp_def]

theorem block_eq (v : ValueId) :
    ctx.block v = ((ctx.skeleton? v).bind Skeleton.block).getD {} := by
  simp only [block, skeleton?]
  cases ctx.value? v <;> rfl

variable {ctx} {ctx' : Context}

/-- Contexts with the same skeletons answer the same about kinds. -/
theorem kind?_congr (h : ctx'.skeleton? = ctx.skeleton?) : ctx'.kind? = ctx.kind? := by
  funext v
  rw [kind?_eq, kind?_eq, h]

theorem parent?_congr (h : ctx'.skeleton? = ctx.skeleton?) : ctx'.parent? = ctx.parent? := by
  funext v
  rw [parent?_eq, parent?_eq, h]

theorem members_congr (h : ctx'.skeleton? = ctx.skeleton?) : ctx'.members = ctx.members := by
  funext v list
  rw [members_eq, members_eq, h]

theorem block_congr (h : ctx'.skeleton? = ctx.skeleton?) : ctx'.block = ctx.block := by
  funext v
  rw [block_eq, block_eq, h]

/-- Bodies are read off blocks. -/
theorem body_of_block (h : ctx'.block = ctx.block) : ctx'.body = ctx.body := by
  funext v
  rw [body, body, h]

theorem body_congr (h : ctx'.skeleton? = ctx.skeleton?) : ctx'.body = ctx.body :=
  body_of_block (block_congr h)

/-! ## How changes show in the skeletons -/

/-- A change to names or attributes does not show. -/
theorem skeleton?_update_of_keeps {v : ValueId} {f : Value → Value}
    (h : ∀ x, (f x).skeleton = x.skeleton) : (ctx.update v f).skeleton? = ctx.skeleton? := by
  funext w
  simp only [skeleton?, value?_update]
  split
  · cases ctx.value? w <;> simp [h]
  · rfl

theorem kind?_update_of_keeps {v : ValueId} {f : Value → Value} (h : ∀ x, (f x).kind = x.kind) :
    (ctx.update v f).kind? = ctx.kind? := by
  funext w
  simp only [kind?, value?_update]
  split
  · cases ctx.value? w <;> simp [h]
  · rfl

theorem parent?_update_of_keeps {v : ValueId} {f : Value → Value}
    (h : ∀ x, (f x).parent = x.parent) :
    (ctx.update v f).parent? = ctx.parent? := by
  funext w
  simp only [parent?, value?_update]
  split
  · cases ctx.value? w <;> simp [h]
  · rfl

theorem members_update_of_keeps {v : ValueId} {f : Value → Value}
    (h : ∀ x, (f x).members = x.members) :
    (ctx.update v f).members = ctx.members := by
  funext w l
  simp only [members, value?_update]
  split
  · cases ctx.value? w <;> simp [h]
  · rfl

@[simp] theorem skeleton?_updateCell {i : InstId} {f : Cell → Option Cell} :
    (ctx.updateCell i f).skeleton? = ctx.skeleton? := by
  funext v
  simp [skeleton?]

@[simp] theorem skeleton?_updateInst {i : InstId} {f : Instruction → Instruction} :
    (ctx.updateInst i f).skeleton? = ctx.skeleton? :=
  skeleton?_updateCell

@[simp] theorem skeleton?_pushInst {x : Option Instruction} :
    (ctx.pushInst x).skeleton? = ctx.skeleton? := rfl

theorem value?_eq_none_of_nextValue : ctx.value? ctx.nextValue = none := by
  simp [value?, nextValue]

@[simp] theorem cell?_empty {id : ContextId} {i : InstId} : ({ id } : Context).cell? i = none := by
  simp [cell?]

@[simp] theorem inst?_empty {id : ContextId} {i : InstId} : ({ id } : Context).inst? i = none := by
  simp [inst?]

theorem cell?_nextInst : ctx.cell? ctx.nextInst = none := by
  simp [cell?, nextInst]

theorem inst?_nextInst : ctx.inst? ctx.nextInst = none := by
  rw [inst?, cell?_nextInst]
  rfl

theorem cell?_pushInst {x : Option Instruction} {i : InstId} :
    (ctx.pushInst x).cell? i =
      if i = ctx.nextInst then x.map fun x => { instruction := x } else ctx.cell? i := by
  obtain ⟨ic, ii⟩ := i
  by_cases hi : ic = ctx.id
  · subst hi
    by_cases h : ii = ctx.instructions.size
    · subst h
      simp [pushInst, cell?, nextInst]
    · simp [pushInst, cell?, nextInst, h, Array.getElem?_push]
  · simp [pushInst, cell?, nextInst, hi]

theorem inst?_pushInst {x : Option Instruction} {i : InstId} :
    (ctx.pushInst x).inst? i = if i = ctx.nextInst then x else ctx.inst? i := by
  rw [inst?, inst?, cell?_pushInst]
  split
  · cases x <;> rfl
  · rfl

end Context

/-! ## Contexts with the same members

Placing, removing and changing instructions leaves all kinds, parents and
members as they are. -/

/-- Kinds, parents and members are the same in both contexts. -/
structure Context.SameMembers (ctx' ctx : Context) : Prop where
  kind : ctx'.kind? = ctx.kind?
  parent : ctx'.parent? = ctx.parent?
  members : ctx'.members = ctx.members

namespace Context.SameMembers

variable {ctx ctx' ctx'' : Context}

theorem refl (ctx : Context) : SameMembers ctx ctx := ⟨rfl, rfl, rfl⟩

theorem trans (h : SameMembers ctx'' ctx') (h' : SameMembers ctx' ctx) : SameMembers ctx'' ctx :=
  ⟨h.kind.trans h'.kind, h.parent.trans h'.parent, h.members.trans h'.members⟩

theorem of_skeleton (h : ctx'.skeleton? = ctx.skeleton?) : SameMembers ctx' ctx :=
  ⟨kind?_congr h, parent?_congr h, members_congr h⟩

theorem ownsValue (h : SameMembers ctx' ctx) : ctx'.ownsValue = ctx.ownsValue := by
  funext v
  have hkind := congrArg Option.isSome (congrFun h.kind v)
  rw [kind?, kind?, Option.isSome_map, Option.isSome_map] at hkind
  exact hkind

/-- A change to what a block holds is none to members. -/
theorem update_mapBlock {b : ValueId} {f : BlockBody → BlockBody} :
    SameMembers (ctx.update b fun x => x.mapBlock f) ctx :=
  ⟨kind?_update_of_keeps fun x => x.kind_mapBlock f,
    parent?_update_of_keeps fun x => x.parent_mapBlock f,
    members_update_of_keeps fun x => x.members_mapBlock f⟩

end Context.SameMembers

end ContractIR
