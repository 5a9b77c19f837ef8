import ContractIR.Proofs.Evolution
/-!
# Attributes of values

Most of what happens to a context moves values around: they get another name
or another owner, and something else is listed in them. Whatever can be told
of a value without its name, its parent, its members, its table and its
instructions is an attribute, such as the integer of a constant or the address
of a storage slot. An attribute shows a change only where a value is created
or where attributes are set (`Change.attribute_cases`).
-/

namespace ContractIR

variable {γ : Type} {g : Value → γ}

/-- **An attribute of values**: moving them around does not change it. -/
structure Value.Attribute (g : Value → γ) : Prop where
  name : ∀ (x : Value) (n : Option String), g { x with name := n } = g x
  parent : ∀ (x : Value) (p : Option ValueId), g { x with parent := p } = g x
  symbols : ∀ (x : Value) (f : SymbolTable → SymbolTable), g (x.mapSymbols f) = g x
  members : ∀ (x : Value) (list : MemberList) (vs : List ValueId), g (x.setMembers list vs) = g x
  block : ∀ (x : Value) (f : BlockBody → BlockBody), g (x.mapBlock f) = g x

namespace Context

/-- An attribute of a value that the context holds. -/
def attribute? (g : Value → γ) (ctx : Context) (v : ValueId) : Option γ := (ctx.value? v).map g

variable {ctx ctx' : Context} {v owner : ValueId} {i : InstId} {list : MemberList}

theorem attribute?_update {f : Value → Value} (h : ∀ x, g (f x) = g x) :
    (ctx.update v f).attribute? g = ctx.attribute? g := by
  funext w
  simp only [attribute?, value?_update]
  split
  · cases ctx.value? w <;> simp [h]
  · rfl

theorem attribute?_updateCell {f : Cell → Option Cell} :
    (ctx.updateCell i f).attribute? g = ctx.attribute? g := by
  funext w
  rw [attribute?, attribute?, value?_updateCell]

theorem attribute?_relinks (hg : Value.Attribute g) (h : Relinks ctx ctx') :
    ctx'.attribute? g = ctx.attribute? g := by
  induction h with
  | refl => rfl
  | ends _ _ ih => exact (attribute?_update fun x => hg.block x _).trans ih
  | neighbours _ _ ih => exact attribute?_updateCell.trans ih

theorem attribute?_left (hg : Value.Attribute g) {name : Option String} :
    (ctx.left owner v name).attribute? g = ctx.attribute? g := by
  cases name with
  | none => rfl
  | some name => exact attribute?_update fun x => hg.symbols x _

theorem attribute?_labelled (hg : Value.Attribute g) {name : Option String} :
    (ctx.labelled v name).attribute? g = ctx.attribute? g :=
  attribute?_update fun x => hg.name x name

theorem attribute?_entered (hg : Value.Attribute g) {name : String} {isGlobal : Bool} :
    (ctx.entered owner v name isGlobal).attribute? g = ctx.attribute? g :=
  attribute?_update fun x => hg.symbols x _

theorem attribute?_adopted (hg : Value.Attribute g) :
    (ctx.adopted owner v).attribute? g = ctx.attribute? g := by
  unfold adopted
  split
  · rfl
  · split
    · rfl
    · rw [attribute?_labelled hg, attribute?_entered hg]

theorem attribute?_renamed (hg : Value.Attribute g) {x : Value} {name : String} :
    (ctx.renamed v x name).attribute? g = ctx.attribute? g := by
  unfold renamed
  split
  · exact attribute?_labelled hg
  · split
    · rw [attribute?_labelled hg, attribute?_left hg]
    · rw [attribute?_labelled hg, attribute?_entered hg, attribute?_left hg]

theorem attribute?_withMembers (hg : Value.Attribute g) {vs : List ValueId} :
    (ctx.withMembers owner list vs).attribute? g = ctx.attribute? g :=
  attribute?_update fun x => hg.members x list vs

theorem attribute?_withParent (hg : Value.Attribute g) {parent : Option ValueId} :
    (ctx.withParent v parent).attribute? g = ctx.attribute? g :=
  attribute?_update fun x => hg.parent x parent

theorem attribute?_leftAll (hg : Value.Attribute g) {vs : List ValueId} :
    ∀ {ctx : Context}, (leftAll owner vs ctx).attribute? g = ctx.attribute? g := by
  induction vs with
  | nil => intro ctx; rfl
  | cons v vs ih =>
    intro ctx
    rw [leftAll, ih, attribute?_left hg]

theorem attribute?_adoptedAll (hg : Value.Attribute g) {vs : List ValueId} :
    ∀ {ctx : Context}, (adoptedAll owner vs ctx).attribute? g = ctx.attribute? g := by
  induction vs with
  | nil => intro ctx; rfl
  | cons v vs ih =>
    intro ctx
    rw [adoptedAll, ih, attribute?_adopted hg, attribute?_withParent hg]

theorem attribute?_placed (hg : Value.Attribute g) {k : Nat} :
    (ctx.placed i v k).attribute? g = ctx.attribute? g :=
  (attribute?_relinks hg (relinks_link _)).trans
    (attribute?_updateCell.trans (attribute?_update fun x => hg.block x _))

theorem attribute?_unplaced (hg : Value.Attribute g) :
    (ctx.unplaced i v).attribute? g = ctx.attribute? g :=
  (attribute?_relinks hg relinks_unlink).trans
    (attribute?_updateCell.trans (attribute?_update fun x => hg.block x _))

/-- A new value has the attribute it was created with. -/
theorem attribute?_push {payload : Payload} {w : ValueId} :
    (ctx.push payload).attribute? g w =
      if w = ctx.nextValue then some (g { payload }) else ctx.attribute? g w := by
  rw [attribute?, value?_push]
  split <;> rfl

theorem attribute?_nextValue : ctx.attribute? g ctx.nextValue = none := by
  rw [attribute?, value?_eq_none_of_nextValue]
  rfl

end Context

open Context

/-- **How a change may show in an attribute**: not at all, by a new value or
constant, or because attributes were set. -/
inductive Change.Shows (g : Value → γ) (ctx ctx' : Context) : Prop
  | same : ctx'.attribute? g = ctx.attribute? g → ctx'.constants = ctx.constants →
      Shows g ctx ctx'
  | push {payload : Payload} : payload.Fresh → ctx' = ctx.push payload → Shows g ctx ctx'
  | intern (n : Int) (hex : Bool) : ctx' = (ctx.intern n hex).2 → Shows g ctx ctx'
  | annotate {v : ValueId} {f : Value → Value} : Value.AttributeChange f →
      (∀ x a, (f x).address? = some a → x.address? = some a ∨ ctx.ownsValue a) →
      ctx' = ctx.update v f → Shows g ctx ctx'

theorem Change.attribute_cases {ctx ctx' : Context} {taken : List ValueId}
    (hg : Value.Attribute g) (hc : Change ctx taken ctx') : Change.Shows g ctx ctx' := by
  cases hc with
  | intern n hex => exact .intern n hex rfl
  | push fresh => exact .push fresh rfl
  | enlist => exact .same rfl rfl
  | rename => exact .same (attribute?_renamed hg) Untouched.constants.renamed
  | attach =>
    refine .same ?_ Untouched.constants.attached
    rw [attached, attribute?_adopted hg, attribute?_withParent hg, attribute?_withMembers hg]
  | detach =>
    refine .same ?_ Untouched.constants.detached
    rw [detached, attribute?_withParent hg, attribute?_left hg, attribute?_withMembers hg]
  | transfer =>
    refine .same ?_ Untouched.constants.transferred
    rw [transferred, attribute?_adoptedAll hg, attribute?_withMembers hg, attribute?_leftAll hg,
      attribute?_withMembers hg]
  | annotate only addresses => exact .annotate only addresses rfl
  | waste | create => exact .same rfl rfl
  | place => exact .same (attribute?_placed hg) Untouched.constants.placed
  | move =>
    refine .same ((attribute?_placed hg).trans (attribute?_unplaced hg)) ?_
    exact Untouched.constants.placed.trans Untouched.constants.unplaced
  | unplace => exact .same (attribute?_unplaced hg) Untouched.constants.unplaced
  | destroy => exact .same attribute?_updateCell Untouched.constants.destroyed
  | setOperand => exact .same attribute?_updateCell Untouched.constants.withOperand

end ContractIR
