import ContractIR.Proofs.Reinsertion
/-!
# Creating a member in place

A member can be created in its owner's list, or without owner and put there
afterwards. The one way puts the value in while it has no name and then gives
it one; the other gives it the name first, which is entered when the value is
put in. Both leave the same context (`Context.created`), so they agree on the
spelling that a taken name ends up with and on the number this uses up.
-/

namespace ContractIR

namespace Context

variable {ctx : Context} {v p : ValueId} {list : MemberList} {x y : Value} {k : Nat}
variable {name : String}

/-- The context after a value was listed and got its parent, before its name
is entered. -/
def listed (ctx : Context) (p : ValueId) (list : MemberList) (v : ValueId) (k : Nat) : Context :=
  (ctx.withMembers p list (Sequence.splice k [v] (ctx.members p list))).withParent v (some p)

theorem value?_listed (hx : ctx.value? v = some x) (hne : v ≠ p) :
    (ctx.listed p list v k).value? v = some { x with parent := some p } := by
  rw [listed, withParent, value?_update, if_pos rfl, withMembers, value?_update, if_neg hne, hx]
  rfl

/-- For a value that has no name, that is all. -/
theorem attached_of_unnamed (hx : ctx.value? v = some x) (hnew : x.name = none) (hne : v ≠ p) :
    ctx.attached p list v k = ctx.listed p list v k := by
  change (ctx.listed p list v k).adopted p v = _
  rw [adopted, value?_listed hx hne]
  simp only [hnew]

/-- A value may get its name before it is listed. -/
theorem listed_labelled (hne : v ≠ p) :
    (ctx.labelled v (some name)).listed p list v k =
      (ctx.listed p list v k).labelled v (some name) := by
  rw [listed, listed, members_congr skeleton?_labelled]
  simp only [labelled, withMembers, withParent]
  rw [update_comm hne, update_update, update_update]
  rfl

/-- The last name that a value is given counts, whatever is entered in
between. -/
theorem labelled_entered_labelled {g : Bool} {used : String} (hne : v ≠ p) :
    ((ctx.labelled v (some used)).entered p v name g).labelled v
        (some (((ctx.labelled v (some used)).symbols p).enter name v g).1) =
      (ctx.entered p v name g).labelled v (some ((ctx.symbols p).enter name v g).1) := by
  rw [entered, entered, symbols_labelled]
  simp only [labelled]
  rw [update_comm hne, update_update]
  rfl

/-- **A name can be given before or after a value is put into a list.** -/
theorem renamed_attached (hx : ctx.value? v = some x) (hnew : x.name = none) (hne : v ≠ p)
    (howner : ctx.kind? p = some list.ownerKind) (hname : name ≠ "")
    (hy : (ctx.attached p list v k).value? v = some y) :
    (ctx.attached p list v k).renamed v y name =
      (ctx.labelled v (some name)).attached p list v k := by
  rw [attached_of_unnamed hx hnew hne] at hy ⊢
  obtain rfl : { x with parent := some p } = y :=
    Option.some.inj ((value?_listed hx hne).symm.trans hy)
  have htable : (ctx.listed p list v k).tableOwner? { x with parent := some p } = some p := by
    have hkind : (ctx.listed p list v k).kind? p = some list.ownerKind := by
      rw [listed, kind?_withParent, kind?_withMembers]
      exact howner
    simp [tableOwner?, hkind]
  have hlabelled : (ctx.labelled v (some name)).value? v = some { x with name := some name } := by
    rw [labelled, value?_update, if_pos rfl, hx]
    rfl
  calc (ctx.listed p list v k).renamed v { x with parent := some p } name
      = ((ctx.listed p list v k).entered p v name x.kind.isGlobalValue).labelled v
          (some (((ctx.listed p list v k).symbols p).enter name v x.kind.isGlobalValue).1) := by
        rw [renamed, htable]
        simp only [hname, if_false, hnew, left]
        rfl
    _ = (((ctx.listed p list v k).labelled v (some name)).entered p v name
          x.kind.isGlobalValue).labelled v
          (some ((((ctx.listed p list v k).labelled v (some name)).symbols p).enter name v
            x.kind.isGlobalValue).1) := (labelled_entered_labelled hne).symm
    _ = ((ctx.labelled v (some name)).listed p list v k).adopted p v := by
        rw [adopted, value?_listed hlabelled hne, listed_labelled hne]
        rfl

/-- The context after a member was created under a name and put into a list. -/
def created (ctx : Context) (payload : Payload) (list : MemberList) (name : String) (p : ValueId)
    (k : Nat) : Context :=
  ((ctx.push payload).labelled ctx.nextValue (if name = "" then none else some name)).attached p
    list ctx.nextValue k

/-- Where a member goes depends on its new owner alone. -/
theorem insertionIndex_of_value? {ctx' : Context} {before : Option ValueId}
    (hp : ctx'.value? p = ctx.value? p) (hk : ctx.insertionIndex p list before = .ok k) :
    ctx'.insertionIndex p list before = .ok k := by
  rw [insertionIndex_eq_ok, members, hp]
  exact insertionIndex_eq_ok.1 hk

end Context

namespace Edit

open Context

variable {ctx : Context} {payload : Payload} {list : MemberList} {name : String} {p : ValueId}
variable {before : Option ValueId} {k : Nat}

/-- The name of a value that was just created is stored as it is. -/
theorem ensures_setName_push {Q : Unit → Context → Prop} {E : Fault → Context → Prop}
    (fresh : payload.Fresh) (hname : checkName name = .ok ())
    (hQ : Q () ((ctx.push payload).labelled ctx.nextValue (if name = "" then none else some name))) :
    (setName ctx.nextValue name).Ensures Q E (ctx.push payload) := by
  have hnew : (ctx.push payload).value? ctx.nextValue = some { payload } := by
    rw [value?_push, if_pos rfl]
  refine ensures_setName_of_kind? kind?_push_nextValue fresh.kind_ne hname (fun x hx hsame => ?_)
    fun x hx _ => ?_
  · obtain rfl := Option.some.inj (hnew.symm.trans hx)
    obtain rfl : name = "" := hsame.symm
    rw [if_pos rfl, labelled, update_eq_self hnew rfl] at hQ
    exact hQ
  · obtain rfl := Option.some.inj (hnew.symm.trans hx)
    exact hQ

/-- **Creation without owner**: the value is there, under its name. -/
theorem ensures_createMember_loose {Q : ValueId → Context → Prop} {E : Fault → Context → Prop}
    (fresh : payload.Fresh) (hname : checkName name = .ok ())
    (hQ : Q ctx.nextValue
      ((ctx.push payload).labelled ctx.nextValue (if name = "" then none else some name))) :
    (createMember payload list name none none).Ensures Q E ctx := by
  unfold createMember
  refine .inspect (fun fault hfault => ?_) fun _ _ => ?_
  · rw [hname] at hfault
    cases hfault
  · simp only [ensures_bind, ensures_newValue, insertInto, ensures_pure]
    exact ensures_setName_push fresh hname hQ

section InPlace

variable (fresh : payload.Fresh) (hkind : payload.kind = list.memberKind)
variable (hflat : list ≠ .contracts) (hname : checkName name = .ok ())
variable (howner : ctx.kind? p = some list.ownerKind)
variable (hk : ctx.insertionIndex p list before = .ok k)

include fresh hkind hflat hname howner hk

/-- **Creation in place**: the value is put in first and named then. -/
theorem ensures_createMember :
    (createMember payload list name (some p) before).Ensures
      (fun v c => v = ctx.nextValue ∧ c = ctx.created payload list name p k) (fun _ _ => False)
      ctx := by
  have hnew : (ctx.push payload).value? ctx.nextValue = some { payload } := by
    rw [value?_push, if_pos rfl]
  have hne : ctx.nextValue ≠ p := (ne_nextValue (ownsValue_of_kind? howner)).symm
  have hold : (ctx.push payload).value? p = ctx.value? p := by
    rw [value?_push, if_neg hne.symm]
  have howner' : (ctx.push payload).kind? p = some list.ownerKind := kind?_push_of_kind? howner
  have hk' := insertionIndex_of_value? hold hk
  unfold createMember
  refine .inspect (fun fault hfault => ?_) fun _ _ => ?_
  · rw [hname] at hfault
    cases hfault
  simp only [ensures_bind, ensures_newValue, insertInto, ensures_pure]
  refine ensures_insertMember (fun fault hfault => ?_) fun o m j ho hm hok hmk hfree hadmits hj => ?_
  · rw [checkInsertion_of_fresh (m := { payload }) fresh hkind hflat howner' hnew rfl hk'] at hfault
    cases hfault
  · obtain rfl := Except.ok.inj (hk'.symm.trans hj)
    obtain rfl := Option.some.inj (hnew.symm.trans hm)
    have hattached : ((ctx.push payload).attached p list ctx.nextValue k).value? ctx.nextValue =
        some { payload, parent := some p } := by
      rw [attached_of_unnamed hnew rfl hne, value?_listed hnew hne]
    refine ensures_setName_of_kind? (kind?_of_value? hattached) fresh.kind_ne hname
      (fun y hy hsame => ⟨trivial, ?_⟩) fun y hy hother => ⟨trivial, ?_⟩
    · obtain rfl := Option.some.inj (hattached.symm.trans hy)
      obtain rfl : name = "" := hsame.symm
      rw [created, if_pos rfl, labelled, update_eq_self hnew rfl]
    · obtain rfl := Option.some.inj (hattached.symm.trans hy)
      have hempty : name ≠ "" := Ne.symm hother
      rw [renamed_attached hnew rfl hne howner' hempty hattached, created, if_neg hempty]

/-- **An insertion after creation without owner**: the name is there first. -/
theorem ensures_createMember_insertMember :
    (do
      let v ← createMember payload list name none none
      insertMember p list v before
      return v : Edit ValueId).Ensures
      (fun v c => v = ctx.nextValue ∧ c = ctx.created payload list name p k) (fun _ _ => False)
      ctx := by
  rw [ensures_bind]
  refine ensures_createMember_loose fresh hname ?_
  generalize hlabel : (if name = "" then none else some name : Option String) = label
  have hne : p ≠ ctx.nextValue := ne_nextValue (ownsValue_of_kind? howner)
  have hnew : ((ctx.push payload).labelled ctx.nextValue label).value? ctx.nextValue =
      some { payload, name := label } := by
    rw [labelled, value?_update, if_pos rfl, value?_push, if_pos rfl]
    rfl
  have hold : ((ctx.push payload).labelled ctx.nextValue label).value? p = ctx.value? p := by
    rw [labelled, value?_update, if_neg hne, value?_push, if_neg hne]
  have howner' : ((ctx.push payload).labelled ctx.nextValue label).kind? p =
      some list.ownerKind := by
    rw [kind?, hold]
    exact howner
  have hk' := insertionIndex_of_value? hold hk
  rw [ensures_bind]
  refine ensures_insertMember (fun fault hfault => ?_) fun o m j ho hm hok hmk hfree hadmits hj => ?_
  · rw [checkInsertion_of_fresh fresh hkind hflat howner' hnew rfl hk'] at hfault
    cases hfault
  · obtain rfl := Except.ok.inj (hk'.symm.trans hj)
    rw [created, hlabel]
    exact ⟨rfl, rfl⟩

end InPlace

end Edit

/-! ## The kinds of members -/

/-- **A member to be created**, with where it goes if that may be chosen. -/
inductive Creation
  /-- A function. -/
  | function (isPublic : Bool) (name : String)
  /-- A constructor. -/
  | initFunction
  /-- An entry point for deposits. -/
  | depositFunction (isPublic : Bool)
  /-- A storage slot. -/
  | global (name : String)
  /-- An argument. -/
  | argument (name : String)
  /-- A local variable. -/
  | localVariable (name : String)
  /-- A block, before another one or at the end. -/
  | block (name : String) (before : Option ValueId)
deriving DecidableEq, Repr

namespace Creation

/-- The name that is asked for. -/
def name : Creation → String
  | initFunction => "init"
  | depositFunction _ => "deposit"
  | function _ name | global name | argument name | localVariable name | block name _ => name

/-- The list that it goes to. -/
def list : Creation → MemberList
  | function .. | initFunction | depositFunction _ => .functions
  | global _ => .globals
  | argument _ => .arguments
  | localVariable _ => .locals
  | block .. => .blocks

/-- The member that it goes before, if not to the end. -/
def before : Creation → Option ValueId
  | block _ before => before
  | _ => none

/-- Creates it in its owner's list. -/
def inPlace (owner : ValueId) : Creation → Edit ValueId
  | function isPublic name => Edit.createFunction isPublic name (some owner)
  | initFunction => Edit.createInitFunction (some owner)
  | depositFunction isPublic => Edit.createDepositFunction isPublic (some owner)
  | global name => Edit.createGlobal name (some owner)
  | argument name => Edit.createArgument name (some owner)
  | localVariable name => Edit.createLocal name (some owner)
  | block name before => Edit.createBlock name (some owner) before

/-- Creates it without owner. -/
def loose : Creation → Edit ValueId
  | function isPublic name => Edit.createFunction isPublic name none
  | initFunction => Edit.createInitFunction none
  | depositFunction isPublic => Edit.createDepositFunction isPublic none
  | global name => Edit.createGlobal name none
  | argument name => Edit.createArgument name none
  | localVariable name => Edit.createLocal name none
  | block name _ => Edit.createBlock name none none

/-- Creates it without owner, and puts it into the owner's list then. -/
def thenInserted (owner : ValueId) (c : Creation) : Edit ValueId := do
  let v ← c.loose
  Edit.insertMember owner c.list v c.before
  return v

/-- What is created, before it has anything to it. -/
def payload : Creation → Payload
  | function isPublic _ => .function { isPublic }
  | initFunction => .function { isPublic := true, isInit := true }
  | depositFunction isPublic => .function { isPublic, isDeposit := true }
  | global _ => .global none
  | argument _ => .argument
  | localVariable _ => .localVariable
  | block .. => .block {}

variable (c : Creation) (owner : ValueId)

theorem inPlace_eq : c.inPlace owner =
    Edit.createMember c.payload c.list c.name (some owner) c.before := by
  cases c <;> rfl

theorem loose_eq : c.loose = Edit.createMember c.payload c.list c.name none none := by
  cases c <;> rfl

theorem fresh_payload : c.payload.Fresh := by
  cases c <;> constructor

theorem kind_payload : c.payload.kind = c.list.memberKind := by
  cases c <;> rfl

theorem list_ne_contracts : c.list ≠ .contracts := by
  cases c <;> nofun

end Creation

/-- **Creating a member in place is creating it without owner and putting it
there then.** Whatever kind of member it is, whether its name is free, taken or
empty, and wherever it goes, both ways succeed with the same handle and leave
the same context, down to the spelling of its name and the last number that
made a name unique. -/
theorem inPlace_eq_thenInserted {ctx : Context} (c : Creation) {owner : ValueId}
    (spelling : '\x00' ∉ c.name.toList) (owned : ctx.kind? owner = some c.list.ownerKind)
    (place : ∀ b ∈ c.before, b ∈ ctx.members owner c.list) :
    ((c.inPlace owner).run ctx).outcome = .ok ctx.nextValue ∧
      ((c.thenInserted owner).run ctx).outcome = .ok ctx.nextValue ∧
      ((c.inPlace owner).run ctx).context = ((c.thenInserted owner).run ctx).context := by
  have hname : Context.checkName c.name = .ok () := if_neg spelling
  obtain ⟨k, hk⟩ : ∃ k, ctx.insertionIndex owner c.list c.before = .ok k := by
    obtain ⟨k, hk⟩ := Sequence.exists_position?_iff.2 place
    exact ⟨k, Context.insertionIndex_eq_ok.2 hk⟩
  have hin := Edit.ensures_createMember c.fresh_payload c.kind_payload c.list_ne_contracts hname
    owned hk
  have hthen := Edit.ensures_createMember_insertMember c.fresh_payload c.kind_payload
    c.list_ne_contracts hname owned hk
  rw [← c.inPlace_eq] at hin
  rw [← c.loose_eq] at hthen
  obtain ⟨v, hv, rfl, hcontext⟩ := hin.exists_ok
  obtain ⟨w, hw, rfl, hcontext'⟩ := hthen.exists_ok
  exact ⟨hv, hw, hcontext.trans hcontext'.symm⟩

/-- A contract with the functions `f` and `f.1`. The first has a local `b`, from
which a block got the name `b1`. -/
def takenNames : Context :=
  Operation.runAll
    [.createContract "c", .createFunction true "f" (some ⟨0, 0⟩),
      .createFunction true "f.1" (some ⟨0, 0⟩), .createLocal "b" (some ⟨0, 1⟩),
      .createBlock "b" (some ⟨0, 1⟩) none] { id := 0 }

/-- Another function `f` is called `f.2` either way, and another block `b` gets
the name `b2`, before the one that is there. -/
theorem inPlace_eq_thenInserted_takenNames :
    takenNames.kind? ⟨0, 0⟩ = some .contract ∧ takenNames.kind? ⟨0, 1⟩ = some .function ∧
    ⟨0, 4⟩ ∈ takenNames.members ⟨0, 1⟩ .blocks ∧
    (let c := ((Creation.function false "f").thenInserted ⟨0, 0⟩).run takenNames
     c.outcome = .ok ⟨0, 5⟩ ∧ c.context.nameOf ⟨0, 5⟩ = "f.2") ∧
    (let c := ((Creation.block "b" (some ⟨0, 4⟩)).thenInserted ⟨0, 1⟩).run takenNames
     c.outcome = .ok ⟨0, 5⟩ ∧ c.context.nameOf ⟨0, 5⟩ = "b2" ∧
       c.context.members ⟨0, 1⟩ .blocks = [⟨0, 5⟩, ⟨0, 4⟩]) := by
  have hcontract : takenNames.kind? ⟨0, 0⟩ = some .contract := by decide +kernel
  have hfunction : takenNames.kind? ⟨0, 1⟩ = some .function := by decide +kernel
  have hblock : ⟨0, 4⟩ ∈ takenNames.members ⟨0, 1⟩ .blocks := by decide +kernel
  obtain ⟨-, hf, hcontext⟩ := inPlace_eq_thenInserted (.function false "f") (by decide) hcontract
    (by decide)
  obtain ⟨-, hb, hcontext'⟩ := inPlace_eq_thenInserted (.block "b" (some ⟨0, 4⟩)) (by decide)
    hfunction (fun b hb => Option.some.inj hb ▸ hblock)
  refine ⟨hcontract, hfunction, hblock, ⟨hf, ?_⟩, hb, ?_⟩
  · rw [← hcontext]
    decide +kernel
  · rw [← hcontext']
    decide +kernel

end ContractIR
