import ContractIR.Context.Name
import ContractIR.Context.Placement
/-!
# Members

Contracts hold functions, storage slots and nested contracts; functions hold
arguments, local variables and blocks. Each list of members, the parents of
its members and the owner's symbol table change together: putting a value in
sets its parent and enters its name, taking it out undoes both, and moving a
run of members does the one for the old owner and the other for the new.

A contract never comes to lie inside itself, and a block enters a function
only if its instructions refer to nothing of another function.
-/

namespace ContractIR

namespace Context

variable (ctx : Context)

/-- Refuses foreign handles, and an owner or a member of the wrong kind for
the list. -/
def checkPair (owner : ValueId) (list : MemberList) (member : ValueId) : Except Fault Unit := do
  let o ← ctx.own owner
  let m ← ctx.own member
  if o.kind ≠ list.ownerKind ∨ m.kind ≠ list.memberKind then
    refuse (.cannotHold o.kind m.kind list)

/-- Refuses a contract that encloses its new owner, and a block whose
instructions refer to something of another function. -/
def checkAdmission (list : MemberList) (owner member : ValueId) : Except Fault Unit := do
  if list = .contracts ∧ member ∈ ctx.enclosing owner then
    refuse (.selfNesting (ctx.nameOf member))
  else if list = .blocks then
    ctx.checkBody (← ctx.readBody member) owner

/-- Refuses a run of members if one of them may not enter. -/
def checkAdmissions (list : MemberList) (owner : ValueId) (members : List ValueId) :
    Except Fault Unit :=
  members.forM (ctx.checkAdmission list owner)

/-- The position before a member, or the end of the list. -/
def insertionIndex (owner : ValueId) (list : MemberList) (before : Option ValueId) :
    Except Fault Nat :=
  match before with
  | none => .ok (ctx.members owner list).length
  | some b =>
    match (ctx.members owner list).idxOf? b with
    | some k => .ok k
    | none => do
      let x ← ctx.read b
      refuse (.strangePoint x.label (ctx.nameOf owner))

end Context

namespace Edit

open Context

/-- Replaces the members of an owner. -/
def setMembers (owner : ValueId) (list : MemberList) (vs : List ValueId) : Edit Unit :=
  modify fun ctx => ctx.update owner fun x => x.setMembers list vs

/-- Sets the parent of a value. -/
def setParent (v : ValueId) (parent : Option ValueId) : Edit Unit :=
  modify fun ctx => ctx.update v fun x => { x with parent }

/-- Puts a value without owner into a list, before a member or at the end. -/
def insertMember (owner : ValueId) (list : MemberList) (member : ValueId)
    (before : Option ValueId) : Edit Unit := do
  let ctx ← context
  ctx.checkPair owner list member
  let x ← ctx.read member
  match x.parent with
  | some parent => refuse (.alreadyOwned x.kind x.label (ctx.nameOf parent))
  | none =>
    ctx.checkAdmission list owner member
    let k ← ctx.insertionIndex owner list before
    setMembers owner list (Sequence.splice k [member] (ctx.members owner list))
    setParent member (some owner)
    adoptName owner member
    let ctx ← context
    note (.inserted x.kind (ctx.nameOf member) (ctx.nameOf owner))

/-- Takes a value out of a list. -/
def removeMember (owner : ValueId) (list : MemberList) (member : ValueId) : Edit Unit := do
  let ctx ← context
  ctx.checkPair owner list member
  let x ← ctx.read member
  if member ∉ ctx.members owner list then
    refuse (.notMember x.kind x.label (ctx.nameOf owner))
  else
    setMembers owner list ((ctx.members owner list).erase member)
    leaveName owner member x.name
    setParent member none
    note (.removed x.kind x.label (ctx.nameOf owner))

/-- Takes a value away from its owner. It stays in the context, with its
name, and can be put elsewhere. -/
def detach (v : ValueId) : Edit Unit := do
  let ctx ← context
  let x ← ctx.own v
  match x.parent with
  | none => refuse (.noParent x.kind x.label)
  | some owner =>
    match MemberList.ofKind? x.kind with
    | none => refuse (.neverHeld x.kind)
    | some list => removeMember owner list v

/-- Takes the names of members out of their owner's table. -/
def leaveNames (owner : ValueId) : List ValueId → Edit Unit
  | [] => pure ()
  | v :: vs => do
    let ctx ← context
    let x ← ctx.read v
    leaveName owner v x.name
    leaveNames owner vs

/-- Gives values a new owner, one after the other. -/
def adoptMembers (owner : ValueId) : List ValueId → Edit Unit
  | [] => pure ()
  | v :: vs => do
    setParent v (some owner)
    adoptName owner v
    adoptMembers owner vs

/-- Moves the members at positions `start` up to `stop` to another owner,
before one of its members or to the end. -/
def transferMembers (list : MemberList) (source target : ValueId) (start stop : Nat)
    (before : Option ValueId) : Edit Unit := do
  let ctx ← context
  let s ← ctx.own source
  let t ← ctx.own target
  let vs := ctx.members source list
  if source = target then
    refuse .sameList
  else if s.kind ≠ list.ownerKind then
    refuse (.noList s.kind list)
  else if t.kind ≠ list.ownerKind then
    refuse (.noList t.kind list)
  else if stop < start ∨ vs.length < stop then
    refuse (.memberRange start stop vs.length)
  else
    let moved := Sequence.slice start stop vs
    ctx.checkAdmissions list target moved
    let k ← ctx.insertionIndex target list before
    setMembers source list (Sequence.cut start stop vs)
    leaveNames source moved
    setMembers target list (Sequence.splice k moved (ctx.members target list))
    adoptMembers target moved
    note (.transferred moved.length (ctx.nameOf source) (ctx.nameOf target))

end Edit

end ContractIR
