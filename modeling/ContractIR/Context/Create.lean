import ContractIR.Context.Member
/-!
# Creation of values

A value is created with its owner or without one. The name is checked before
anything is created; the value is put into its owner's list before it gets
its name, so that the name is made unique there.
-/

namespace ContractIR

namespace Edit

open Context

/-- Adds a value to the context. -/
def newValue (payload : Payload) : Edit ValueId := do
  let ctx ← context
  modify fun ctx => ctx.push payload
  return ctx.nextValue

/-- The constant of an integer. -/
def constant (n : Int) (hex : Bool) : Edit ValueId := do
  let ctx ← context
  modify fun ctx => (ctx.intern n hex).2
  return (ctx.intern n hex).1

/-- Creates a contract that is nested in no other. -/
def createContract (name : String) : Edit ValueId := do
  checkName name
  let contract ← newValue (.contract {})
  setName contract name
  modify fun ctx => { ctx with contracts := ctx.contracts ++ [contract] }
  note (.createdContract name)
  return contract

/-- Creates a contract nested in another. -/
def createSubcontract (name : String) (parent : ValueId) : Edit ValueId := do
  let ctx ← context
  let _ ← ctx.own parent
  let contract ← createContract name
  insertMember parent .contracts contract none
  return contract

/-- Puts a value into the list of an owner, if there is one. A place before
another member means nothing without an owner. -/
def insertInto (owner : Option ValueId) (list : MemberList) (v : ValueId)
    (before : Option ValueId) : Edit Unit :=
  match owner, before with
  | some owner, before => insertMember owner list v before
  | none, some _ => refuse .pointWithoutFunction
  | none, none => pure ()

/-- Creates a member of a list, in its owner's list if an owner is given. -/
def createMember (payload : Payload) (list : MemberList) (name : String)
    (owner before : Option ValueId) : Edit ValueId := do
  checkName name
  let v ← newValue payload
  insertInto owner list v before
  setName v name
  return v

/-- Creates a storage slot. -/
def createGlobal (name : String) (contract : Option ValueId) : Edit ValueId :=
  createMember (.global none) .globals name contract none

/-- Creates a function. -/
def createFunction (isPublic : Bool) (name : String) (contract : Option ValueId) :
    Edit ValueId :=
  createMember (.function { isPublic }) .functions name contract none

/-- Creates a contract's constructor, which is public and called `init`. -/
def createInitFunction (contract : Option ValueId) : Edit ValueId :=
  createMember (.function { isPublic := true, isInit := true }) .functions "init" contract none

/-- Creates a contract's entry point for deposits, which is called
`deposit`. -/
def createDepositFunction (isPublic : Bool) (contract : Option ValueId) : Edit ValueId :=
  createMember (.function { isPublic, isDeposit := true }) .functions "deposit" contract none

/-- Creates a formal argument. -/
def createArgument (name : String) (function : Option ValueId) : Edit ValueId :=
  createMember .argument .arguments name function none

/-- Creates a local variable. -/
def createLocal (name : String) (function : Option ValueId) : Edit ValueId :=
  createMember .localVariable .locals name function none

/-- Creates a block, before another block of the function or at its end. -/
def createBlock (name : String) (function before : Option ValueId) : Edit ValueId :=
  createMember (.block {}) .blocks name function before

end Edit

end ContractIR
