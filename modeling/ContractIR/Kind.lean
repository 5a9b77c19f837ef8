/-!
# Kinds of value

Every value is of one of seven kinds. A **role** is what a use of a value
asks for: most roles admit one kind, a local may be a variable or an
argument, and a global value may be a function or a storage slot. Contracts
and functions keep their members in ordered lists, each of which holds one
kind.
-/

namespace ContractIR

/-- What a value is. -/
inductive Kind
  | constant
  | global
  | function
  | contract
  | block
  | localVariable
  | argument
deriving DecidableEq, Repr

namespace Kind

/-- Every kind. -/
def all : List Kind := [constant, global, function, contract, block, localVariable, argument]

/-- The kind's identifier. -/
def name : Kind → String
  | constant => "IntConstant"
  | global => "GlobalVariable"
  | function => "Function"
  | contract => "Contract"
  | block => "Block"
  | localVariable => "LocalVariable"
  | argument => "Argument"

/-- The kind with a given identifier. -/
def ofName? (s : String) : Option Kind := all.find? fun k => k.name == s

/-- The kind as messages spell it. -/
def text : Kind → String
  | constant => "integer constant"
  | global => "global variable"
  | function => "function"
  | contract => "contract"
  | block => "block"
  | localVariable => "local variable"
  | argument => "argument"

/-- Functions and storage slots live in a contract's scope, and a dot
separates their name from the counter that makes it unique. -/
def isGlobalValue : Kind → Bool
  | function | global => true
  | _ => false

/-- Kinds that denote the same thing throughout a compilation. -/
def isConstant : Kind → Bool
  | constant | global | function | contract => true
  | _ => false

/-- Kinds whose owner is a function. -/
def isFunctionLocal : Kind → Bool
  | block | localVariable | argument => true
  | _ => false

/-- Variables and arguments: what an instruction can write. -/
def isLocal : Kind → Bool
  | localVariable | argument => true
  | _ => false

/-- Kinds that keep members and a scope for their names. -/
def isOwner : Kind → Bool
  | contract | function => true
  | _ => false

end Kind

/-- What a use of a value asks for. -/
inductive Role
  | value
  | constant
  | global
  | function
  | contract
  | block
  | localValue
  | globalValue
deriving DecidableEq, Repr

namespace Role

/-- Whether a value of kind `k` can be used in the role. -/
def admits : Role → Kind → Bool
  | value, _ => true
  | constant, k => k == .constant
  | global, k => k == .global
  | function, k => k == .function
  | contract, k => k == .contract
  | block, k => k == .block
  | localValue, k => k.isLocal
  | globalValue, k => k.isGlobalValue

/-- The role with a given identifier. -/
def ofName? : String → Option Role
  | "Value" => some value
  | "Constant" => some constant
  | "GlobalVariable" => some global
  | "Function" => some function
  | "Contract" => some contract
  | "Block" => some block
  | "Local" => some localValue
  | "GlobalValue" => some globalValue
  | _ => none

end Role

/-- One of the ordered lists an owner keeps its members in. -/
inductive MemberList
  | functions
  | globals
  | contracts
  | arguments
  | locals
  | blocks
deriving DecidableEq, Repr

namespace MemberList

/-- The kind of the list's members. -/
def memberKind : MemberList → Kind
  | functions => .function
  | globals => .global
  | contracts => .contract
  | arguments => .argument
  | locals => .localVariable
  | blocks => .block

/-- The kind of the list's owner. -/
def ownerKind : MemberList → Kind
  | functions | globals | contracts => .contract
  | arguments | locals | blocks => .function

/-- The list that holds members of a kind; constants are in none. -/
def ofKind? : Kind → Option MemberList
  | .function => some functions
  | .global => some globals
  | .contract => some contracts
  | .argument => some arguments
  | .localVariable => some locals
  | .block => some blocks
  | .constant => none

/-- The role its members are passed in. -/
def memberRole : MemberList → Role
  | functions => .function
  | globals => .global
  | contracts => .contract
  | arguments | locals => .localValue
  | blocks => .block

/-- The role its owner is passed in. -/
def ownerRole : MemberList → Role
  | functions | globals | contracts => .contract
  | arguments | locals | blocks => .function

/-- The list as messages spell it. -/
def name : MemberList → String
  | functions => "Functions"
  | globals => "Globals"
  | contracts => "Contracts"
  | arguments => "Arguments"
  | locals => "Locals"
  | blocks => "Blocks"

/-- A list holds the kind it is found under. -/
@[simp] theorem ofKind?_memberKind (l : MemberList) : ofKind? l.memberKind = some l := by
  cases l <;> rfl

/-- The owner of a list is a contract or a function. -/
@[simp] theorem isOwner_ownerKind (l : MemberList) : l.ownerKind.isOwner = true := by
  cases l <;> rfl

end MemberList

/-- The lists from which a run of neighbouring members can be moved. -/
inductive MovableList
  | functions
  | globals
  | locals
  | blocks
deriving DecidableEq, Repr

namespace MovableList

/-- The member list itself. -/
def list : MovableList → MemberList
  | functions => .functions
  | globals => .globals
  | locals => .locals
  | blocks => .blocks

end MovableList

end ContractIR
