import ContractIR.Kind
import ContractIR.SymbolTable
/-!
# Values

A value has a payload, a name if it was given one, and a parent while it is
a member of a contract or a function. The kind of a value is read off its
payload, so the two cannot disagree. A block keeps the list of its
instructions in program order and, beside it, the two ends and the length
that single steps through the block start from.
-/

namespace ContractIR

/-- What a function holds. -/
structure FunctionBody where
  /-- Its formal arguments. -/
  arguments : List ValueId := []
  /-- Its local variables. -/
  locals : List ValueId := []
  /-- Its blocks; the first is where it starts. -/
  blocks : List ValueId := []
  /-- The scope of its arguments, locals and blocks. -/
  symbols : SymbolTable := {}
  /-- Whether other contracts may call it. -/
  isPublic : Bool := false
  /-- Whether it is its contract's constructor. -/
  isInit : Bool := false
  /-- Whether it accepts deposits. -/
  isDeposit : Bool := false
deriving DecidableEq

/-- What a contract holds. -/
structure ContractBody where
  /-- Its functions. -/
  functions : List ValueId := []
  /-- Its storage slots. -/
  globals : List ValueId := []
  /-- The contracts nested in it. -/
  contracts : List ValueId := []
  /-- The scope of its functions, storage slots and nested contracts. -/
  symbols : SymbolTable := {}
  /-- Bytes kept for the tools that deploy it. -/
  metadata : List UInt8 := []
deriving DecidableEq

/-- What a block holds. -/
structure BlockBody where
  /-- Its instructions in program order. -/
  toList : List InstId := []
  /-- Its first instruction. -/
  head? : Option InstId := none
  /-- Its last instruction. -/
  getLast? : Option InstId := none
  /-- How many instructions it has. -/
  length : Nat := 0
deriving DecidableEq

instance : Coe BlockBody (List InstId) := ⟨BlockBody.toList⟩

/-- What a value consists of, by kind. -/
inductive Payload
  /-- An integer, and whether it is written in hexadecimal. -/
  | constant (value : Int) (hex : Bool)
  /-- A storage slot and the constant it is stored at, once known. -/
  | global (address : Option ValueId)
  /-- A function. -/
  | function (body : FunctionBody)
  /-- A contract. -/
  | contract (body : ContractBody)
  /-- A block. -/
  | block (body : BlockBody)
  /-- A local variable. -/
  | localVariable
  /-- A formal argument. -/
  | argument
deriving DecidableEq

/-- The kind of a payload. -/
def Payload.kind : Payload → Kind
  | constant .. => .constant
  | global _ => .global
  | function _ => .function
  | contract _ => .contract
  | block _ => .block
  | localVariable => .localVariable
  | argument => .argument

/-- A value. -/
structure Value where
  /-- What it consists of. -/
  payload : Payload
  /-- Its name, unless it has none. -/
  name : Option String := none
  /-- The contract or function it is a member of. -/
  parent : Option ValueId := none
deriving DecidableEq

namespace Value

/-- The kind of a value. -/
def kind (x : Value) : Kind := x.payload.kind

/-- The name of a value, empty when it has none. -/
def label (x : Value) : String := x.name.getD ""

/-- The members a value keeps in a list; none if it keeps no such list. -/
def members (x : Value) (list : MemberList) : List ValueId :=
  match x.payload, list with
  | .contract c, .functions => c.functions
  | .contract c, .globals => c.globals
  | .contract c, .contracts => c.contracts
  | .function f, .arguments => f.arguments
  | .function f, .locals => f.locals
  | .function f, .blocks => f.blocks
  | _, _ => []

/-- Replaces the members of a list; a value that keeps no such list is left
as it is. -/
def setMembers (x : Value) (list : MemberList) (vs : List ValueId) : Value :=
  match x.payload, list with
  | .contract c, .functions => { x with payload := .contract { c with functions := vs } }
  | .contract c, .globals => { x with payload := .contract { c with globals := vs } }
  | .contract c, .contracts => { x with payload := .contract { c with contracts := vs } }
  | .function f, .arguments => { x with payload := .function { f with arguments := vs } }
  | .function f, .locals => { x with payload := .function { f with locals := vs } }
  | .function f, .blocks => { x with payload := .function { f with blocks := vs } }
  | _, _ => x

/-- The scope of a value's members; only contracts and functions have one. -/
def symbols? (x : Value) : Option SymbolTable :=
  match x.payload with
  | .contract c => some c.symbols
  | .function f => some f.symbols
  | _ => none

/-- Changes the scope of a value's members, if it has one. -/
def mapSymbols (x : Value) (f : SymbolTable → SymbolTable) : Value :=
  match x.payload with
  | .contract c => { x with payload := .contract { c with symbols := f c.symbols } }
  | .function b => { x with payload := .function { b with symbols := f b.symbols } }
  | _ => x

/-- What a block holds. -/
def block? (x : Value) : Option BlockBody :=
  match x.payload with
  | .block b => some b
  | _ => none

/-- Changes what a block holds; other values are left as they are. -/
def mapBlock (x : Value) (f : BlockBody → BlockBody) : Value :=
  match x.payload with
  | .block b => { x with payload := .block (f b) }
  | _ => x

/-- Replaces the list of a block's instructions; other values are left as
they are. -/
def setBody (x : Value) (is : List InstId) : Value := x.mapBlock fun b => { b with toList := is }

/-- Changes what a function holds; other values are left as they are. -/
def mapFunction (x : Value) (f : FunctionBody → FunctionBody) : Value :=
  match x.payload with
  | .function b => { x with payload := .function (f b) }
  | _ => x

/-- What a function holds. -/
def function? (x : Value) : Option FunctionBody :=
  match x.payload with
  | .function b => some b
  | _ => none

/-! ## What the changes keep -/

variable (x : Value)

@[simp] theorem kind_setMembers (list : MemberList) (vs : List ValueId) :
    (x.setMembers list vs).kind = x.kind := by
  unfold setMembers
  split <;> simp_all [kind, Payload.kind]

@[simp] theorem name_setMembers (list : MemberList) (vs : List ValueId) :
    (x.setMembers list vs).name = x.name := by
  unfold setMembers
  split <;> rfl

@[simp] theorem parent_setMembers (list : MemberList) (vs : List ValueId) :
    (x.setMembers list vs).parent = x.parent := by
  unfold setMembers
  split <;> rfl

@[simp] theorem symbols?_setMembers (list : MemberList) (vs : List ValueId) :
    (x.setMembers list vs).symbols? = x.symbols? := by
  unfold setMembers
  split <;> simp_all [symbols?]

@[simp] theorem block?_setMembers (list : MemberList) (vs : List ValueId) :
    (x.setMembers list vs).block? = x.block? := by
  unfold setMembers
  split <;> simp_all [block?]

@[simp] theorem kind_mapSymbols (f : SymbolTable → SymbolTable) :
    (x.mapSymbols f).kind = x.kind := by
  unfold mapSymbols
  split <;> simp_all [kind, Payload.kind]

@[simp] theorem name_mapSymbols (f : SymbolTable → SymbolTable) :
    (x.mapSymbols f).name = x.name := by
  unfold mapSymbols
  split <;> rfl

@[simp] theorem parent_mapSymbols (f : SymbolTable → SymbolTable) :
    (x.mapSymbols f).parent = x.parent := by
  unfold mapSymbols
  split <;> rfl

@[simp] theorem members_mapSymbols (f : SymbolTable → SymbolTable) (list : MemberList) :
    (x.mapSymbols f).members list = x.members list := by
  obtain ⟨payload, name, parent⟩ := x
  cases payload <;> cases list <;> rfl

@[simp] theorem symbols?_mapSymbols (f : SymbolTable → SymbolTable) :
    (x.mapSymbols f).symbols? = x.symbols?.map f := by
  unfold mapSymbols
  split <;> simp_all [symbols?]

@[simp] theorem block?_mapSymbols (f : SymbolTable → SymbolTable) :
    (x.mapSymbols f).block? = x.block? := by
  unfold mapSymbols
  split <;> simp_all [block?]

/-- Setting a list shows in that list alone, provided the value keeps it. -/
theorem members_setMembers (list : MemberList) (vs : List ValueId) (other : MemberList)
    (h : x.kind = list.ownerKind) :
    (x.setMembers list vs).members other = if other = list then vs else x.members other := by
  obtain ⟨payload, name, parent⟩ := x
  cases payload <;> cases list <;>
    simp_all [kind, Payload.kind, MemberList.ownerKind, setMembers, members] <;>
    cases other <;> simp

@[simp] theorem kind_mapBlock (f : BlockBody → BlockBody) : (x.mapBlock f).kind = x.kind := by
  unfold mapBlock
  split <;> simp_all [kind, Payload.kind]

@[simp] theorem mapBlock_id : (x.mapBlock fun b => b) = x := by
  obtain ⟨payload, name, parent⟩ := x
  cases payload <;> rfl

@[simp] theorem mapBlock_mapBlock (f g : BlockBody → BlockBody) :
    (x.mapBlock f).mapBlock g = x.mapBlock fun b => g (f b) := by
  obtain ⟨payload, name, parent⟩ := x
  cases payload <;> rfl

@[simp] theorem block?_mapBlock (f : BlockBody → BlockBody) :
    (x.mapBlock f).block? = x.block?.map f := by
  unfold mapBlock
  split <;> simp_all [block?]

end Value

end ContractIR
