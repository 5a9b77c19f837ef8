import ContractIR.Context.Edit
/-!
# Names

The name of a member is entered in its owner's symbol table: the contract's
for functions, storage slots and nested contracts, the function's for
blocks, variables and arguments. A value without owner keeps its name
without a table.
-/

namespace ContractIR

namespace Context

/-- Refuses names that assembly text cannot spell. -/
def checkName (name : String) : Except Fault Unit :=
  if '\x00' ∈ name.toList then refuse (.nulInName name) else .ok ()

variable (ctx : Context)

/-- The owner whose table holds a member's name. -/
def tableOwner? (x : Value) : Option ValueId :=
  x.parent.filter fun p => (ctx.kind? p).any Kind.isOwner

/-- The symbol table of an owner. -/
def symbols (owner : ValueId) : SymbolTable := ((ctx.value? owner).bind Value.symbols?).getD {}

/-- The symbol table of an owner that the context holds. -/
def readSymbols (owner : ValueId) : Except Fault SymbolTable := do
  let x ← ctx.read owner
  match x.symbols? with
  | some t => .ok t
  | none => misuse

end Context

namespace Edit

open Context

/-- Notes that a name was taken, if another one had to be used. -/
def noteUsed (name used : String) : Edit Unit :=
  if used = name then pure () else note (.renamedSymbol name used)

/-- Enters a name for a member in its owner's table, and says which name was
used. -/
def enterName (owner v : ValueId) (name : String) (isGlobal : Bool) : Edit String := do
  let ctx ← context
  let entered := (ctx.symbols owner).enter name v isGlobal
  modify fun ctx => ctx.update owner fun x => x.mapSymbols fun _ => entered.2
  noteUsed name entered.1
  return entered.1

/-- Enters a name, unless it is empty. -/
def enterName? (owner v : ValueId) (name : String) (isGlobal : Bool) : Edit (Option String) :=
  if name = "" then pure none else some <$> enterName owner v name isGlobal

/-- Takes a member's name out of its owner's table. -/
def leaveName (owner v : ValueId) (name : Option String) : Edit Unit :=
  match name with
  | none => pure ()
  | some name => modify fun ctx => ctx.update owner fun x => x.mapSymbols fun t => t.leave name v

/-- Stores a value's name. -/
def storeName (v : ValueId) (name : Option String) : Edit Unit :=
  modify fun ctx => ctx.update v fun x => { x with name }

/-- Renames a value. The name that is stored is another one if the owner's
table has it already; an empty name takes the present one away. -/
def setName (v : ValueId) (name : String) : Edit Unit := do
  let ctx ← context
  let x ← ctx.own v
  checkName name
  if x.kind = .constant then
    refuse .namedConstant
  else if x.label = name then
    pure ()
  else
    match ctx.tableOwner? x with
    | none => storeName v (if name = "" then none else some name)
    | some owner =>
      leaveName owner v x.name
      let used ← enterName? owner v name x.kind.isGlobalValue
      note (.renamed x.kind x.name used)
      storeName v used

/-- Enters the name of a value that got a new owner. -/
def adoptName (owner v : ValueId) : Edit Unit := do
  let ctx ← context
  let x ← ctx.read v
  match x.name with
  | none => pure ()
  | some name =>
    let used ← enterName owner v name x.kind.isGlobalValue
    storeName v (some used)

end Edit

end ContractIR
