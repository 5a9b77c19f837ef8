import ContractIR.Context.Attribute
/-!
# Assembly text

Values, instructions, blocks, functions and contracts as text. Locals are
written with a percent sign, functions and storage slots with an at sign,
blocks and contracts by their bare name. Text is asked for with handles the
context holds; anything else is a misuse.
-/

namespace ContractIR

namespace Assembly

/-- An integer, in decimal or in hexadecimal. -/
def constantText (n : Int) (hex : Bool) : String :=
  if hex then (if n < 0 then "-0x" else "0x") ++ Text.hexadecimal n.natAbs else s!"{n}"

/-- A value as an operand. -/
def valueText (x : Value) : String :=
  match x.payload with
  | .constant n hex => constantText n hex
  | .localVariable | .argument => "%" ++ x.label
  | .global _ | .function _ => "@" ++ x.label
  | .block _ | .contract _ => x.label

/-- Items with commas between them. -/
def commas (items : List String) : String := ", ".intercalate items

/-- Puts the results in front of an operation. -/
def assigned (results : List String) (operation : String) : String :=
  if results.isEmpty then operation else commas results ++ " = " ++ operation

/-- An instruction, given its results and operands as text; none if the
opcode needs more operands. -/
def instructionText (op : Opcode) (results operands : List String) : Option String :=
  match op, operands with
  | .ret, [] => some (assigned results "ret void")
  | .assign, value :: _ => some (assigned results value)
  | .call, callee :: args => some (assigned results s!"call {callee}({commas args})")
  | .callAt, callee :: address :: transfer :: gas :: args =>
    some (s!"{commas results} = {op.mnemonic} {callee} at {address} ({commas args}) " ++
      s!"send {transfer}, gaslimit {gas}")
  | .staticCallAt, callee :: address :: gas :: args =>
    some s!"{commas results} = {op.mnemonic} {callee} at {address} ({commas args}) gaslimit {gas}"
  | .callAddress, callee :: address :: _ =>
    some (assigned results s!"{op.mnemonic} {callee} at {address}")
  | .create, source :: transfer :: args | .copyCreate, source :: transfer :: args =>
    some s!"{commas results} = {op.mnemonic} {source} ({commas args}) send {transfer}"
  | .assign, _ | .call, _ | .callAt, _ | .staticCallAt, _ | .callAddress, _ | .create, _
  | .copyCreate, _ => none
  | op, operands =>
    if op.isIntrinsic then some (assigned results s!"call @{op.mnemonic}({commas operands})")
    else some (assigned results s!"{op.mnemonic} {commas operands}")

end Assembly

namespace Context

open Assembly

variable (ctx : Context)

/-- A value as an operand. -/
def valueText (v : ValueId) : Except Fault String := do
  let x ← ctx.read v
  return Assembly.valueText x

/-- An instruction as text. -/
def instText (i : InstId) : Except Fault String := do
  let x ← ctx.readInst i
  let results ← x.results.mapM ctx.valueText
  let operands ← x.operands.mapM ctx.valueText
  match instructionText x.opcode results operands with
  | some text => .ok text
  | none => misuse

/-- A block as text: its name, then a line per instruction. -/
def blockText (b : ValueId) : Except Fault String := do
  let x ← ctx.read b
  let is ← ctx.readBody b
  let lines ← is.mapM ctx.instText
  return x.label ++ ":\n" ++ String.join (lines.map fun line => "  " ++ line ++ "\n")

/-- A function as text: a head line, its blocks with an empty line between
them, and a closing brace. -/
def functionText (f : ValueId) : Except Fault String := do
  let x ← ctx.read f
  let args ← (x.members .arguments).mapM ctx.valueText
  let blocks ← (x.members .blocks).mapM ctx.blockText
  let visibility := if ctx.hasFlag .isPublic f then "public " else ""
  return "define " ++ visibility ++ "@" ++ x.label ++ "(" ++ commas args ++ ") \x7b\n"
    ++ "\n".intercalate blocks ++ "\x7d\n"

/-- A storage slot as text, with its address if it has one. -/
def globalText (v : ValueId) : Except Fault String := do
  let name ← ctx.valueText v
  match ctx.storageAddress? v with
  | none => return name ++ "\n"
  | some address => return name ++ " = " ++ (← ctx.valueText address) ++ "\n"

/-- A contract as text, with at most `depth` levels of nesting. The contracts
nested in it come first, each in full; then it declares them, its storage
slots and its functions. -/
def contractTextUpTo : Nat → ValueId → Except Fault String
  | 0, _ => misuse
  | depth + 1, c => do
    let x ← ctx.read c
    let nested ← (x.members .contracts).mapM fun sub => contractTextUpTo depth sub
    let globals ← (x.members .globals).mapM ctx.globalText
    let functions ← (x.members .functions).mapM ctx.functionText
    let externals := (x.members .contracts).map fun sub =>
      "external contract " ++ ctx.nameOf sub ++ "\n"
    return String.join (nested.map fun text => text ++ "\n")
      ++ "contract " ++ x.label ++ " \x7b\n"
      ++ String.join externals ++ String.join globals
      ++ String.join (functions.map fun text => "\n" ++ text) ++ "\x7d"

/-- A contract as text. Contracts do not nest more deeply than there are
values. -/
def contractText (c : ValueId) : Except Fault String :=
  ctx.contractTextUpTo (ctx.values.size + 1) c

/-- Whatever a value is, as text: contracts, functions and blocks in full,
anything else as an operand. -/
def text (v : ValueId) : Except Fault String :=
  match ctx.kind? v with
  | some .contract => ctx.contractText v
  | some .function => ctx.functionText v
  | some .block => ctx.blockText v
  | _ => ctx.valueText v

end Context

end ContractIR
