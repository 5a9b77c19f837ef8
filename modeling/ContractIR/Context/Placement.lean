import ContractIR.Context.Edit
import ContractIR.Context.Links
import ContractIR.Sequence
/-!
# Placement of instructions

A block's body lists its instructions in program order, and each of them
knows its block and its neighbours there. Instructions are created in place, taken out and put back,
erased, and moved in runs; their operands are replaced one by one.

An instruction in a block of a function may refer only to locals, arguments
and blocks of that function. The rule is checked when an instruction enters
a function or gets a new operand there; in a block without a function
nothing is checked.
-/

namespace ContractIR

namespace Context

variable (ctx : Context)

/-! ## Checks -/

/-- Refuses values of another context. -/
def checkOwned (vs : List ValueId) : Except Fault Unit :=
  vs.forM fun v => do
    let _ ← ctx.own v

/-- Refuses a local, an argument or a block of another function. -/
def checkMember (opcode : Opcode) (function v : ValueId) : Except Fault Unit := do
  let x ← ctx.read v
  if x.kind.isFunctionLocal ∧ x.parent ≠ some function then
    refuse (.outsider x.kind x.label opcode (ctx.nameOf function))

/-- Refuses an instruction that refers to something of another function. -/
def checkReferences (x : Instruction) (function : ValueId) : Except Fault Unit :=
  x.references.forM (ctx.checkMember x.opcode function)

/-- Refuses an instruction for a block; a block without a function takes
any. -/
def checkEntry (x : Instruction) (block : ValueId) : Except Fault Unit :=
  match ctx.parentOfKind? .function block with
  | none => .ok ()
  | some function => ctx.checkReferences x function

/-- Refuses a body for a function. -/
def checkBody (is : List InstId) (function : ValueId) : Except Fault Unit :=
  is.forM fun i => do ctx.checkReferences (← ctx.readInst i) function

/-- Refuses counts that the opcode does not take, and a branch that does not
end in a block. -/
def checkShape (op : Opcode) (results operands : List ValueId) : Except Fault Unit := do
  if !op.shape.results.accepts results.length then
    refuse (.resultCount op op.shape.results results.length)
  else if !op.shape.operands.accepts operands.length then
    refuse (.operandCount op op.shape.operands operands.length)
  else if op = .br ∧ operands.getLast?.any (fun v => ctx.kind? v ≠ some .block) then
    refuse .targetNotBlock

/-- Refuses a new operand at a position of an instruction. -/
def checkOperand (x : Instruction) (index : Nat) (v : ValueId) : Except Fault Unit :=
  if x.operands.length ≤ index then
    refuse (.operandIndex index x.opcode x.operands.length)
  else if x.opcode = .br ∧ index + 1 = x.operands.length ∧ ctx.kind? v ≠ some .block then
    refuse .targetNotBlock
  else
    match x.block.bind (ctx.parentOfKind? .function) with
    | none => .ok ()
    | some function => ctx.checkMember x.opcode function v

/-- Refuses to move instructions from one block to another. Blocks of one
function hold the same references, so nothing is checked between them. -/
def checkMove (is : List InstId) (source target : ValueId) : Except Fault Unit :=
  match ctx.parentOfKind? .function target with
  | none => .ok ()
  | some function =>
    if ctx.parentOfKind? .function source = some function then .ok ()
    else ctx.checkBody is function

/-- The block an insertion point lies in. -/
def pointBlock : Point → Except Fault ValueId
  | .atEnd block => do
    let _ ← ctx.own block
    return block
  | .before i => do
    let x ← ctx.ownInst i
    match x.block with
    | some block => .ok block
    | none => refuse (.detachedPoint i)

end Context

/-- The instruction an insertion point stands before; none at the end of a
block. -/
def Point.follower? : Point → Option InstId
  | before i => some i
  | atEnd _ => none

namespace Edit

open Context

/-! ## Single instructions -/

/-- Puts an instruction that is in no block at an insertion point. -/
def place (i : InstId) (point : Point) : Edit Unit := do
  let ctx ← context
  let block ← ctx.pointBlock point
  let is ← ctx.readBody block
  match Sequence.position? point.follower? is with
  | none => misuse
  | some k =>
    modify fun ctx =>
      ((ctx.update block fun x => x.setBody (Sequence.splice k [i] is)).updateInst i fun x =>
        { x with block := some block }).link i block point.follower?

/-- Takes an instruction out of its block. -/
def unplace (i : InstId) : Edit Unit := do
  let ctx ← context
  let x ← ctx.ownInst i
  match x.block with
  | none => refuse (.notPlaced i)
  | some block =>
    modify fun ctx =>
      ((ctx.update block fun y => y.setBody ((ctx.body block).erase i)).updateInst i fun x =>
        { x with block := none }).unlink i block

/-- Places an instruction that is in no block, after the checks. -/
def insertInst (i : InstId) (point : Point) : Edit Unit := do
  let ctx ← context
  let block ← ctx.pointBlock point
  let x ← ctx.ownInst i
  if x.block.isSome then
    refuse (.alreadyPlaced i)
  else
    ctx.checkEntry x block
    place i point

/-- Creates an instruction and places it. A refused placement uses the
instruction's number up. -/
def createInst (op : Opcode) (results operands : List ValueId) (point : Point) :
    Edit InstId := do
  let ctx ← context
  ctx.checkOwned (results ++ operands)
  ctx.checkShape op results operands
  let i := ctx.nextInst
  let x : Instruction := { opcode := op, results, operands }
  match ctx.pointBlock point >>= ctx.checkEntry x with
  | .error fault =>
    modify (·.pushInst none)
    throw fault
  | .ok () =>
    modify (·.pushInst (some x))
    place i point
    note (.createdInstruction op i)
    return i

/-- Takes an instruction out of its block and destroys it; gives the
instruction that followed it. -/
def eraseInst (i : InstId) : Edit (Option InstId) := do
  let ctx ← context
  unplace i
  modify fun ctx => ctx.updateCell i fun _ => none
  note (.erasedInstruction i)
  return ctx.nextInst? i

/-- Replaces one operand. -/
def setOperand (i : InstId) (index : Nat) (v : ValueId) : Edit Unit := do
  let ctx ← context
  let _ ← ctx.own v
  let x ← ctx.ownInst i
  ctx.checkOperand x index v
  modify fun ctx => ctx.updateInst i fun x => x.setOperand index v

/-! ## Runs of instructions -/

/-- Moves instructions, one after the other, to an insertion point. -/
def moveInsts (point : Point) : List InstId → Edit Unit
  | [] => pure ()
  | i :: is => do
    unplace i
    place i point
    moveInsts point is

/-- Moves the instructions at positions `start` up to `stop` of a block. -/
def transferInsts (source : ValueId) (start stop : Nat) (point : Point) : Edit Unit := do
  let ctx ← context
  let _ ← ctx.own source
  let target ← ctx.pointBlock point
  let is ← ctx.readBody source
  let moved := Sequence.slice start stop is
  if stop < start ∨ moved.length ≠ stop - start then
    refuse (.instructionRange start stop (ctx.instCount source))
  else if point.follower?.any (moved.contains ·) then
    refuse .pointInRange
  else
    ctx.checkMove moved source target
    moveInsts point moved

end Edit

end ContractIR
