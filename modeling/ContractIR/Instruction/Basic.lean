import ContractIR.Handle
import ContractIR.Opcode.Shape
/-!
# Instructions

An instruction writes results, which are locals, and has operands, which
may be any values. The target of a branch is its last operand. An
instruction that is in a block knows which, and it is kept together with its
two neighbours there.
-/

namespace ContractIR

/-- An instruction. -/
structure Instruction where
  /-- What it does. -/
  opcode : Opcode
  /-- The locals it writes. -/
  results : List ValueId
  /-- The values it reads or refers to. -/
  operands : List ValueId
  /-- The block it is in. -/
  block : Option ValueId := none
deriving DecidableEq, Repr

namespace Instruction

/-- Everything the instruction refers to, results first. -/
def references (x : Instruction) : List ValueId := x.results ++ x.operands

/-- A branch with a condition: it may go on to the next instruction. -/
def isConditional (x : Instruction) : Bool := x.opcode == .br && x.operands.length == 2

/-- A branch without condition, a return or a revert: nothing goes on to the
next instruction. -/
def isUnconditional (x : Instruction) : Bool :=
  match x.opcode with
  | .br => x.operands.length == 1
  | .ret | .revert => true
  | _ => false

/-- Replaces the operand at a position. -/
def setOperand (x : Instruction) (index : Nat) (v : ValueId) : Instruction :=
  { x with operands := x.operands.set index v }

end Instruction

/-- An instruction as a context keeps it, with its neighbours in its block. -/
structure Cell where
  /-- The instruction. -/
  instruction : Instruction
  /-- The instruction before it in its block. -/
  prev : Option InstId := none
  /-- The instruction after it in its block. -/
  next : Option InstId := none
deriving DecidableEq

/-- Where an instruction is put. -/
inductive Point
  /-- Right before an instruction that is in a block. -/
  | before (inst : InstId)
  /-- After the last instruction of a block. -/
  | atEnd (block : ValueId)
deriving DecidableEq, Repr

end ContractIR
