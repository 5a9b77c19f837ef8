import ContractIR.Opcode.Basic
/-!
# Opcodes — how many results and operands

Each opcode fixes how many results and how many operands an instruction
may have. `Opcode.shape` is the one table of these counts.
-/

namespace ContractIR

/-- A set of accepted counts. -/
inductive Arity
  | exactly (n : Nat)
  | atLeast (n : Nat)
  | atMost (n : Nat)
  | oneOf (counts : List Nat)
deriving DecidableEq, Repr

namespace Arity

/-- Whether a count is accepted. -/
def accepts : Arity → Nat → Bool
  | exactly n, count => count == n
  | atLeast n, count => n ≤ count
  | atMost n, count => count ≤ n
  | oneOf counts, count => counts.contains count

/-- The arity as messages spell it. -/
def text : Arity → String
  | exactly n => s!"exactly {n}"
  | atLeast n => s!"at least {n}"
  | atMost n => s!"at most {n}"
  | oneOf counts => "one of " ++ ", ".intercalate (counts.map fun n => s!"{n}")

end Arity

/-- The accepted counts of results and of operands. -/
structure Shape where
  /-- How many locals the instruction writes. -/
  results : Arity
  /-- How many values it reads or refers to. -/
  operands : Arity
deriving DecidableEq, Repr

namespace Shape

/-- Whether the shape accepts `r` results and `o` operands. -/
def accepts (s : Shape) (r o : Nat) : Bool := s.results.accepts r && s.operands.accepts o

end Shape

namespace Opcode

/-- The counts every instruction with this opcode has. -/
def shape : Opcode → Shape
  | ret => ⟨.exactly 0, .atLeast 0⟩
  | revert | selfdestruct => ⟨.exactly 0, .exactly 1⟩
  | br => ⟨.exactly 0, .oneOf [1, 2]⟩
  | assign | sload => ⟨.exactly 1, .exactly 1⟩
  | load => ⟨.exactly 1, .oneOf [1, 3]⟩
  | store => ⟨.exactly 0, .oneOf [2, 4]⟩
  | sstore => ⟨.exactly 0, .exactly 2⟩
  | log => ⟨.exactly 0, .atLeast 1⟩
  | call => ⟨.atLeast 0, .atLeast 1⟩
  | callAt => ⟨.atLeast 1, .atLeast 4⟩
  | staticCallAt => ⟨.atLeast 1, .atLeast 3⟩
  | callAddress => ⟨.exactly 1, .exactly 2⟩
  | create | copyCreate => ⟨.exactly 2, .atLeast 2⟩
  | op =>
    if op.isUnary then ⟨.exactly 1, .exactly 1⟩
    else if op.isBinary then ⟨.exactly 1, .exactly 2⟩
    else if op.isTernary then ⟨.exactly 1, .exactly 3⟩
    else ⟨.atMost 1, .atLeast 0⟩

end Opcode

end ContractIR
