import ContractIR.Sequence
import ContractIR.Text.Json
/-!
# Statistics

What the optimizer did, function by function, and its report as JSON text:
two blanks per level, one item per line, nothing between the brackets of an
empty list.
-/

namespace ContractIR

/-- What the optimizer did in one function. -/
structure FunctionStatistics where
  /-- The function's name. -/
  function : String
  /-- The size of its flow graph. -/
  nodes : Nat
  /-- The edges of its flow graph. -/
  edges : Nat
  /-- The sweeps that liveness took. -/
  sweeps : Nat
  /-- The reads that copy propagation replaced. -/
  replacedReads : Nat
  /-- The copies of a local to itself that it erased. -/
  selfCopies : Nat
  /-- The dead instructions erased. -/
  dead : Nat
deriving DecidableEq, Repr

/-- What the optimizer did in one contract. -/
structure PassStatistics where
  /-- The contract's name. -/
  contract : String
  /-- Its functions, in order. -/
  functions : List FunctionStatistics
deriving DecidableEq, Repr

namespace FunctionStatistics

/-- The numbers of a function and what the report calls them. -/
def fields (s : FunctionStatistics) : List (String × Nat) :=
  [("cfg_nodes", s.nodes), ("cfg_edges", s.edges), ("liveness_iterations", s.sweeps),
    ("operands_rewritten", s.replacedReads), ("self_copies_erased", s.selfCopies),
    ("dead_instructions_erased", s.dead)]

/-- A function's part of the report. -/
def json (s : FunctionStatistics) : String :=
  let lines := ("      \"function\": " ++ Text.jsonString s.function) ::
    s.fields.map fun (name, n) => s!"      \"{name}\": {n}"
  "    \x7b\n" ++ ",\n".intercalate lines ++ "\n    \x7d"

end FunctionStatistics

namespace PassStatistics

/-- The reads replaced in all functions. -/
def replacedReads (s : PassStatistics) : Nat :=
  Sequence.total (s.functions.map fun f => f.replacedReads)

/-- The copies of a local to itself erased in all functions. -/
def selfCopies (s : PassStatistics) : Nat :=
  Sequence.total (s.functions.map fun f => f.selfCopies)

/-- The dead instructions erased in all functions. -/
def dead (s : PassStatistics) : Nat := Sequence.total (s.functions.map fun f => f.dead)

/-- The report. -/
def json (s : PassStatistics) : String :=
  let functions :=
    if s.functions.isEmpty then "[]"
    else "[\n" ++ ",\n".intercalate (s.functions.map fun f => f.json) ++ "\n  ]"
  "\x7b\n  \"contract\": " ++ Text.jsonString s.contract ++ ",\n  \"functions\": " ++ functions
    ++ "\n\x7d"

end PassStatistics

end ContractIR
