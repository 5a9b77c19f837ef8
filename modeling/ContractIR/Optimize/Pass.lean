import ContractIR.Optimize.Copy
import ContractIR.Optimize.DeadCode
import ContractIR.Optimize.Statistics
/-!
# The optimizer

A function is optimized by propagating the copies of its blocks, computing
liveness on its flow graph, and erasing what is dead. A contract is
optimized function by function; the first failure ends the run and leaves
what was done before it.
-/

namespace ContractIR

/-- What the optimizer is to do. -/
structure OptimizerOptions where
  /-- Propagate copies first. -/
  copyPropagation : Bool := true
  /-- Erase dead instructions. -/
  deadCodeElimination : Bool := true
  /-- Note the flow graph and the live sets. -/
  traceLiveness : Bool := false
deriving DecidableEq, Repr

namespace Edit

open Context

/-- The liveness of a graph. On request, the graph and the live sets are
noted. The graph is one of the context itself, so every name is at hand
whether or not anybody listens. -/
def analyze (ctx : Context) (g : FlowGraph) (trace : Bool) : Report Liveness :=
  if trace then do
    let text ← g.text ctx
    Report.note (.graphText text)
    let l ← Liveness.report ctx g true
    l.trace ctx g true
    return l
  else
    Liveness.report ctx g true

/-- Propagates the copies of some blocks, if this is wanted. -/
def copyStage (options : OptimizerOptions) (blocks : List ValueId) : Edit CopyTally :=
  if options.copyPropagation then propagateAllCopies blocks else pure {}

/-- Erases the dead instructions of a function, if this is wanted. -/
def deadStage (options : OptimizerOptions) (function : ValueId) (l : Liveness) : Edit Nat :=
  if options.deadCodeElimination then eliminateDeadCode function l else pure 0

/-- Optimizes one function. -/
def optimizeFunction (function : ValueId) (options : OptimizerOptions) :
    Edit FunctionStatistics := do
  let ctx ← context
  let x ← ctx.read function
  let copies ← copyStage options (x.members .blocks)
  let ctx ← context
  let g ← FlowGraph.build ctx function
  let l ← analyze ctx g options.traceLiveness
  let dead ← deadStage options function l
  note (.optimizedFunction x.label copies.replacedReads copies.selfCopies dead)
  return {
    function := x.label
    nodes := g.size
    edges := g.edgeCount
    sweeps := l.sweeps
    replacedReads := copies.replacedReads
    selfCopies := copies.selfCopies
    dead }

/-- Optimizes functions one after the other. -/
def optimizeFunctions (options : OptimizerOptions) :
    List ValueId → Edit (List FunctionStatistics)
  | [] => pure []
  | function :: functions => do
    let statistics ← optimizeFunction function options
    let others ← optimizeFunctions options functions
    return statistics :: others

/-- Optimizes every function of a contract. -/
def optimizeContract (contract : ValueId) (options : OptimizerOptions) :
    Edit PassStatistics := do
  let ctx ← context
  let x ← ctx.read contract
  let functions ← optimizeFunctions options (x.members .functions)
  let statistics : PassStatistics := { contract := x.label, functions }
  note (.optimizedContract x.label statistics.dead functions.length)
  return statistics

end Edit

end ContractIR
