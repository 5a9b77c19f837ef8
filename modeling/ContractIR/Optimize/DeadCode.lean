import ContractIR.Context.Placement
import ContractIR.Flow.Liveness
/-!
# Dead code elimination

An instruction is dead if it has results and none of them is live after it,
and if leaving it out cannot be noticed otherwise: calls, intrinsics and
operations that may stop the run always stay. Instructions in no node of the
flow graph are unreachable, so none of their results is live.
-/

namespace ContractIR

/-- Whether an instruction can be left out. -/
def Context.isDead (ctx : Context) (l : Liveness) (i : InstId) : Except Fault Bool := do
  let x ← ctx.readInst i
  if x.opcode.mayHaveSideEffects || x.results.isEmpty then
    return false
  else
    let live ← l.hasLiveResult ctx i
    return !live

namespace Edit

open Context

/-- Erases the dead ones among some instructions, and counts them. -/
def eraseDead (l : Liveness) : List InstId → Edit Nat
  | [] => pure 0
  | i :: rest => do
    let ctx ← context
    let dead ← ctx.isDead l i
    if dead then
      let text ← ctx.instText i
      note (.deadInstruction text)
      let _ ← eraseInst i
      let others ← eraseDead l rest
      return others + 1
    else
      eraseDead l rest

/-- Erases the dead instructions of some blocks, and counts them. -/
def eraseDeadIn (l : Liveness) : List ValueId → Edit Nat
  | [] => pure 0
  | block :: blocks => do
    let ctx ← context
    let body ← ctx.readBody block
    let here ← eraseDead l body
    let others ← eraseDeadIn l blocks
    return here + others

/-- Erases the dead instructions of a function, and counts them. -/
def eliminateDeadCode (function : ValueId) (l : Liveness) : Edit Nat := do
  let ctx ← context
  let x ← ctx.read function
  eraseDeadIn l (x.members .blocks)

end Edit

end ContractIR
