import ContractIR.Context.Placement
/-!
# Copy propagation

A copy `%a = %b` between locals lets later reads of `%a` in the same block
read `%b` instead, until one of the two is written again. A copy of a local
to itself does nothing and is erased.

One sweep takes the instructions front to back and forwards each copy to all
instructions behind it. Sweeps are repeated until one changes nothing. A
replaced read takes its value from a definition further up than before, and
an erased copy makes the block shorter; so a block with `n` instructions and
`m` operands is stable after `n + m * n` sweeps that change something, and
that number bounds the repetition.
-/

namespace ContractIR

/-- What copy propagation did. -/
structure CopyTally where
  /-- Reads that were replaced. -/
  replacedReads : Nat := 0
  /-- Copies of a local to itself that were erased. -/
  selfCopies : Nat := 0
deriving DecidableEq, Repr

namespace CopyTally

/-- Counts both. -/
def add (s t : CopyTally) : CopyTally :=
  ⟨s.replacedReads + t.replacedReads, s.selfCopies + t.selfCopies⟩

instance : Add CopyTally := ⟨add⟩

/-- Whether nothing was done. -/
def isZero (t : CopyTally) : Bool := t.replacedReads == 0 && t.selfCopies == 0

end CopyTally

/-- The positions at which an instruction has a value as operand. -/
def Instruction.positionsOf (x : Instruction) (v : ValueId) : List Nat :=
  (x.operands.zipIdx.filter fun p => p.1 = v).map Prod.snd

namespace Context

variable (ctx : Context)

/-- The target and the source of a copy between locals. -/
def localCopy? (x : Instruction) : Option (ValueId × ValueId) :=
  match x.opcode, x.results, x.operands with
  | .assign, target :: _, source :: _ => if ctx.isLocal source then some (target, source) else none
  | _, _, _ => none

/-- How often copy propagation can find something to do in a block. -/
def copyBound (block : ValueId) : Nat :=
  let body := (ctx.body block).filterMap ctx.inst?
  body.length + Sequence.total (body.map fun x => x.operands.length) * body.length

end Context

namespace Edit

open Context

/-- Replaces the operands at some positions. -/
def replaceOperands (i : InstId) (v : ValueId) : List Nat → Edit Unit
  | [] => pure ()
  | k :: ks => do
    setOperand i k v
    replaceOperands i v ks

/-- Lets instructions read the source of a copy instead of its target, up to
the first that writes one of them; says how many reads were replaced. An
instruction may read the old value and write it at once. -/
def forwardCopy (target source : ValueId) : List InstId → Edit Nat
  | [] => pure 0
  | i :: rest => do
    let ctx ← context
    let x ← ctx.readInst i
    let reads := x.positionsOf target
    replaceOperands i source reads
    if target ∈ x.results ∨ source ∈ x.results then
      return reads.length
    else
      let others ← forwardCopy target source rest
      return reads.length + others

/-- Notes a copy that was forwarded to some reads. -/
def noteForwarded (target source : ValueId) (reads : Nat) : Edit Unit := do
  let ctx ← context
  if reads = 0 then pure ()
  else note (.forwarded (ctx.nameOf target) (ctx.nameOf source))

/-- One sweep over instructions of a block, front to back. -/
def sweepCopies : List InstId → Edit CopyTally
  | [] => pure {}
  | i :: rest => do
    let ctx ← context
    let x ← ctx.readInst i
    match ctx.localCopy? x with
    | none => sweepCopies rest
    | some (target, source) =>
      if target = source then
        note (.selfCopy (ctx.nameOf target))
        let _ ← eraseInst i
        let others ← sweepCopies rest
        return { selfCopies := 1 } + others
      else
        let reads ← forwardCopy target source rest
        noteForwarded target source reads
        let others ← sweepCopies rest
        return { replacedReads := reads } + others

/-- Sweeps until nothing changes, a bounded number of times. -/
def settleCopies (block : ValueId) : Nat → Edit CopyTally
  | 0 => pure {}
  | bound + 1 => do
    let ctx ← context
    let body ← ctx.readBody block
    let tally ← sweepCopies body
    if tally.isZero then
      return tally
    else
      let others ← settleCopies block bound
      return tally + others

/-- Propagates the copies of a block until it is stable. -/
def propagateCopies (block : ValueId) : Edit CopyTally := do
  let ctx ← context
  settleCopies block (ctx.copyBound block + 1)

/-- Propagates the copies of several blocks. -/
def propagateAllCopies : List ValueId → Edit CopyTally
  | [] => pure {}
  | block :: blocks => do
    let tally ← propagateCopies block
    let others ← propagateAllCopies blocks
    return tally + others

end Edit

end ContractIR
