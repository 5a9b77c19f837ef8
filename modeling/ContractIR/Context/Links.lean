import ContractIR.Context.Basic
/-!
# Links between instructions

The instructions of a block are threaded: each keeps its two neighbours, and
the block keeps its ends and its length. Threading an instruction into a
block and out of it rewrites the links on either side of it, and where there
is no instruction on a side, the block's end there.
-/

namespace ContractIR

namespace Context

variable (ctx : Context)

/-- Makes an instruction, or the end of the block, what follows another one;
where nothing precedes it, it is what the block starts with. -/
def joinNext (block : ValueId) (prev next : Option InstId) : Context :=
  match prev with
  | some p => ctx.updateCell p fun c => some { c with next }
  | none => ctx.update block fun x => x.mapBlock fun b => { b with head? := next }

/-- Makes an instruction, or the start of the block, what precedes another
one; where nothing follows it, it is what the block ends with. -/
def joinPrev (block : ValueId) (prev next : Option InstId) : Context :=
  match next with
  | some n => ctx.updateCell n fun c => some { c with prev }
  | none => ctx.update block fun x => x.mapBlock fun b => { b with getLast? := prev }

/-- What precedes a place in a block: the place before a given instruction,
or the end. -/
def preceding? (block : ValueId) (before : Option InstId) : Option InstId :=
  match before with
  | some n => ctx.prevInst? n
  | none => ctx.lastInst? block

/-- Threads an instruction into a block, before a given one or at the end. -/
def link (i : InstId) (block : ValueId) (before : Option InstId) : Context :=
  let prev := ctx.preceding? block before
  let own := ctx.updateCell i fun c => some { c with prev, next := before }
  let joined := (own.joinNext block prev (some i)).joinPrev block (some i) before
  joined.update block fun x => x.mapBlock fun b => { b with length := b.length + 1 }

/-- Threads an instruction out of a block: its neighbours become each
other's, and it has none. -/
def unlink (i : InstId) (block : ValueId) : Context :=
  let prev := ctx.prevInst? i
  let next := ctx.nextInst? i
  let joined := (ctx.joinNext block prev next).joinPrev block prev next
  let shrunk := joined.update block fun x => x.mapBlock fun b => { b with length := b.length - 1 }
  shrunk.updateCell i fun c => some { c with prev := none, next := none }

end Context

end ContractIR
