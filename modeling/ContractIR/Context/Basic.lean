import ContractIR.Diagnostic
import ContractIR.Instruction.Basic
import ContractIR.Value
/-!
# Contexts

A context owns every value and every instruction of one compilation. Values
and instructions are numbered in the order of their creation and are never
renumbered; an erased instruction leaves an empty place. Constants are
interned: a context holds one constant per integer.

Two kinds of question are put to a context. `own` and `ownInst` refuse a
handle the context does not hold, as edits do. `read` and `readInst` take it
for granted that the context holds the handle, as plain queries do.
-/

namespace ContractIR

/-- The values and instructions of one compilation. -/
structure Context where
  /-- The identity that its handles carry. -/
  id : ContextId
  /-- Its values, in the order of creation. -/
  values : Array Value := #[]
  /-- Its instructions, in the order of creation. -/
  instructions : Array (Option Cell) := #[]
  /-- The constant of each integer asked for so far. -/
  constants : Std.ExtTreeMap Int ValueId := ∅
  /-- Its contracts, nested ones included, in the order of creation. -/
  contracts : List ValueId := []
deriving DecidableEq

namespace Context

variable (ctx : Context)

/-! ## Values -/

/-- The value of a handle, if the context holds it. -/
def value? (v : ValueId) : Option Value :=
  if v.context = ctx.id then ctx.values[v.index]? else none

/-- Whether the context holds a value. -/
def ownsValue (v : ValueId) : Bool := (ctx.value? v).isSome

/-- The value of a handle; a handle of another context is refused. -/
def own (v : ValueId) : Except Fault Value :=
  match ctx.value? v with
  | some x => .ok x
  | none => refuse (.foreignValue v)

/-- The value of a handle that the context holds. -/
def read (v : ValueId) : Except Fault Value :=
  match ctx.value? v with
  | some x => .ok x
  | none => misuse

/-- The kind of a value. -/
def kind? (v : ValueId) : Option Kind := (ctx.value? v).map Value.kind

/-- The name of a value, empty when it has none. -/
def nameOf (v : ValueId) : String := ((ctx.value? v).map Value.label).getD ""

/-- The contract or function a value is a member of. -/
def parent? (v : ValueId) : Option ValueId := (ctx.value? v).bind Value.parent

/-- The parent of a value, if it is of the given kind. -/
def parentOfKind? (k : Kind) (v : ValueId) : Option ValueId :=
  (ctx.parent? v).filter fun p => ctx.kind? p = some k

/-- The members of an owner. -/
def members (owner : ValueId) (list : MemberList) : List ValueId :=
  ((ctx.value? owner).map fun x => x.members list).getD []

/-- Whether a value is a local: a variable or an argument. -/
def isLocal (v : ValueId) : Bool := (ctx.kind? v).any Kind.isLocal

/-- The value, if it can be used in a role; a foreign handle and an unfit
value are refused. -/
def cast (role : Role) (v : ValueId) : Except Fault ValueId := do
  let x ← ctx.own v
  if role.admits x.kind then pure v else refuse (.wrongKind x.kind x.label)

/-- Changes the value of a handle that the context holds. -/
def update (v : ValueId) (f : Value → Value) : Context :=
  if v.context = ctx.id then { ctx with values := ctx.values.modify v.index f } else ctx

/-- The handle of the next value. -/
def nextValue : ValueId := ⟨ctx.id, ctx.values.size⟩

/-- Adds a value without name and parent, under `nextValue`. -/
def push (payload : Payload) : Context := { ctx with values := ctx.values.push { payload } }

/-! ## Instructions -/

/-- The instruction of a handle and its neighbours, if the context holds it
and it was not erased. -/
def cell? (i : InstId) : Option Cell :=
  if i.context = ctx.id then ctx.instructions[i.index]?.join else none

/-- The instruction of a handle, if the context holds it and it was not
erased. -/
def inst? (i : InstId) : Option Instruction := (ctx.cell? i).map Cell.instruction

/-- Whether the context holds an instruction. -/
def ownsInst (i : InstId) : Bool := (ctx.inst? i).isSome

/-- The instruction of a handle; an erased or foreign one is refused. -/
def ownInst (i : InstId) : Except Fault Instruction :=
  match ctx.inst? i with
  | some x => .ok x
  | none => refuse (.deadInstruction i)

/-- The instruction of a handle that the context holds. -/
def readInst (i : InstId) : Except Fault Instruction :=
  match ctx.inst? i with
  | some x => .ok x
  | none => misuse

/-- The instructions of a block that the context holds. -/
def readBody (b : ValueId) : Except Fault (List InstId) := do
  let x ← ctx.read b
  match x.block? with
  | some is => .ok is
  | none => misuse

/-- What a block holds; nothing for anything else. -/
def block (b : ValueId) : BlockBody := ((ctx.value? b).bind Value.block?).getD {}

/-- The instructions of a block; none for anything else. -/
def body (b : ValueId) : List InstId := ctx.block b

/-- The first instruction of a block. -/
def firstInst? (b : ValueId) : Option InstId := (ctx.block b).head?

/-- The last instruction of a block. -/
def lastInst? (b : ValueId) : Option InstId := (ctx.block b).getLast?

/-- How many instructions a block has. -/
def instCount (b : ValueId) : Nat := (ctx.block b).length

/-- The instruction after another in its block. -/
def nextInst? (i : InstId) : Option InstId := (ctx.cell? i).bind Cell.next

/-- The instruction before another in its block. -/
def prevInst? (i : InstId) : Option InstId := (ctx.cell? i).bind Cell.prev

/-- The block a branch leads to: its last operand. -/
def target? (x : Instruction) : Option ValueId :=
  if x.opcode = .br then x.operands.getLast?.filter fun v => ctx.kind? v = some .block else none

/-- Whether the last instruction of a block is a return. -/
def endsWithRet (body : BlockBody) : Bool :=
  (body.getLast?.bind ctx.inst?).any fun x => x.opcode == .ret

/-- Changes or empties the place of an instruction that the context holds. -/
def updateCell (i : InstId) (f : Cell → Option Cell) : Context :=
  if i.context = ctx.id then
    { ctx with instructions := ctx.instructions.modify i.index fun c => c.bind f }
  else ctx

/-- Changes the instruction of a handle that the context holds; its
neighbours stay. -/
def updateInst (i : InstId) (f : Instruction → Instruction) : Context :=
  ctx.updateCell i fun c => some { c with instruction := f c.instruction }

/-- The handle of the next instruction. -/
def nextInst : InstId := ⟨ctx.id, ctx.instructions.size⟩

/-- Fills the place of `nextInst`, or leaves it empty for good. A new
instruction has no neighbours. -/
def pushInst (x : Option Instruction) : Context :=
  { ctx with instructions := ctx.instructions.push (x.map fun x => { instruction := x }) }

/-! ## Constants -/

/-- The constant of an integer, created at the first request. That request
decides whether it is written in hexadecimal. -/
def intern (n : Int) (hex : Bool) : ValueId × Context :=
  match ctx.constants[n]? with
  | some v => (v, ctx)
  | none =>
    (ctx.nextValue,
      { ctx.push (.constant n hex) with constants := ctx.constants.insert n ctx.nextValue })

/-- How many constants the context holds. -/
def constantCount : Nat := ctx.constants.size

/-! ## Contracts and functions -/

/-- A contract's first function that a test picks out. -/
def findFunction? (contract : ValueId) (test : FunctionBody → Bool) : Option ValueId :=
  (ctx.members contract .functions).find? fun f =>
    ((ctx.value? f).bind Value.function?).any test

/-- The value itself and what encloses it, innermost first, up to `depth`
values. -/
def enclosingUpTo : Nat → ValueId → List ValueId
  | 0, _ => []
  | depth + 1, v =>
    match ctx.parent? v with
    | some p => v :: enclosingUpTo depth p
    | none => [v]

/-- The value itself and everything that encloses it, innermost first. A
context has no more values than it holds, and a chain of owners does not
come back to a value, so the number of values bounds its length. -/
def enclosing (v : ValueId) : List ValueId := ctx.enclosingUpTo ctx.values.size v

/-! ## What a change shows -/

variable {ctx}

theorem value?_update {v w : ValueId} {f : Value → Value} :
    (ctx.update v f).value? w = if w = v then (ctx.value? w).map f else ctx.value? w := by
  obtain ⟨vc, vi⟩ := v
  obtain ⟨wc, wi⟩ := w
  by_cases hv : vc = ctx.id
  · subst hv
    by_cases hw : wc = ctx.id
    · subst hw
      by_cases h : wi = vi
      · simp [update, value?, Array.getElem?_modify, h]
      · simp [update, value?, Array.getElem?_modify, h, Ne.symm h]
    · simp [update, value?, hw]
  · have h : ¬(wc = vc ∧ wc = ctx.id) := by
      rintro ⟨h, h'⟩
      exact hv (h ▸ h')
    by_cases hw : wc = ctx.id <;> simp_all [update, value?]

@[simp] theorem cell?_update {v : ValueId} {f : Value → Value} {i : InstId} :
    (ctx.update v f).cell? i = ctx.cell? i := by
  unfold update
  split <;> rfl

@[simp] theorem inst?_update {v : ValueId} {f : Value → Value} {i : InstId} :
    (ctx.update v f).inst? i = ctx.inst? i := by
  rw [inst?, inst?, cell?_update]

@[simp] theorem id_update {v : ValueId} {f : Value → Value} : (ctx.update v f).id = ctx.id := by
  unfold update
  split <;> rfl

@[simp] theorem instructions_update {v : ValueId} {f : Value → Value} :
    (ctx.update v f).instructions = ctx.instructions := by
  unfold update
  split <;> rfl

@[simp] theorem constants_update {v : ValueId} {f : Value → Value} :
    (ctx.update v f).constants = ctx.constants := by
  unfold update
  split <;> rfl

@[simp] theorem contracts_update {v : ValueId} {f : Value → Value} :
    (ctx.update v f).contracts = ctx.contracts := by
  unfold update
  split <;> rfl

theorem value?_push {payload : Payload} {w : ValueId} :
    (ctx.push payload).value? w =
      if w = ctx.nextValue then some { payload } else ctx.value? w := by
  obtain ⟨wc, wi⟩ := w
  by_cases hw : wc = ctx.id
  · subst hw
    by_cases h : wi = ctx.values.size
    · simp [push, value?, nextValue, h]
    · simp [push, value?, nextValue, h, Array.getElem?_push]
  · simp [push, value?, nextValue, hw]

theorem cell?_updateCell {i j : InstId} {f : Cell → Option Cell} :
    (ctx.updateCell i f).cell? j = if j = i then (ctx.cell? j).bind f else ctx.cell? j := by
  obtain ⟨ic, ii⟩ := i
  obtain ⟨jc, ji⟩ := j
  by_cases hi : ic = ctx.id
  · subst hi
    by_cases hj : jc = ctx.id
    · subst hj
      by_cases hij : ji = ii
      · subst hij
        cases hx : ctx.instructions[ji]? <;> simp [updateCell, cell?, Array.getElem?_modify, hx]
      · simp [updateCell, cell?, Array.getElem?_modify, hij, Ne.symm hij]
    · simp [updateCell, cell?, hj]
  · by_cases hj : jc = ctx.id
    · subst hj
      simp [updateCell, cell?, hi, Ne.symm hi]
    · simp [updateCell, cell?, hi, hj]

theorem inst?_updateInst {i j : InstId} {f : Instruction → Instruction} :
    (ctx.updateInst i f).inst? j = if j = i then (ctx.inst? j).map f else ctx.inst? j := by
  rw [updateInst, inst?, inst?, cell?_updateCell]
  split
  · cases ctx.cell? j <;> rfl
  · rfl

@[simp] theorem value?_updateCell {i : InstId} {f : Cell → Option Cell} {v : ValueId} :
    (ctx.updateCell i f).value? v = ctx.value? v := by
  unfold updateCell
  split <;> rfl

@[simp] theorem value?_updateInst {i : InstId} {f : Instruction → Instruction} {v : ValueId} :
    (ctx.updateInst i f).value? v = ctx.value? v :=
  value?_updateCell

@[simp] theorem id_updateCell {i : InstId} {f : Cell → Option Cell} :
    (ctx.updateCell i f).id = ctx.id := by
  unfold updateCell
  split <;> rfl

@[simp] theorem constants_updateCell {i : InstId} {f : Cell → Option Cell} :
    (ctx.updateCell i f).constants = ctx.constants := by
  unfold updateCell
  split <;> rfl

@[simp] theorem contracts_updateCell {i : InstId} {f : Cell → Option Cell} :
    (ctx.updateCell i f).contracts = ctx.contracts := by
  unfold updateCell
  split <;> rfl

/-- Contexts that show the same values and have the rest in common are one. -/
theorem eq_of_value? {ctx' : Context} (id : ctx'.id = ctx.id) (values : ctx'.value? = ctx.value?)
    (instructions : ctx'.instructions = ctx.instructions)
    (constants : ctx'.constants = ctx.constants) (contracts : ctx'.contracts = ctx.contracts) :
    ctx' = ctx := by
  obtain ⟨i, vs, is, ks, cs⟩ := ctx
  obtain ⟨i', vs', is', ks', cs'⟩ := ctx'
  obtain rfl : i' = i := id
  have hvalues : vs' = vs := by
    refine Array.ext_getElem? fun k => ?_
    simpa [value?] using congrFun values ⟨i', k⟩
  obtain rfl : is' = is := instructions
  obtain rfl : ks' = ks := constants
  obtain rfl : cs' = cs := contracts
  rw [hvalues]

end Context

end ContractIR
