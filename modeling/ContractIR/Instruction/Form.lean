import ContractIR.Context.Placement
/-!
# Instruction forms

A form is an instruction by meaning: it says what each part is for, where an
instruction has only results and operands. `Form.parts` lays a form out; the
order of operands it fixes is the one that assembly text and the analyses
rely on, with the target of a branch last.
-/

namespace ContractIR

/-- What a contract account is created from. -/
inductive CreationSource
  /-- A contract of this compilation. -/
  | contract (contract : ValueId)
  /-- The code found at an account. -/
  | copy (address : ValueId)
deriving DecidableEq, Repr

/-- An instruction by meaning. -/
inductive Form
  /-- Return nothing. -/
  | retVoid
  /-- Return values. -/
  | ret (values : List ValueId)
  /-- Undo and stop, with a status. -/
  | revert (status : ValueId)
  /-- Delete the account in favour of another. -/
  | selfdestruct (beneficiary : ValueId)
  /-- Go to a block. -/
  | jump (target : ValueId)
  /-- Go to a block if the condition is not zero. -/
  | branch (condition target : ValueId)
  /-- Copy a value into a local. -/
  | assign (result value : ValueId)
  /-- An operation on one value. -/
  | unary (op : Opcode) (result operand : ValueId)
  /-- An operation on two values. -/
  | binary (op : Opcode) (result lhs rhs : ValueId)
  /-- An operation on three values. -/
  | ternary (op : Opcode) (result first second third : ValueId)
  /-- Read storage. -/
  | sload (result address : ValueId)
  /-- Write storage. -/
  | sstore (value address : ValueId)
  /-- Read a memory cell. -/
  | load (result address : ValueId)
  /-- Read some bytes of a memory cell. -/
  | loadSlice (result address offset width : ValueId)
  /-- Write a memory cell. -/
  | store (value address : ValueId)
  /-- Write some bytes of a memory cell. -/
  | storeSlice (value address offset width : ValueId)
  /-- Emit a log entry. -/
  | log (data : ValueId) (topics : List ValueId)
  /-- Call a function of the same contract. -/
  | call (results : List ValueId) (callee : ValueId) (args : List ValueId)
  /-- Call a function of another account. -/
  | accountCall (isStatic : Bool) (status : ValueId) (results : List ValueId)
      (callee address : ValueId) (transfer : Option ValueId) (gas : ValueId)
      (args : List ValueId)
  /-- Take the address of a function for a later account call. -/
  | callAddress (result callee address : ValueId)
  /-- Create a contract account. -/
  | create (status account : ValueId) (source : CreationSource) (transfer : ValueId)
      (args : List ValueId)
  /-- Ask the machine, and keep the answer or not. -/
  | intrinsic (op : Opcode) (result : Option ValueId) (args : List ValueId)
deriving DecidableEq, Repr

/-- An instruction laid out. -/
structure Parts where
  /-- What it does. -/
  opcode : Opcode
  /-- The locals it writes. -/
  results : List ValueId
  /-- The values it reads or refers to. -/
  operands : List ValueId
deriving DecidableEq, Repr

namespace Form

/-- Refuses an opcode that is not of the family. -/
def ofFamily (family : Family) (op : Opcode) (parts : Parts) : Except Fault Parts :=
  if family.contains op then .ok parts else refuse (.wrongFamily op family)

/-- The layout of a form, or why the form is malformed. -/
def parts : Form → Except Fault Parts
  | retVoid => .ok ⟨.ret, [], []⟩
  | ret values => .ok ⟨.ret, [], values⟩
  | revert status => .ok ⟨.revert, [], [status]⟩
  | selfdestruct beneficiary => .ok ⟨.selfdestruct, [], [beneficiary]⟩
  | jump target => .ok ⟨.br, [], [target]⟩
  | branch condition target => .ok ⟨.br, [], [condition, target]⟩
  | assign result value => .ok ⟨.assign, [result], [value]⟩
  | unary op result operand => ofFamily .unary op ⟨op, [result], [operand]⟩
  | binary op result lhs rhs => ofFamily .binary op ⟨op, [result], [lhs, rhs]⟩
  | ternary op result first second third =>
    ofFamily .ternary op ⟨op, [result], [first, second, third]⟩
  | sload result address => .ok ⟨.sload, [result], [address]⟩
  | sstore value address => .ok ⟨.sstore, [], [value, address]⟩
  | load result address => .ok ⟨.load, [result], [address]⟩
  | loadSlice result address offset width => .ok ⟨.load, [result], [address, offset, width]⟩
  | store value address => .ok ⟨.store, [], [value, address]⟩
  | storeSlice value address offset width => .ok ⟨.store, [], [value, address, offset, width]⟩
  | log data topics =>
    if maxLogTopics < topics.length then refuse (.topicCount topics.length)
    else .ok ⟨.log, [], data :: topics⟩
  | call results callee args => .ok ⟨.call, results, callee :: args⟩
  | accountCall isStatic status results callee address transfer gas args =>
    match isStatic, transfer with
    | false, some transfer =>
      .ok ⟨.callAt, status :: results, callee :: address :: transfer :: gas :: args⟩
    | true, none => .ok ⟨.staticCallAt, status :: results, callee :: address :: gas :: args⟩
    | true, some _ => refuse .staticTransfer
    | false, none => refuse .missingTransfer
  | callAddress result callee address => .ok ⟨.callAddress, [result], [callee, address]⟩
  | create status account (.contract contract) transfer args =>
    .ok ⟨.create, [status, account], contract :: transfer :: args⟩
  | create status account (.copy address) transfer args =>
    .ok ⟨.copyCreate, [status, account], address :: transfer :: args⟩
  | intrinsic op result args => ofFamily .intrinsic op ⟨op, result.toList, args⟩

end Form

/-- Creates an instruction of a form and places it. -/
def Edit.createForm (form : Form) (point : Point) : Edit InstId := do
  let parts ← form.parts
  createInst parts.opcode parts.results parts.operands point

end ContractIR
