import ContractIR.Context.Create
import ContractIR.Instruction.Form
import ContractIR.Optimize.Pass
/-!
# Operations

Everything that can be done to a context, as one type. A program that works
on a context performs a sequence of operations, each with handles fit for
the roles it uses them in, and the contexts that can arise are exactly those
such a sequence leads to: `Reachable` says so for a context that starts out
empty. An operation may fail; the context it leaves is reachable all the
same.
-/

namespace ContractIR

/-- Something that can be done to a context. -/
inductive Operation
  /-- Ask for the constant of an integer. -/
  | constant (value : Int) (hex : Bool)
  /-- Create a contract. -/
  | createContract (name : String)
  /-- Create a contract nested in another. -/
  | createSubcontract (name : String) (parent : ValueId)
  /-- Create a storage slot. -/
  | createGlobal (name : String) (contract : Option ValueId)
  /-- Create a function. -/
  | createFunction (isPublic : Bool) (name : String) (contract : Option ValueId)
  /-- Create a constructor. -/
  | createInitFunction (contract : Option ValueId)
  /-- Create an entry point for deposits. -/
  | createDepositFunction (isPublic : Bool) (contract : Option ValueId)
  /-- Create a block. -/
  | createBlock (name : String) (function before : Option ValueId)
  /-- Create an argument. -/
  | createArgument (name : String) (function : Option ValueId)
  /-- Create a local variable. -/
  | createLocal (name : String) (function : Option ValueId)
  /-- Put a value into a list of members. -/
  | insert (list : MemberList) (owner member : ValueId) (before : Option ValueId)
  /-- Take a value away from its owner. -/
  | detach (value : ValueId)
  /-- Move a run of members to another owner. -/
  | transfer (list : MovableList) (source target : ValueId) (start stop : Nat)
      (before : Option ValueId)
  /-- Rename a value. -/
  | setName (value : ValueId) (name : String)
  /-- Set a flag of a function. -/
  | setFlag (function : ValueId) (flag : FunctionFlag) (value : Bool)
  /-- Set the metadata of a contract. -/
  | setMetadata (contract : ValueId) (metadata : List UInt8)
  /-- Set the address of a storage slot. -/
  | setStorageAddress (slot address : ValueId)
  /-- Create an instruction from its parts. -/
  | createInst (opcode : Opcode) (results operands : List ValueId) (point : Point)
  /-- Create an instruction of a form. -/
  | createForm (form : Form) (point : Point)
  /-- Put an instruction into a block. -/
  | insertInst (inst : InstId) (point : Point)
  /-- Take an instruction out of its block. -/
  | removeInst (inst : InstId)
  /-- Destroy an instruction. -/
  | eraseInst (inst : InstId)
  /-- Replace an operand. -/
  | setOperand (inst : InstId) (index : Nat) (value : ValueId)
  /-- Move a run of instructions. -/
  | transferInsts (source : ValueId) (start stop : Nat) (point : Point)
  /-- Propagate the copies of a block. -/
  | propagateCopies (block : ValueId)
  /-- Erase the dead instructions of a function. -/
  | eliminateDeadCode (function : ValueId) (liveness : Liveness)
  /-- Optimize a function. -/
  | optimizeFunction (function : ValueId) (options : OptimizerOptions)
  /-- Optimize a contract. -/
  | optimizeContract (contract : ValueId) (options : OptimizerOptions)

/-- What an operation answers. -/
inductive Answer
  /-- Nothing but that it was done. -/
  | done
  /-- A value. -/
  | value (v : ValueId)
  /-- An instruction. -/
  | inst (i : InstId)
  /-- The instruction that followed, if any. -/
  | next (i : Option InstId)
  /-- What copy propagation did. -/
  | copies (tally : CopyTally)
  /-- How many instructions were erased. -/
  | erased (count : Nat)
  /-- What the optimizer did in a function. -/
  | function (statistics : FunctionStatistics)
  /-- What the optimizer did in a contract. -/
  | contract (statistics : PassStatistics)

namespace Operation

open Edit

/-- An edit that answers only that it was done. -/
def carriedOut (e : Edit Unit) : Edit Answer := (fun _ => .done) <$> e

/-- Does an operation. -/
def perform : Operation → Edit Answer
  | constant n hex => .value <$> Edit.constant n hex
  | createContract name => .value <$> Edit.createContract name
  | createSubcontract name parent => .value <$> Edit.createSubcontract name parent
  | createGlobal name contract => .value <$> Edit.createGlobal name contract
  | createFunction isPublic name contract => .value <$> Edit.createFunction isPublic name contract
  | createInitFunction contract => .value <$> Edit.createInitFunction contract
  | createDepositFunction isPublic contract =>
    .value <$> Edit.createDepositFunction isPublic contract
  | createBlock name function before => .value <$> Edit.createBlock name function before
  | createArgument name function => .value <$> Edit.createArgument name function
  | createLocal name function => .value <$> Edit.createLocal name function
  | insert list owner member before => carriedOut <| insertMember owner list member before
  | detach value => carriedOut <| Edit.detach value
  | transfer list source target start stop before =>
    carriedOut <| transferMembers list.list source target start stop before
  | setName value name => carriedOut <| Edit.setName value name
  | setFlag function flag value => carriedOut <| Edit.setFlag function flag value
  | setMetadata contract metadata => carriedOut <| Edit.setMetadata contract metadata
  | setStorageAddress slot address => carriedOut <| Edit.setStorageAddress slot address
  | createInst opcode results operands point =>
    .inst <$> Edit.createInst opcode results operands point
  | createForm form point => .inst <$> Edit.createForm form point
  | insertInst inst point => carriedOut <| Edit.insertInst inst point
  | removeInst inst => carriedOut <| unplace inst
  | eraseInst inst => .next <$> Edit.eraseInst inst
  | setOperand inst index value => carriedOut <| Edit.setOperand inst index value
  | transferInsts source start stop point => carriedOut <| Edit.transferInsts source start stop point
  | propagateCopies block => .copies <$> Edit.propagateCopies block
  | eliminateDeadCode function liveness => .erased <$> Edit.eliminateDeadCode function liveness
  | optimizeFunction function options => .function <$> Edit.optimizeFunction function options
  | optimizeContract contract options => .contract <$> Edit.optimizeContract contract options

end Operation

/-! ## Roles

Each handle that an operation is given is meant for a role. A handle of
another context got its role there, so a context asks nothing of it. -/

/-- Whether a handle is fit for a role, as far as a context can tell. -/
def Context.fits (ctx : Context) (role : Role) (v : ValueId) : Bool :=
  (ctx.kind? v).all role.admits

/-- A role and the handle meant for it. -/
abbrev Use := Role × ValueId

/-- The handles of an insertion point that are values. -/
def Point.uses : Point → List Use
  | before _ => []
  | atEnd block => [(.block, block)]

namespace Form

/-- Locals that an instruction writes. -/
def targets (vs : List ValueId) : List Use := vs.map fun v => (.localValue, v)

/-- Values of any kind. -/
def values (vs : List ValueId) : List Use := vs.map fun v => (.value, v)

/-- The handles of a form, each with its role. -/
def uses : Form → List Use
  | retVoid => []
  | ret vs => values vs
  | revert v | selfdestruct v => values [v]
  | jump target => [(.block, target)]
  | branch condition target => [(.value, condition), (.block, target)]
  | assign result v | unary _ result v | sload result v | load result v =>
    targets [result] ++ values [v]
  | binary _ result lhs rhs => targets [result] ++ values [lhs, rhs]
  | ternary _ result first second third => targets [result] ++ values [first, second, third]
  | sstore v address | store v address => values [v, address]
  | loadSlice result address offset width => targets [result] ++ values [address, offset, width]
  | storeSlice v address offset width => values [v, address, offset, width]
  | log data topics => values (data :: topics)
  | call results callee args => targets results ++ (.function, callee) :: values args
  | accountCall _ status results callee address transfer gas args =>
    targets (status :: results) ++ (.function, callee) ::
      values (address :: transfer.toList ++ gas :: args)
  | callAddress result callee address =>
    targets [result] ++ (.function, callee) :: values [address]
  | create status account (.contract contract) transfer args =>
    targets [status, account] ++ (.contract, contract) :: values (transfer :: args)
  | create status account (.copy address) transfer args =>
    targets [status, account] ++ values (address :: transfer :: args)
  | intrinsic _ result args => targets result.toList ++ values args

end Form

namespace Operation

/-- A handle that may be left out. -/
def given (role : Role) (v : Option ValueId) : List Use := v.toList.map fun v => (role, v)

/-- The handles of an operation that are values, each with its role. -/
def uses : Operation → List Use
  | constant .. | createContract _ | removeInst _ | eraseInst _ => []
  | createSubcontract _ parent => [(.contract, parent)]
  | createGlobal _ contract | createFunction _ _ contract | createInitFunction contract
  | createDepositFunction _ contract => given .contract contract
  | createBlock _ function before => given .function function ++ given .block before
  | createArgument _ function | createLocal _ function => given .function function
  | insert list owner member before =>
    (list.ownerRole, owner) :: (list.memberRole, member) :: given list.memberRole before
  | detach v | setName v _ => [(.value, v)]
  | transfer list source target _ _ before =>
    (list.list.ownerRole, source) :: (list.list.ownerRole, target) ::
      given list.list.memberRole before
  | setFlag function _ _ | eliminateDeadCode function _ | optimizeFunction function _ =>
    [(.function, function)]
  | setMetadata contract _ | optimizeContract contract _ => [(.contract, contract)]
  | setStorageAddress slot address => [(.global, slot), (.constant, address)]
  | createInst _ results operands point =>
    Form.targets results ++ Form.values operands ++ point.uses
  | createForm form point => form.uses ++ point.uses
  | insertInst _ point => point.uses
  | setOperand _ _ v => [(.value, v)]
  | transferInsts source _ _ point => (.block, source) :: point.uses
  | propagateCopies block => [(.block, block)]

/-- Whether every handle of an operation is fit for its role. -/
def typed (ctx : Context) (operation : Operation) : Bool :=
  operation.uses.all fun u => ctx.fits u.1 u.2

end Operation

/-! ## Reachable contexts -/

/-- The contexts that operations lead to from an empty one, if each is given
handles fit for their roles. -/
inductive Reachable : Context → Prop
  /-- A new context is empty. -/
  | empty (id : ContextId) : Reachable { id }
  /-- An operation leads on, whether it fails or not. -/
  | step {ctx : Context} (operation : Operation) (fit : operation.typed ctx) :
      Reachable ctx → Reachable (operation.perform.run ctx).context

end ContractIR
