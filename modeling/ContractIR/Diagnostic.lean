import ContractIR.Handle
import ContractIR.Kind
import ContractIR.Opcode.Shape
import ContractIR.Text.Quoted
/-!
# Diagnostics

An edit that would break one of the structural rules is refused. `Cause`
lists the reasons, each with what its message needs; `Cause.kind` says which
rule it protects and `Cause.message` is the one place where the wording
stands. A `Fault` is either a refusal or a misuse: a plain query put to a
handle it cannot answer for, which callers rule out beforehand.
-/

namespace ContractIR

/-- The rule a diagnostic reports. -/
inductive DiagnosticKind
  | ownershipViolation
  | malformedInstruction
  | malformedName
  | unresolvedControlFlow
  | unsupported
deriving DecidableEq, Repr

namespace DiagnosticKind

/-- Every kind of diagnostic. -/
def all : List DiagnosticKind :=
  [ownershipViolation, malformedInstruction, malformedName, unresolvedControlFlow, unsupported]

/-- The kind's identifier. -/
def name : DiagnosticKind → String
  | ownershipViolation => "OwnershipViolation"
  | malformedInstruction => "MalformedInstruction"
  | malformedName => "MalformedName"
  | unresolvedControlFlow => "UnresolvedControlFlow"
  | unsupported => "Unsupported"

/-- The kind with a given identifier. -/
def ofName? (s : String) : Option DiagnosticKind := all.find? fun k => k.name == s

/-- The kind in running text. -/
def text : DiagnosticKind → String
  | ownershipViolation => "ownership violation"
  | malformedInstruction => "malformed instruction"
  | malformedName => "malformed name"
  | unresolvedControlFlow => "unresolved control flow"
  | unsupported => "unsupported construct"

/-- The words a diagnostic of this kind starts with. -/
def heading : DiagnosticKind → String
  | ownershipViolation => "Ownership violation"
  | malformedInstruction => "Malformed instruction"
  | malformedName => "Malformed name"
  | unresolvedControlFlow => "Unresolved control flow"
  | unsupported => "Unsupported"

end DiagnosticKind

/-- A diagnostic: the rule and what happened. -/
structure Diagnostic where
  /-- The rule. -/
  kind : DiagnosticKind
  /-- What happened, without the heading. -/
  message : String
deriving DecidableEq, Repr

/-- The full text of a diagnostic. -/
def Diagnostic.text (d : Diagnostic) : String := d.kind.heading ++ ": " ++ d.message

/-- The groups of opcodes that have an instruction form of their own. -/
inductive Family
  | unary
  | binary
  | ternary
  | intrinsic
deriving DecidableEq, Repr

namespace Family

/-- The opcodes of the family. -/
def contains : Family → Opcode → Bool
  | unary, op => op.isUnary
  | binary, op => op.isBinary
  | ternary, op => op.isTernary
  | intrinsic, op => op.isIntrinsic

/-- What a member of the family is called. -/
def text : Family → String
  | unary => "a unary operation"
  | binary => "a binary operation"
  | ternary => "a ternary operation"
  | intrinsic => "an intrinsic"

end Family

/-- How many topics a log entry can carry. -/
def maxLogTopics : Nat := 4

/-- Why an edit or an analysis is refused. -/
inductive Cause
  /-- The value comes from another context. -/
  | foreignValue (value : ValueId)
  /-- The instruction is gone, or comes from another context. -/
  | deadInstruction (inst : InstId)
  /-- The named insertion point is not in the list. -/
  | strangePoint (point owner : String)
  /-- The value has an owner already. -/
  | alreadyOwned (kind : Kind) (name owner : String)
  /-- The contract would end up inside itself. -/
  | selfNesting (name : String)
  /-- The value is not in its owner's list. -/
  | notMember (kind : Kind) (name owner : String)
  /-- The value has no owner. -/
  | noParent (kind : Kind) (name : String)
  /-- The positions are not all in the member list. -/
  | memberRange (start stop length : Nat)
  /-- An insertion point was given, but no function. -/
  | pointWithoutFunction
  /-- The positions are not all in the block. -/
  | instructionRange (start stop length : Nat)
  /-- The insertion point is one of the instructions to be moved. -/
  | pointInRange
  /-- The insertion point is in no block. -/
  | detachedPoint (inst : InstId)
  /-- The instruction is in a block already. -/
  | alreadyPlaced (inst : InstId)
  /-- The instruction is in no block. -/
  | notPlaced (inst : InstId)
  /-- The instruction refers to something of another function. -/
  | outsider (kind : Kind) (name : String) (opcode : Opcode) (function : String)
  /-- The opcode does not take that many results. -/
  | resultCount (opcode : Opcode) (arity : Arity) (count : Nat)
  /-- The opcode does not take that many operands. -/
  | operandCount (opcode : Opcode) (arity : Arity) (count : Nat)
  /-- A branch must end in a block. -/
  | targetNotBlock
  /-- There is no operand at that position. -/
  | operandIndex (index : Nat) (opcode : Opcode) (count : Nat)
  /-- The opcode is not of the family the form asks for. -/
  | wrongFamily (opcode : Opcode) (family : Family)
  /-- A log entry has too many topics. -/
  | topicCount (count : Nat)
  /-- A static call was given a value to transfer. -/
  | staticTransfer
  /-- An account call was given no value to transfer. -/
  | missingTransfer
  /-- A branch has neither one operand nor two. -/
  | branchOperands (count : Nat)
  /-- A branch leads to something that is not a block. -/
  | branchTarget (block : String)
  /-- A branch leads out of the function. -/
  | strayBranch (block target function : String)
  /-- The name holds a NUL character. -/
  | nulInName (name : String)
  /-- Constants have no names. -/
  | namedConstant
  /-- The value cannot be used in the role. -/
  | wrongKind (kind : Kind) (name : String)
  /-- A value of this kind keeps no such list. -/
  | noList (kind : Kind) (list : MemberList)
  /-- The owner's list does not take a value of this kind. -/
  | cannotHold (owner member : Kind) (list : MemberList)
  /-- A range cannot be moved within one list. -/
  | sameList
  /-- Values of this kind are in no list. -/
  | neverHeld (kind : Kind)
deriving DecidableEq, Repr

namespace Cause

/-- The rule that a cause reports. -/
def kind : Cause → DiagnosticKind
  | foreignValue .. | deadInstruction .. | strangePoint .. | alreadyOwned .. | selfNesting ..
  | notMember .. | noParent .. | memberRange .. | pointWithoutFunction | instructionRange ..
  | pointInRange | detachedPoint .. | alreadyPlaced .. | notPlaced .. | outsider .. =>
    .ownershipViolation
  | resultCount .. | operandCount .. | targetNotBlock | operandIndex .. | wrongFamily ..
  | topicCount .. | staticTransfer | missingTransfer | branchOperands .. | branchTarget .. =>
    .malformedInstruction
  | nulInName .. => .malformedName
  | strayBranch .. => .unresolvedControlFlow
  | namedConstant | wrongKind .. | noList .. | cannotHold .. | sameList | neverHeld .. =>
    .unsupported

/-- The wording of every cause. -/
def message : Cause → String
  | foreignValue v => s!"value {v.text} belongs to a different context"
  | deadInstruction i => s!"instruction {i.text} is erased or belongs to another context"
  | strangePoint point owner => s!"insertion point '{point}' is not a member of '{owner}'"
  | alreadyOwned k name owner => s!"{k.text} '{name}' already belongs to '{owner}'"
  | selfNesting name => s!"contract '{name}' cannot be nested inside itself"
  | notMember k name owner => s!"{k.text} '{name}' is not a member of '{owner}'"
  | noParent k name => s!"{k.text} '{name}' has no parent"
  | memberRange start stop length =>
    s!"transfer range {Text.range start stop} out of bounds for a list of {length} members"
  | pointWithoutFunction => "cannot insert a block before another block without a function"
  | instructionRange start stop length =>
    s!"transfer range {Text.range start stop} out of bounds for a block of {length} instructions"
  | pointInRange => "insertion point lies inside the moved range"
  | detachedPoint i => s!"insertion point {i.text} is not in a block"
  | alreadyPlaced i => s!"instruction {i.text} already belongs to a block"
  | notPlaced i => s!"instruction {i.text} has no parent block"
  | outsider k name op function =>
    s!"{k.text} '{name}' used by '{op.text}' does not belong to function '{function}'"
  | resultCount op arity count => s!"'{op.text}' takes {arity.text} results, got {count}"
  | operandCount op arity count => s!"'{op.text}' takes {arity.text} operands, got {count}"
  | targetNotBlock => "branch target must be a block"
  | operandIndex index op count =>
    s!"operand index {index} out of range for '{op.text}' with {count} operands"
  | wrongFamily op family => s!"'{op.text}' is not {family.text}"
  | topicCount count => s!"'log' takes at most {maxLogTopics} topics, got {count}"
  | staticTransfer => "a static call cannot transfer value"
  | missingTransfer => "an account call needs a transfer value"
  | branchOperands count => s!"'br' with {count} operands"
  | branchTarget block => s!"branch in '{block}' does not target a block"
  | strayBranch block target function =>
    s!"branch in '{block}' targets '{target}', which is not a block of '{function}'"
  | nulInName name => s!"name {Text.quoted name} contains a NUL byte"
  | namedConstant => "integer constants cannot be named"
  | wrongKind k name => s!"{k.text} '{name}' has the wrong kind for this use"
  | noList k list => s!"a {k.text} has no {list.name} list"
  | cannotHold owner member list =>
    s!"a {owner.text} cannot hold a {member.text} in its {list.name} list"
  | sameList => "cannot transfer a range into the list it came from"
  | neverHeld k => s!"a {k.text} is never held in a container"

/-- The diagnostic a cause is reported as. -/
def diagnostic (c : Cause) : Diagnostic := ⟨c.kind, c.message⟩

end Cause

/-- How an operation can fail. -/
inductive Fault
  /-- The operation was refused, and says why. -/
  | refused (cause : Cause)
  /-- A plain query was put to a handle it cannot answer for. -/
  | misuse
deriving DecidableEq, Repr

variable {m : Type → Type} [MonadExceptOf Fault m] {α : Type}

/-- Fails with a cause. -/
def refuse (c : Cause) : m α := throw (Fault.refused c)

/-- Fails because a query was misused. -/
def misuse : m α := throw Fault.misuse

end ContractIR
