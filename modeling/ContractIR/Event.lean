import ContractIR.Diagnostic
/-!
# Events

Edits and analyses note what they do. An `Event` is such a note as data;
its level and its wording are read off it, so what is noted and how it is
worded can be looked at separately.
-/

namespace ContractIR

/-- How much an event matters. -/
inductive Level
  | trace
  | debug
  | info
deriving DecidableEq, Repr

/-- The level's label. -/
def Level.text : Level → String
  | trace => "TRACE"
  | debug => "DEBUG"
  | info => "INFO"

/-- What an edit or an analysis did. -/
inductive Event
  /-- A contract was created. -/
  | createdContract (name : String)
  /-- A name was taken, so another was used. -/
  | renamedSymbol (name used : String)
  /-- An owned value got another name. -/
  | renamed (kind : Kind) (old new : Option String)
  /-- A value was put into a member list. -/
  | inserted (kind : Kind) (name owner : String)
  /-- A value was taken out of a member list. -/
  | removed (kind : Kind) (name owner : String)
  /-- A run of members changed owner. -/
  | transferred (count : Nat) (source target : String)
  /-- An instruction was created and placed. -/
  | createdInstruction (opcode : Opcode) (inst : InstId)
  /-- An instruction was erased. -/
  | erasedInstruction (inst : InstId)
  /-- The flow graph got a node. -/
  | graphNode (node : Nat) (block : ValueId) (first last : Nat)
  /-- Instructions follow an unconditional terminator. -/
  | unreachable (count : Nat) (block : String)
  /-- A flow graph was built. -/
  | builtGraph (function : String) (nodes edges : Nat)
  /-- A flow graph, written out. -/
  | graphText (text : String)
  /-- Liveness reached its fixed point. -/
  | liveness (function : String) (sweeps : Nat)
  /-- The live sets at one node. -/
  | liveSets (node : String) (starting ending : List String)
  /-- A copy of a local to itself is about to be erased. -/
  | selfCopy (name : String)
  /-- Reads of a copy's target were replaced by reads of its source. -/
  | forwarded (target source : String)
  /-- A dead instruction is about to be erased. -/
  | deadInstruction (text : String)
  /-- A function was optimized. -/
  | optimizedFunction (function : String) (operands copies dead : Nat)
  /-- A contract was optimized. -/
  | optimizedContract (contract : String) (dead functions : Nat)
deriving DecidableEq, Repr

namespace Event

/-- The level of an event. -/
def level : Event → Level
  | createdContract .. | transferred .. | builtGraph .. | liveness .. | optimizedFunction .. =>
    .debug
  | optimizedContract .. => .info
  | _ => .trace

/-- The wording of every event. -/
def message : Event → String
  | createdContract name => s!"created contract '{name}'"
  | renamedSymbol name used => s!"symbol '{name}' already taken, renamed to '{used}'"
  | renamed k old new => s!"renamed {k.text} {Text.quotedOption old} -> {Text.quotedOption new}"
  | inserted k name owner => s!"inserted {k.text} '{name}' into '{owner}'"
  | removed k name owner => s!"removed {k.text} '{name}' from '{owner}'"
  | transferred count source target =>
    s!"transferred {count} members from '{source}' to '{target}'"
  | createdInstruction op i => s!"created {op.text} instruction {i.text}"
  | erasedInstruction i => s!"erased instruction {i.text}"
  | graphNode node block first last =>
    s!"CFG node CfgNodeId({node}): block {block.text} [{first}..={last}]"
  | unreachable count block => s!"{count} unreachable instructions after terminator in '{block}'"
  | builtGraph function nodes edges =>
    s!"built CFG for '{function}': {nodes} nodes, {edges} edges"
  | graphText text => text
  | liveness function sweeps => s!"liveness for '{function}' converged after {sweeps} sweeps"
  | liveSets node starting ending =>
    node ++ ": IN \x7b" ++ ", ".intercalate starting ++ "\x7d OUT \x7b"
      ++ ", ".intercalate ending ++ "\x7d"
  | selfCopy name => s!"erasing self-copy of %{name}"
  | forwarded target source => s!"forwarded %{target} = %{source}"
  | deadInstruction text => s!"erasing dead '{text}'"
  | optimizedFunction function operands copies dead =>
    s!"optimized '{function}': {operands} operands forwarded, {copies} self-copies and " ++
      s!"{dead} dead instructions erased"
  | optimizedContract contract dead functions =>
    s!"dead code elimination on '{contract}': {dead} instructions erased in {functions} functions"

/-- An event as a line of a log. -/
def line (e : Event) : String := e.level.text ++ " " ++ e.message

end Event

end ContractIR
