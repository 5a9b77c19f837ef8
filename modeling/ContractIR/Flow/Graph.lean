import ContractIR.Assembly
import ContractIR.Report
import ContractIR.Sequence
/-!
# Flow graphs

A block may branch in its middle, so the graph of a function has a node per
straight-line piece of a block: a run of ordinary instructions, then a run
of conditional branches, then at most one instruction that ends the block's
control flow. What follows such an instruction in the block is unreachable
and belongs to no node; an empty block has one empty node.

A node leads to the blocks its closing branches name and, unless it ends the
control flow, to the piece that follows it. The closing branches of a node
are the branches at its very end.
-/

namespace ContractIR

/-- How control leaves an instruction. -/
inductive Exit
  /-- To the next instruction. -/
  | straight
  /-- To the next instruction or to another block. -/
  | conditional
  /-- Not to the next instruction. -/
  | final
deriving DecidableEq, Repr

/-- How control leaves an instruction; a branch has one operand or two. -/
def Instruction.exit (x : Instruction) : Except Fault Exit :=
  match x.opcode with
  | .ret | .revert => .ok .final
  | .br =>
    match x.operands.length with
    | 1 => .ok .final
    | 2 => .ok .conditional
    | n => refuse (.branchOperands n)
  | _ => .ok .straight

/-- A straight-line piece of a block. -/
structure GraphNode where
  /-- The block. -/
  block : ValueId
  /-- The position of the piece's first instruction in the block. -/
  first : Nat
  /-- The position of its last instruction. -/
  last : Nat
  /-- Its instructions; there are none only if the block is empty. -/
  instructions : List InstId
deriving DecidableEq, Repr

/-- A set of nodes, listed in increasing order. -/
abbrev NodeSet := Std.ExtTreeSet Nat

/-- The flow graph of a function. Nodes are numbered from zero, block by
block and front to back. -/
structure FlowGraph where
  /-- The function. -/
  function : ValueId
  /-- Its nodes. -/
  nodes : List GraphNode
  /-- Where each node leads. -/
  successors : Array NodeSet
  /-- From where each node is reached. -/
  predecessors : Array NodeSet
deriving DecidableEq

namespace Exit

variable {α : Type}

/-- Puts an element in front of the first piece. -/
def prepend (a : α) : List (List α) → List (List α)
  | [] => [[a]]
  | piece :: pieces => (a :: piece) :: pieces

/-- The straight-line pieces of a sequence. A piece ends after the element
where control flow ends, and what follows that element is dropped; it also
ends after a conditional branch that an ordinary instruction follows. -/
def pieces : List (α × Exit) → List (List α)
  | [] => []
  | (a, .final) :: _ => [[a]]
  | (a, .straight) :: rest => prepend a (pieces rest)
  | (a, .conditional) :: rest =>
    if rest.head?.map Prod.snd = some .straight then [a] :: pieces rest
    else prepend a (pieces rest)

/-- The nodes of the pieces of a block, the first of which starts at a given
position. -/
def nodesFrom (block : ValueId) : Nat → List (List InstId) → List GraphNode
  | _, [] => []
  | k, piece :: pieces =>
    ⟨block, k, k + piece.length - 1, piece⟩ :: nodesFrom block (k + piece.length) pieces

/-- The nodes of a block. -/
def blockNodes (block : ValueId) (body : List (InstId × Exit)) : List GraphNode :=
  if body.isEmpty then [⟨block, 0, 0, []⟩] else nodesFrom block 0 (pieces body)

/-- How many instructions the nodes cover. -/
def coverage (nodes : List GraphNode) : Nat :=
  Sequence.total (nodes.map fun n => n.instructions.length)

/-- The node that starts at a position of a block. -/
def nodeAt? (nodes : List GraphNode) (block : ValueId) (first : Nat) : Option Nat :=
  nodes.findIdx? fun n => n.block = block ∧ n.first = first

/-- Adds an edge to both maps. -/
def addEdge (maps : Array NodeSet × Array NodeSet) (edge : Nat × Nat) :
    Array NodeSet × Array NodeSet :=
  (maps.1.modify edge.1 fun s => s.insert edge.2, maps.2.modify edge.2 fun s => s.insert edge.1)

end Exit

namespace Context

open Exit

variable (ctx : Context)

/-- How control leaves an instruction of the context. -/
def instExit (i : InstId) : Except Fault (InstId × Exit) := do
  let x ← ctx.readInst i
  return (i, ← x.exit)

/-- How control leaves the instructions of a body, up to the one where control
flow ends; what follows that one is not looked at. -/
def bodyExits : List InstId → Except Fault (List (InstId × Exit))
  | [] => .ok []
  | i :: rest => do
    let here ← ctx.instExit i
    if here.2 = .final then
      return [here]
    else
      return here :: (← bodyExits rest)

/-- Notes nodes, the first of which has a given number. -/
def noteNodes : Nat → List GraphNode → Report Unit
  | _, [] => pure ()
  | k, n :: nodes => do
    Report.note (.graphNode k n.block n.first n.last)
    noteNodes (k + 1) nodes

/-- Notes instructions of a block that no node covers. -/
def noteUnreachable (block : ValueId) (count : Nat) : Report Unit :=
  if count = 0 then pure () else Report.note (.unreachable count (ctx.nameOf block))

/-- The nodes of one block, the first of which has a given number. -/
def splitBlock (k : Nat) (block : ValueId) : Report (List GraphNode) := do
  let body ← ctx.readBody block
  let nodes := blockNodes block (← ctx.bodyExits body)
  noteNodes k nodes
  ctx.noteUnreachable block (body.length - coverage nodes)
  return nodes

/-- The nodes of blocks, the first of which has a given number. -/
def splitBlocks : Nat → List ValueId → Report (List GraphNode)
  | _, [] => pure []
  | k, block :: blocks => do
    let nodes ← ctx.splitBlock k block
    let rest ← splitBlocks (k + nodes.length) blocks
    return nodes ++ rest

/-- The nodes that closing branches lead to. The instructions are given last
first, and the branches end at the first instruction that is none. -/
def branchTargets (nodes : List GraphNode) (function block : ValueId) :
    List InstId → Except Fault (List Nat)
  | [] => .ok []
  | i :: rest => do
    let x ← ctx.readInst i
    if x.opcode = .br then
      let _ ← x.exit
      match ctx.target? x with
      | none => refuse (.branchTarget (ctx.nameOf block))
      | some target =>
        match nodeAt? nodes target 0 with
        | none =>
          refuse (.strayBranch (ctx.nameOf block) (ctx.nameOf target) (ctx.nameOf function))
        | some n => return n :: (← branchTargets nodes function block rest)
    else
      return []

/-- Whether control can run past the end of a node. -/
def fallsThrough (n : GraphNode) : Except Fault Bool :=
  match n.instructions.getLast? with
  | none => .ok true
  | some i => do
    let (_, flow) ← ctx.instExit i
    return flow ≠ .final

/-- The node after another: the next piece of its block, or else the first
piece of the next block. -/
def followingNode? (nodes : List GraphNode) (blocks : List ValueId) (n : GraphNode) :
    Option Nat :=
  if !n.instructions.isEmpty ∧ n.last + 1 < ctx.instCount n.block then
    nodeAt? nodes n.block (n.last + 1)
  else
    (Sequence.next? n.block blocks).bind fun next => nodeAt? nodes next 0

/-- The edges that leave a node. -/
def nodeEdges (nodes : List GraphNode) (function : ValueId) (blocks : List ValueId)
    (node : GraphNode × Nat) : Except Fault (List (Nat × Nat)) := do
  let targets ← ctx.branchTargets nodes function node.1.block node.1.instructions.reverse
  let through ← ctx.fallsThrough node.1
  let following := if through then ctx.followingNode? nodes blocks node.1 else none
  return (targets ++ following.toList).map fun n => (node.2, n)

/-- The edges of a graph, given its nodes. -/
def graphEdges (nodes : List GraphNode) (function : ValueId) (blocks : List ValueId) :
    Except Fault (List (Nat × Nat)) := do
  let edges ← nodes.zipIdx.mapM (ctx.nodeEdges nodes function blocks)
  return edges.flatten

end Context

namespace FlowGraph

open Exit

/-- The graph with given nodes and edges. -/
def ofEdges (function : ValueId) (nodes : List GraphNode) (edges : List (Nat × Nat)) :
    FlowGraph :=
  let empty := Array.replicate nodes.length (∅ : NodeSet)
  let (successors, predecessors) := edges.foldl addEdge (empty, empty)
  { function, nodes, successors, predecessors }

variable (g : FlowGraph)

/-- How many nodes the graph has. -/
def size : Nat := g.nodes.length

/-- Where a node leads. -/
def successorsOf (k : Nat) : NodeSet := g.successors[k]?.getD ∅

/-- From where a node is reached. -/
def predecessorsOf (k : Nat) : NodeSet := g.predecessors[k]?.getD ∅

/-- How many edges the graph has. -/
def edgeCount : Nat := Sequence.total (g.successors.toList.map fun s => s.size)

/-- The node control starts at. -/
def entry? : Option Nat := if g.nodes.isEmpty then none else some 0

/-- The node that starts at a position of a block. -/
def nodeAt? (block : ValueId) (first : Nat) : Option Nat := Exit.nodeAt? g.nodes block first

/-- The nodes of a block, front to back. -/
def blockNodes (block : ValueId) : List Nat :=
  (List.range g.size).filter fun k => g.nodes[k]?.any fun n => n.block = block

/-- The flow graph of a function. It is refused if a closing branch leads to
a block of another function. -/
def build (ctx : Context) (function : ValueId) : Report FlowGraph := do
  let x ← ctx.read function
  let blocks := x.members .blocks
  let nodes ← ctx.splitBlocks 0 blocks
  let edges ← ctx.graphEdges nodes function blocks
  let g := ofEdges function nodes edges
  Report.note (.builtGraph x.label g.size g.edgeCount)
  return g

/-- The name of a node: its block and where it starts there. -/
def nodeName (ctx : Context) (n : GraphNode) : Except Fault String := do
  let x ← ctx.read n.block
  return s!"{x.label}_{n.first}"

/-- The names of some nodes. -/
def nodeNames (ctx : Context) (ks : NodeSet) : Except Fault (List String) :=
  (ks.toList.filterMap fun k => g.nodes[k]?).mapM (nodeName ctx)

/-- The lines about one node: its name, where it leads and from where it is
reached. -/
def nodeText (ctx : Context) (node : GraphNode × Nat) : Except Fault String := do
  let name ← nodeName ctx node.1
  let successors ← g.nodeNames ctx (g.successorsOf node.2)
  let predecessors ← g.nodeNames ctx (g.predecessorsOf node.2)
  return s!"  {name}\n    -> {Assembly.commas successors}\n    <- " ++
    s!"{Assembly.commas predecessors}\n"

/-- The graph as text, with the names its blocks have now. -/
def text (ctx : Context) : Except Fault String := do
  let x ← ctx.read g.function
  let nodes ← g.nodes.zipIdx.mapM (g.nodeText ctx)
  return s!"CFG for function {x.label}:\n" ++ String.join nodes

end FlowGraph

end ContractIR
