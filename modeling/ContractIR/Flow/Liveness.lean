import ContractIR.Flow.Graph
/-!
# Liveness

A local is live where its value may still be read. Going backward over an
instruction, what it writes is no longer live and what it reads is; at the
end of a node everything is live that is live at the start of a successor.

The sets at the starts of the nodes are found by sweeps over all nodes, each
sweep using the sets found so far, until a sweep changes nothing. A sweep
that changes something makes some local live at one more node, so there are
fewer such sweeps than pairs of a node and a read, and that number bounds
the search.
-/

namespace ContractIR

/-- What an instruction writes and which locals it reads. -/
structure Access where
  /-- The locals written. -/
  writes : List ValueId
  /-- The locals read. -/
  reads : List ValueId
deriving DecidableEq, Repr

namespace Access

/-- What is live before an instruction, given what is live after it. -/
def before (a : Access) (after : ValueSet) : ValueSet :=
  a.reads.foldl (fun s v => s.insert v) (a.writes.foldl (fun s v => s.erase v) after)

/-- What is live before a run of instructions. -/
def beforeAll (accesses : List Access) (after : ValueSet) : ValueSet :=
  accesses.foldr before after

end Access

/-- A node as liveness sees it: its instructions and its successors. -/
structure LiveNode where
  /-- What each instruction of the node writes and reads. -/
  accesses : List (InstId × Access)
  /-- The nodes it leads to. -/
  successors : NodeSet
deriving DecidableEq

namespace LiveNode

/-- What is live at the end of a node, given what is live at the starts. -/
def liveOut (n : LiveNode) (starts : Array ValueSet) : ValueSet :=
  n.successors.toList.foldl (fun s k => s ∪ starts[k]?.getD ∅) ∅

/-- What is live at the start of a node. -/
def liveIn (n : LiveNode) (starts : Array ValueSet) : ValueSet :=
  Access.beforeAll (n.accesses.map Prod.snd) (n.liveOut starts)

/-- Looks at one node: replaces the set at its start and says whether that
changed it. -/
def visit (state : Array ValueSet × Bool) (node : LiveNode × Nat) : Array ValueSet × Bool :=
  let live := node.1.liveIn state.1
  if state.1[node.2]? = some live then state else (state.1.setIfInBounds node.2 live, true)

/-- Looks at every node once. -/
def sweep (nodes : List LiveNode) (starts : Array ValueSet) : Array ValueSet × Bool :=
  nodes.zipIdx.foldl visit (starts, false)

/-- Sweeps until nothing changes, a bounded number of times; gives the sets
and the number of sweeps. -/
def settle (nodes : List LiveNode) : Nat → Array ValueSet → Array ValueSet × Nat
  | 0, starts => (starts, 0)
  | bound + 1, starts =>
    let (starts, changed) := sweep nodes starts
    if changed then
      let (starts, sweeps) := settle nodes bound starts
      (starts, sweeps + 1)
    else
      (starts, 1)

/-- How many reads there are. -/
def readCount (nodes : List LiveNode) : Nat :=
  Sequence.total (nodes.map fun n => Sequence.total (n.accesses.map fun a => a.2.reads.length))

/-- The sets at the starts of the nodes, and the number of sweeps that found
them. -/
def solve (nodes : List LiveNode) : Array ValueSet × Nat :=
  settle nodes (nodes.length * readCount nodes + 1) (Array.replicate nodes.length ∅)

/-- What is live before and after each instruction of a run. -/
def around (after : ValueSet) : List (InstId × Access) → List (InstId × ValueSet × ValueSet)
  | [] => []
  | (i, a) :: rest =>
    let live := Access.beforeAll (rest.map Prod.snd) after
    (i, a.before live, live) :: around after rest

end LiveNode

/-- What is live where in a function. -/
structure Liveness where
  /-- At the start of each node. -/
  liveIn : Array ValueSet
  /-- At the end of each node. -/
  liveOut : Array ValueSet
  /-- Before and after each instruction that is in a node. -/
  points : List (InstId × ValueSet × ValueSet)
  /-- How many sweeps it took. -/
  sweeps : Nat
deriving DecidableEq

namespace Context

variable (ctx : Context)

/-- What an instruction writes and reads. -/
def access (i : InstId) : Except Fault (InstId × Access) := do
  let x ← ctx.readInst i
  return (i, { writes := x.results, reads := x.operands.filter ctx.isLocal })

/-- The nodes of a graph as liveness sees them. -/
def liveNodes (g : FlowGraph) : Except Fault (List LiveNode) :=
  g.nodes.zipIdx.mapM fun (n, k) => do
    return { accesses := ← n.instructions.mapM ctx.access, successors := g.successorsOf k }

end Context

namespace Liveness

/-- The liveness of a graph, given what its nodes write and read. -/
def ofNodes (nodes : List LiveNode) : Liveness :=
  let (starts, sweeps) := LiveNode.solve nodes
  { liveIn := starts
    liveOut := (nodes.map fun n => n.liveOut starts).toArray
    points := nodes.flatMap fun n => LiveNode.around (n.liveOut starts) n.accesses
    sweeps }

/-- The liveness of a graph, for the instructions as they are now. -/
def compute (ctx : Context) (g : FlowGraph) : Except Fault Liveness := do
  return ofNodes (← ctx.liveNodes g)

variable (l : Liveness)

/-- What is live right before an instruction that is in a node. -/
def before? (i : InstId) : Option ValueSet :=
  (l.points.find? fun p => p.1 = i).map fun p => p.2.1

/-- What is live right after an instruction that is in a node. -/
def after? (i : InstId) : Option ValueSet :=
  (l.points.find? fun p => p.1 = i).map fun p => p.2.2

/-- Whether a result of an instruction is live after it; an instruction that
is in no node has no live result. -/
def hasLiveResult (ctx : Context) (i : InstId) : Except Fault Bool :=
  match l.after? i with
  | none => .ok false
  | some live => do
    let x ← ctx.readInst i
    return x.results.any fun v => live.contains v

/-- The names of live locals. -/
def names (ctx : Context) (live : ValueSet) : Except Fault (List String) :=
  live.toList.mapM fun v => do
    let x ← ctx.read v
    return x.label

/-- The set at a node; the node must be one the sets were computed for. -/
def setAt (sets : Array ValueSet) (k : Nat) : Except Fault ValueSet :=
  match sets[k]? with
  | some s => .ok s
  | none => misuse

/-- Notes the sets at some nodes of a graph. -/
def noteSets (ctx : Context) : List (GraphNode × Nat) → Report Unit
  | [] => pure ()
  | (n, k) :: nodes => do
    let name ← FlowGraph.nodeName ctx n
    let starting ← setAt l.liveIn k
    let ending ← setAt l.liveOut k
    Report.note (.liveSets name (← names ctx starting) (← names ctx ending))
    noteSets ctx nodes

/-- Tells a listener the sets at every node of a graph. -/
def trace (ctx : Context) (g : FlowGraph) (listening : Bool) : Report Unit :=
  Report.heard listening (l.noteSets ctx g.nodes.zipIdx)

/-- Notes how many sweeps it took. -/
def noteSweeps (ctx : Context) (g : FlowGraph) : Report Unit := do
  let x ← ctx.read g.function
  Report.note (.liveness x.label l.sweeps)

/-- Computes the liveness of a graph and tells a listener how many sweeps it
took. -/
def report (ctx : Context) (g : FlowGraph) (listening : Bool) : Report Liveness := do
  let l ← compute ctx g
  Report.heard listening (l.noteSweeps ctx g)
  return l

end Liveness

end ContractIR
