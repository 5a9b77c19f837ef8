import ContractIR.Optimize.Pass
import ContractIR.Proofs.Flow.LivePaths
import ContractIR.Proofs.Texts
/-!
# Graphs and live sets can be written out

To write out a graph or its live sets is to ask for the names of blocks and
locals, and to ask for one that the context does not hold is a misuse. In the
context the graph was built from this does not happen: its nodes are pieces of
blocks of the function, and what is live somewhere is read somewhere. So once a
graph is built, its analysis has a result, whether or not it is traced.
-/

namespace ContractIR

open Context LiveNode

variable {ctx : Context} {f v : ValueId} {g : FlowGraph} {l : Liveness} {n : GraphNode} {k : Nat}

namespace FlowGraph

/-- A graph is of the function it was built from. -/
theorem function_of_build (h : Sound ctx) (hg : (build ctx f).outcome = .ok g) :
    g.function = f := by
  rw [outcome_build h (ownsValue_of_build hg)] at hg
  cases hedges : ctx.graphEdges (ctx.graphNodes (ctx.members f .blocks)) f
      (ctx.members f .blocks) with
  | error fault =>
    rw [hedges] at hg
    cases hg
  | ok edges =>
    rw [hedges] at hg
    rw [← Except.ok.inj hg]
    rfl

/-- A node has a name: its block is a block of the function. -/
theorem exists_nodeName (h : Sound ctx) (hg : g.Built ctx (ctx.members f .blocks))
    (hn : n ∈ g.nodes) : ∃ name, nodeName ctx n = .ok name := by
  rw [hg.nodes] at hn
  obtain ⟨b, hb, hnb⟩ := List.mem_flatMap.1 hn
  obtain ⟨x, hx⟩ := Option.isSome_iff_exists.1 (h.membered.owned hb)
  rw [nodeName, block_of_mem_nodesOf hnb, read_eq_ok.2 hx]
  exact ⟨_, rfl⟩

theorem exists_nodeNames (h : Sound ctx) (hg : g.Built ctx (ctx.members f .blocks))
    (ks : NodeSet) : ∃ names, g.nodeNames ctx ks = .ok names := by
  have hname : ∀ n ∈ ks.toList.filterMap fun k => g.nodes[k]?, ∃ name,
      nodeName ctx n = .ok name := by
    intro n hn
    obtain ⟨k, -, hk⟩ := List.mem_filterMap.1 hn
    exact exists_nodeName h hg (List.mem_of_getElem? hk)
  obtain ⟨names, hnames, -⟩ := exists_mapM_eq_ok hname
  exact ⟨names, hnames⟩

/-- **A graph has a text.** -/
theorem exists_text (h : Sound ctx) (hg : g.Built ctx (ctx.members f .blocks))
    (hf : ctx.ownsValue g.function) : ∃ text, g.text ctx = .ok text := by
  obtain ⟨x, hx⟩ := Option.isSome_iff_exists.1 hf
  have hnode : ∀ node ∈ g.nodes.zipIdx, ∃ text, g.nodeText ctx node = .ok text := by
    intro node hnode
    obtain ⟨name, hname⟩ := exists_nodeName h hg (List.fst_mem_of_mem_zipIdx hnode)
    obtain ⟨successors, hsuccessors⟩ := exists_nodeNames h hg (g.successorsOf node.2)
    obtain ⟨predecessors, hpredecessors⟩ := exists_nodeNames h hg (g.predecessorsOf node.2)
    simp only [nodeText, hname, hsuccessors, hpredecessors, ok_bind]
    exact ⟨_, rfl⟩
  obtain ⟨texts, htexts, -⟩ := exists_mapM_eq_ok hnode
  simp only [text, read_eq_ok.2 hx, htexts, ok_bind]
  exact ⟨_, rfl⟩

end FlowGraph

namespace Liveness

/-- **What is live is a local of the context**: the least sets hold only what
is read. -/
theorem Describes.isLocal_of_liveIn (h : l.Describes ctx g) (hv : v ∈ valuesAt l.liveIn k) :
    ctx.isLocal v := by
  refine h.least (P := fun _ v => ctx.isLocal v) (fun {j n} out _ hout w hw => ?_) hv
  rcases Access.mem_of_beforeAll hw with ⟨a, ha, hread⟩ | hw
  · obtain ⟨i, -, rfl⟩ := List.mem_map.1 ha
    exact (mem_reads_accessOf.1 hread).1
  · obtain ⟨m, -, hlocal⟩ := hout w hw
    exact hlocal

theorem Describes.isLocal_of_liveOut (h : l.Describes ctx g) (hn : g.nodes[k]? = some n)
    (hv : v ∈ valuesAt l.liveOut k) : ctx.isLocal v := by
  obtain ⟨m, -, hm⟩ := (h.liveOut hn v).1 hv
  exact h.isLocal_of_liveIn hm

/-- Locals of the context have names. -/
theorem exists_names {live : ValueSet} (h : ∀ v ∈ live, ctx.isLocal v) :
    ∃ names, Liveness.names ctx live = .ok names := by
  have hname : ∀ v ∈ live.toList, ∃ name,
      (do let x ← ctx.read v; return x.label : Except Fault String) = .ok name := by
    intro v hv
    obtain ⟨x, hx⟩ := Option.isSome_iff_exists.1
      (ownsValue_of_isLocal (h v (Std.ExtTreeSet.mem_toList.1 hv)))
    exact ⟨x.label, by rw [read_eq_ok.2 hx]; rfl⟩
  obtain ⟨names, hnames, -⟩ := exists_mapM_eq_ok hname
  exact ⟨names, hnames⟩

theorem setAt_eq_ok {sets : Array ValueSet} (h : k < sets.size) :
    setAt sets k = .ok (valuesAt sets k) := by
  rw [setAt, valuesAt, Array.getElem?_eq_getElem h]
  rfl

/-- **The sets at the nodes of a graph can be noted.** -/
theorem outcome_noteSets (h : Sound ctx) (hg : g.Built ctx (ctx.members f .blocks))
    (hl : l.Describes ctx g) {nodes : List (GraphNode × Nat)}
    (hnodes : ∀ p ∈ nodes, g.nodes[p.2]? = some p.1) :
    (l.noteSets ctx nodes).outcome = .ok () := by
  induction nodes with
  | nil => rfl
  | cons p nodes ih =>
    obtain ⟨n, k⟩ := p
    have hn : g.nodes[k]? = some n := hnodes (n, k) List.mem_cons_self
    have hk : k < g.nodes.length := (List.getElem?_eq_some_iff.1 hn).1
    obtain ⟨name, hname⟩ := FlowGraph.exists_nodeName h hg (List.mem_of_getElem? hn)
    have hstarting : setAt l.liveIn k = .ok (valuesAt l.liveIn k) :=
      setAt_eq_ok (by rw [hl.size]; exact hk)
    have hending : setAt l.liveOut k = .ok (valuesAt l.liveOut k) :=
      setAt_eq_ok (by rw [hl.sizeOut]; exact hk)
    obtain ⟨ins, hins⟩ := exists_names fun v (hv : v ∈ valuesAt l.liveIn k) =>
      hl.isLocal_of_liveIn hv
    obtain ⟨outs, houts⟩ := exists_names fun v (hv : v ∈ valuesAt l.liveOut k) =>
      hl.isLocal_of_liveOut hn hv
    have hrest := ih fun q hq => hnodes q (List.mem_cons_of_mem _ hq)
    simp only [noteSets, Report.outcome_bind, Report.outcome_liftM, hname, hstarting, hending,
      hins, houts, ok_bind, Report.outcome_note, hrest]

end Liveness

/-- **The analysis of a graph that was built has a result.** -/
theorem Edit.exists_analyze (h : Sound ctx) (hg : (FlowGraph.build ctx f).outcome = .ok g)
    (trace : Bool) : ∃ l, (analyze ctx g trace).outcome = .ok l := by
  have hbuilt := FlowGraph.built_of_build h hg
  have hf : ctx.ownsValue g.function := by
    rw [FlowGraph.function_of_build h hg]
    exact FlowGraph.ownsValue_of_build hg
  obtain ⟨x, hx⟩ := Option.isSome_iff_exists.1 hf
  obtain ⟨l, hl, hdescribes⟩ := Liveness.compute_of_built h hbuilt
  obtain ⟨text, htext⟩ := FlowGraph.exists_text h hbuilt hf
  have hreport : (Liveness.report ctx g true).outcome = .ok l := by
    simp only [Liveness.report, Report.heard, Liveness.noteSweeps, Report.outcome_bind,
      Report.outcome_liftM, hl, ok_bind, if_true, read_eq_ok.2 hx, Report.outcome_note,
      Report.outcome_pure]
  have hnotes : (l.noteSets ctx g.nodes.zipIdx).outcome = .ok () :=
    Liveness.outcome_noteSets h hbuilt hdescribes fun p hp => List.mem_zipIdx_iff_getElem?.1 hp
  refine ⟨l, ?_⟩
  unfold analyze
  split
  · simp only [Report.outcome_bind, Report.outcome_liftM, htext, Report.outcome_note, ok_bind,
      hreport, Liveness.trace, Report.heard, if_true, hnotes, Report.outcome_pure]
  · exact hreport

end ContractIR
