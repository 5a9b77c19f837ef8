import ContractIR.Proofs.Flow.Partition
/-!
# The two edge maps

A flow graph keeps its edges twice, by the node they leave and by the node
they reach. Both maps are filled from one list of edges, so they are mirror
images of each other. Every edge in them is one control can take: to the front
of the block that a branch of the node names, or past the end of the node to
what stands right behind it.
-/

namespace ContractIR

namespace Context

/-- **A node branches into another**: it holds a branch to the block at whose
front the other one starts. -/
def BranchesInto (ctx : Context) (n n' : GraphNode) : Prop :=
  (∃ i ∈ n.instructions, ∃ x, ctx.inst? i = some x ∧ x.opcode = .br ∧
    ctx.target? x = some n'.block) ∧ n'.first = 0

/-- **A node falls into another**: nothing ends its control flow, and the other
one starts right behind it in its block, or at the front of the next block if
the node reaches the end of its own. -/
def FallsInto (ctx : Context) (blocks : List ValueId) (n n' : GraphNode) : Prop :=
  (∀ z ∈ n.instructions.getLast?, ctx.isUnconditional z = false) ∧
    (n'.block = n.block ∧ n'.first = n.last + 1 ∨
      (ctx.body n.block).length ≤ n.last + 1 ∧
        Sequence.next? n.block blocks = some n'.block ∧ n'.first = 0)

end Context

namespace FlowGraph

open Exit Context

/-- The edges of a graph, in the order of the nodes they leave. -/
def edges (g : FlowGraph) : List (Nat × Nat) :=
  (List.range g.size).flatMap fun k => (g.successorsOf k).toList.map fun m => (k, m)

/-! ## Filling the maps -/

variable {f : ValueId} {nodes : List GraphNode} {es : List (Nat × Nat)} {k m : Nat}

/-- Adding edges treats the two maps alike: with the maps exchanged, it adds
the edges turned around. -/
theorem swap_foldl_addEdge (es : List (Nat × Nat)) (maps : Array NodeSet × Array NodeSet) :
    (es.foldl addEdge maps).swap = (es.map Prod.swap).foldl addEdge maps.swap := by
  induction es generalizing maps with
  | nil => rfl
  | cons e es ih => exact ih (addEdge maps e)

theorem size_foldl_addEdge (es : List (Nat × Nat)) (maps : Array NodeSet × Array NodeSet) :
    (es.foldl addEdge maps).1.size = maps.1.size := by
  induction es generalizing maps with
  | nil => rfl
  | cons e es ih =>
    rw [List.foldl_cons, ih]
    exact Array.size_modify

theorem size_successors_ofEdges : (ofEdges f nodes es).successors.size = nodes.length :=
  (size_foldl_addEdge es _).trans Array.size_replicate

theorem predecessors_ofEdges :
    (ofEdges f nodes es).predecessors = (ofEdges f nodes (es.map Prod.swap)).successors :=
  congrArg Prod.fst (swap_foldl_addEdge es _)

/-- **The predecessors of a node are the starts of its edges.** -/
theorem mem_predecessorsOf_ofEdges :
    k ∈ (ofEdges f nodes es).predecessorsOf m ↔ m < nodes.length ∧ (k, m) ∈ es := by
  have hmap : (ofEdges f nodes es).predecessorsOf m =
      (ofEdges f nodes (es.map Prod.swap)).successorsOf m := by
    rw [predecessorsOf, predecessors_ofEdges, successorsOf]
  rw [hmap, mem_successorsOf_ofEdges, List.mem_map]
  refine and_congr_right fun _ => ?_
  constructor
  · rintro ⟨⟨k', m'⟩, he, hswap⟩
    obtain ⟨rfl, rfl⟩ := Prod.mk.inj hswap
    exact he
  · exact fun he => ⟨(k, m), he, rfl⟩

/-! ## The edges of a built graph -/

variable {ctx : Context} {g : FlowGraph} {blocks : List ValueId} {n : GraphNode}

namespace Built

/-- A node that leads to another by a branch branches into it. -/
theorem exists_branchesInto (h : g.Built ctx blocks)
    (hm : ctx.BranchesTo g.nodes n.instructions (some m)) :
    ∃ n', g.nodes[m]? = some n' ∧ ctx.BranchesInto n n' := by
  obtain ⟨i, hi, t, ht, hfront⟩ := hm
  obtain ⟨n', hn', rfl, hfirst⟩ := h.nodeAt?_eq_some_iff.1 hfront
  obtain ⟨x, hx, hop⟩ := isBranch_iff.1 (isBranch_of_branchOf? ht)
  rw [branchOf?, hx] at ht
  exact ⟨n', hn', ⟨i, hi, x, hx, hop, ht⟩, hfirst⟩

/-- A node that leads to another because control can run past its end falls
into it. -/
theorem exists_fallsInto (h : g.Built ctx blocks) (hs : Sound ctx) {ns ms : List GraphNode}
    (hsplit : ctx.graphNodes blocks = ns ++ n :: ms) (hruns : ctx.RunsOn n.instructions)
    (hms : ms ≠ []) :
    ∃ n', g.nodes[ns.length + 1]? = some n' ∧ ctx.FallsInto blocks n n' := by
  have hn : n ∈ ctx.graphNodes blocks := by
    rw [hsplit]
    exact List.mem_append_right ns List.mem_cons_self
  have hopen : ∀ z ∈ n.instructions.getLast?, ctx.isUnconditional z = false := by
    intro z hz
    obtain ⟨x, hx⟩ := (streak_of_mem_graphNodes hs.threaded hn).1 z (List.mem_of_getLast? hz)
    have hflow := hruns z hz
    rw [Ne, ← isUnconditional_iff hs.shaped hx] at hflow
    exact Bool.eq_false_iff.2 hflow
  rcases next_node_cases h.nodup hsplit hruns with ⟨-, -, -, hnext⟩ | ⟨hend, hnext⟩
  · rw [← h.nodes] at hnext
    obtain ⟨n', hn', hblock, hfirst⟩ := h.nodeAt?_eq_some_iff.1 hnext
    exact ⟨n', hn', hopen, .inl ⟨hblock, hfirst⟩⟩
  · rw [if_neg hms, ← h.nodes] at hnext
    obtain ⟨c, hc, hfront⟩ := Option.bind_eq_some_iff.1 hnext
    obtain ⟨n', hn', rfl, hfirst⟩ := h.nodeAt?_eq_some_iff.1 hfront
    refine ⟨n', hn', hopen, .inr ⟨?_, hc, hfirst⟩⟩
    rcases hend with hempty | hle
    · -- an empty node is that of an empty block
      obtain ⟨b, -, hnb⟩ := List.mem_flatMap.1 hn
      rw [block_of_mem_nodesOf hnb]
      have hbody : ctx.body b = [] :=
        Classical.byContradiction fun hb => instructions_ne_nil hnb hb hempty
      rw [hbody]
      exact Nat.zero_le _
    · exact hle

/-- **Every edge is one control can take.** -/
theorem exists_of_mem_successorsOf (h : g.Built ctx blocks) (hs : Sound ctx)
    (hn : g.nodes[k]? = some n) (hm : m ∈ g.successorsOf k) :
    ∃ n', g.nodes[m]? = some n' ∧ (ctx.BranchesInto n n' ∨ ctx.FallsInto blocks n n') := by
  rw [h.nodes] at hn
  obtain ⟨ns, ms, hsplit, rfl⟩ := Exit.split_of_getElem? hn
  rcases (h.edges hsplit).1 hm with ⟨-, hbranch⟩ | ⟨hruns, hms, rfl⟩
  · obtain ⟨n', hn', hinto⟩ := h.exists_branchesInto hbranch
    exact ⟨n', hn', .inl hinto⟩
  · obtain ⟨n', hn', hinto⟩ := h.exists_fallsInto hs hsplit hruns hms
    exact ⟨n', hn', .inr hinto⟩

end Built

/-- **A graph is made of a list of edges between its nodes.** -/
theorem exists_edges_of_build (h : Sound ctx) (hg : (build ctx f).outcome = .ok g) :
    ∃ es, g = ofEdges f g.nodes es ∧ ∀ k m, (k, m) ∈ es → k < g.size ∧ m < g.size := by
  have hbuilt := built_of_build h hg
  have hlive : ∀ n ∈ g.nodes, ∀ i ∈ n.instructions, ∃ x, ctx.inst? i = some x := by
    rw [hbuilt.nodes]
    exact fun n hn => (streak_of_mem_graphNodes h.threaded hn).1
  rw [outcome_build h (ownsValue_of_build hg), ← hbuilt.nodes] at hg
  rcases graphEdges_cases h.shaped g.nodes f (ctx.members f .blocks) hlive with
    ⟨-, es, hes, hmem⟩ | ⟨-, fault, hfault, -⟩
  · rw [hes] at hg
    have hof : ofEdges f g.nodes es = g := Except.ok.inj hg
    refine ⟨es, hof.symm, fun k m he => ?_⟩
    obtain ⟨n, hn, -⟩ := (hmem k m).1 he
    have hk : k < g.size := (List.getElem?_eq_some_iff.1 hn).1
    have hm : m ∈ g.successorsOf k := by
      rw [← hof]
      exact mem_successorsOf_ofEdges.2 ⟨hk, he⟩
    obtain ⟨n', hn', -⟩ := hbuilt.exists_of_mem_successorsOf h hn hm
    exact ⟨hk, (List.getElem?_eq_some_iff.1 hn').1⟩
  · rw [hfault] at hg
    cases hg

/-! ## Counting edges -/

theorem mem_edges : (k, m) ∈ g.edges ↔ k < g.size ∧ m ∈ g.successorsOf k := by
  simp [edges]

/-- No edge is listed twice. -/
theorem nodup_edges (g : FlowGraph) : g.edges.Nodup := by
  refine List.nodup_flatMap.2 ⟨fun k _ => ?_, List.nodup_range.imp fun hne e he he' => ?_⟩
  · have hset : (g.successorsOf k).toList.Nodup := (g.successorsOf k).distinct_toList.imp
      fun hdistinct heq => hdistinct (Std.LawfulEqOrd.compare_eq_iff_eq.2 heq)
    exact hset.map fun m m' heq => congrArg Prod.snd heq
  · obtain ⟨m, -, rfl⟩ := List.mem_map.1 he
    obtain ⟨m', -, heq⟩ := List.mem_map.1 he'
    exact hne (congrArg Prod.fst heq).symm

/-- **The edge count is the number of edges.** -/
theorem length_edges (h : g.successors.size = g.size) : g.edges.length = g.edgeCount := by
  have hlist : g.successors.toList = (List.range g.size).map g.successorsOf := by
    refine List.ext_getElem (by simp [h]) fun k hk _ => ?_
    rw [List.getElem_map, List.getElem_range, successorsOf, ← Array.getElem?_toList,
      List.getElem?_eq_getElem hk, Option.getD_some]
  rw [edgeCount, hlist, edges, List.length_flatMap, List.map_map]
  simp only [List.length_map, Std.ExtTreeSet.length_toList]
  rfl

end FlowGraph

/-- **A flow graph has no spurious edges, and its two edge maps agree.** A node
leads only to nodes it branches or falls into. A node is a successor of
another exactly if that is a predecessor of it. Both maps have an entry for
each node and name nothing but nodes. And the edge count is the number of
edges. -/
theorem edge_maps_agree {ctx : Context} (reachable : Reachable ctx) {f : ValueId}
    {g : FlowGraph} (built : (FlowGraph.build ctx f).outcome = .ok g) :
    (∀ k m, m ∈ g.successorsOf k → ∃ n n', g.nodes[k]? = some n ∧ g.nodes[m]? = some n' ∧
      (ctx.BranchesInto n n' ∨ ctx.FallsInto (ctx.members f .blocks) n n')) ∧
    (∀ k m, m ∈ g.successorsOf k ↔ k ∈ g.predecessorsOf m) ∧
    (g.successors.size = g.size ∧ g.predecessors.size = g.size ∧
      ∀ k m, m ∈ g.successorsOf k ∨ m ∈ g.predecessorsOf k → k < g.size ∧ m < g.size) ∧
    g.edges.Nodup ∧ (∀ k m, (k, m) ∈ g.edges ↔ m ∈ g.successorsOf k) ∧
    g.edges.length = g.edgeCount := by
  have h := reachable.sound
  have hbuilt := FlowGraph.built_of_build h built
  obtain ⟨es, hof, hbound⟩ := FlowGraph.exists_edges_of_build h built
  have hsucc : ∀ k m, m ∈ g.successorsOf k ↔ (k, m) ∈ es := by
    intro k m
    rw [hof, FlowGraph.mem_successorsOf_ofEdges]
    exact and_iff_right_of_imp fun he => (hbound k m he).1
  have hpred : ∀ k m, k ∈ g.predecessorsOf m ↔ (k, m) ∈ es := by
    intro k m
    rw [hof, FlowGraph.mem_predecessorsOf_ofEdges]
    exact and_iff_right_of_imp fun he => (hbound k m he).2
  have hsize : g.successors.size = g.size := by
    rw [hof]
    exact FlowGraph.size_successors_ofEdges
  have hsize' : g.predecessors.size = g.size := by
    rw [hof, FlowGraph.predecessors_ofEdges]
    exact FlowGraph.size_successors_ofEdges
  refine ⟨fun k m hm => ?_, fun k m => (hsucc k m).trans (hpred k m).symm,
    ⟨hsize, hsize', fun k m hm => ?_⟩, g.nodup_edges, fun k m => ?_, FlowGraph.length_edges hsize⟩
  · have hn := List.getElem?_eq_getElem (hbound k m ((hsucc k m).1 hm)).1
    obtain ⟨n', hn', hinto⟩ := hbuilt.exists_of_mem_successorsOf h hn hm
    exact ⟨_, n', hn, hn', hinto⟩
  · rcases hm with hm | hm
    · exact hbound k m ((hsucc k m).1 hm)
    · exact (hbound m k ((hpred m k).1 hm)).symm
  · rw [FlowGraph.mem_edges]
    exact and_iff_right_of_imp fun hm => (hbound k m ((hsucc k m).1 hm)).1

/-- In the graph of the interleaved blocks the second node leads to the third,
which no branch names: it falls into it. Nothing leaves the third node, and
there are four edges. -/
theorem edge_maps_agree_interleaved :
    Reachable interleaved ∧ ∃ g, (FlowGraph.build interleaved ⟨0, 0⟩).outcome = .ok g ∧
      1 ∈ g.predecessorsOf 2 ∧ g.edges = [(0, 1), (1, 0), (1, 2), (1, 3)] ∧ g.edgeCount = 4 ∧
      ∃ n n', g.nodes[1]? = some n ∧ g.nodes[2]? = some n' ∧
        (interleaved.BranchesInto n n' ∨
          interleaved.FallsInto (interleaved.members ⟨0, 0⟩ .blocks) n n') := by
  have hreachable : Reachable interleaved := (Reachable.empty 0).runAll (by decide)
  obtain ⟨g, hg, hedges⟩ : ∃ g, (FlowGraph.build interleaved ⟨0, 0⟩).outcome = .ok g ∧
      g.edges = [(0, 1), (1, 0), (1, 2), (1, 3)] := ⟨_, rfl, by decide +kernel⟩
  obtain ⟨hreal, hmirror, -, -, hlisted, hcount⟩ := edge_maps_agree hreachable hg
  have hmem : 2 ∈ g.successorsOf 1 := by
    rw [← hlisted, hedges]
    decide
  exact ⟨hreachable, g, hg, (hmirror 1 2).1 hmem, hedges, by rw [← hcount, hedges]; rfl,
    hreal 1 2 hmem⟩

end ContractIR
