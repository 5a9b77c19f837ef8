import ContractIR.Proofs.Flow.Edges
import ContractIR.Proofs.Flow.Fixpoint
/-!
# What the live sets say

The liveness of a graph ties three things together: what is live at the end
of a node is live at the start of a successor, what is live at its start
follows by going back over its instructions, and what is live after an
instruction follows by going back over those behind it (`describes`).
-/

namespace ContractIR

open LiveNode

/-- The nodes of a block cover its instructions up to the first that ends the
control flow. -/
theorem Context.exists_tail (ctx : Context) (b : ValueId) :
    ∃ tail, ctx.body b = (ctx.nodesOf b).flatMap GraphNode.instructions ++ tail ∧
      (tail = [] ∨ ∃ z ∈ ((ctx.nodesOf b).flatMap GraphNode.instructions).getLast?,
        ctx.flowOf z = .final) := by
  by_cases hb : ctx.body b = []
  · rw [nodesOf_of_empty hb, hb]
    exact ⟨[], rfl, .inl rfl⟩
  · have hcut := ctx.cut_piecesOf b
    rw [nodesOf_of_ne_nil hb, Exit.flatMap_instructions_nodesFrom]
    obtain ⟨tail, htail⟩ := hcut.flatten_isPrefix
    refine ⟨tail, htail.symm, ?_⟩
    by_cases hfinal : ∃ z ∈ (ctx.piecesOf b).flatten.getLast?, ctx.flowOf z = .final
    · exact .inr hfinal
    · refine .inl ?_
      have hall := hcut.flatten_eq fun z hz hflow => hfinal ⟨z, hz, hflow⟩
      rw [hall] at htail
      exact List.append_right_eq_self.1 htail

/-- No instruction is in two nodes. -/
theorem Context.nodup_graphNodes {ctx : Context} (h : Threaded ctx) {blocks : List ValueId}
    (hblocks : blocks.Nodup) :
    ((ctx.graphNodes blocks).flatMap GraphNode.instructions).Nodup := by
  have hsub : ∀ b, List.Sublist ((ctx.nodesOf b).flatMap GraphNode.instructions) (ctx.body b) := by
    intro b
    obtain ⟨tail, htail, -⟩ := ctx.exists_tail b
    rw [htail]
    exact List.sublist_append_left _ _
  rw [graphNodes, List.flatMap_assoc, List.nodup_flatMap]
  refine ⟨fun b _ => (h.nodup b).sublist (hsub b), hblocks.imp fun hne i hi hi' => ?_⟩
  -- An instruction of two nodes would be in two blocks.
  have hb := h.mem_iff.1 ((hsub _).subset hi)
  have hb' := h.mem_iff.1 ((hsub _).subset hi')
  exact hne (Option.some.inj (hb.symm.trans hb'))

/-! ## The nodes as liveness sees them -/

namespace Context

variable (ctx : Context)

/-- What an instruction writes and reads. -/
def accessOf (i : InstId) : Access :=
  ((ctx.inst? i).map fun x => ⟨x.results, x.operands.filter ctx.isLocal⟩).getD ⟨[], []⟩

/-- What some instructions write and read. -/
def accessesOf (is : List InstId) : List Access := is.map ctx.accessOf

/-- A node as liveness sees it. -/
def liveNode (g : FlowGraph) (node : GraphNode × Nat) : LiveNode :=
  ⟨node.1.instructions.map fun i => (i, ctx.accessOf i), g.successorsOf node.2⟩

variable {ctx} {g : FlowGraph}

theorem accessOf_of_live {i : InstId} {x : Instruction} (h : ctx.inst? i = some x) :
    ctx.accessOf i = ⟨x.results, x.operands.filter ctx.isLocal⟩ := by
  rw [accessOf, h]
  rfl

theorem liveNodes_eq (hlive : ∀ n ∈ g.nodes, ∀ i ∈ n.instructions, ∃ x, ctx.inst? i = some x) :
    ctx.liveNodes g = .ok (g.nodes.zipIdx.map (ctx.liveNode g)) := by
  refine mapM_eq_ok_map fun node hnode => ?_
  obtain ⟨n, k⟩ := node
  have hn : n ∈ g.nodes := (List.mem_zipIdx_iff_getElem?.1 hnode) |> List.mem_of_getElem?
  have hall : n.instructions.mapM ctx.access =
      .ok (n.instructions.map fun i => (i, ctx.accessOf i)) := by
    refine mapM_eq_ok_map fun i hi => ?_
    obtain ⟨x, hx⟩ := hlive n hn i hi
    rw [access, readInst_eq_ok.2 hx, accessOf_of_live hx]
    rfl
  simp only [hall, ok_bind]
  rfl

theorem map_snd_liveNode (n : GraphNode) (k : Nat) :
    (ctx.liveNode g (n, k)).accesses.map Prod.snd = ctx.accessesOf n.instructions := by
  rw [liveNode, List.map_map]
  rfl

end Context

/-- The instructions of a graph that was built are live. -/
theorem FlowGraph.Built.live {ctx : Context} {g : FlowGraph} {blocks : List ValueId}
    (hg : g.Built ctx blocks) (h : Sound ctx) :
    ∀ n ∈ g.nodes, ∀ i ∈ n.instructions, ∃ x, ctx.inst? i = some x := by
  intro n hn
  rw [hg.nodes] at hn
  exact (Context.streak_of_mem_graphNodes h.threaded hn).1

/-! ## Before and after an instruction -/

namespace LiveNode

theorem map_fst_around (after : ValueSet) (as : List (InstId × Access)) :
    (around after as).map Prod.fst = as.map Prod.fst := by
  induction as with
  | nil => rfl
  | cons a as ih => rw [around, List.map_cons, List.map_cons, ih]

theorem mem_around (after : ValueSet) (pre : List (InstId × Access)) (i : InstId) (a : Access)
    (post : List (InstId × Access)) :
    (i, a.before (Access.beforeAll (post.map Prod.snd) after),
        Access.beforeAll (post.map Prod.snd) after) ∈ around after (pre ++ (i, a) :: post) := by
  induction pre with
  | nil => exact List.mem_cons_self
  | cons c pre ih => exact List.mem_cons_of_mem _ ih

end LiveNode

/-- A key that is listed once is found where it is listed. -/
theorem find?_of_nodup {α β : Type} [DecidableEq α] {l : List (α × β)} {p : α × β}
    (h : (l.map Prod.fst).Nodup) (hp : p ∈ l) : l.find? (fun q => q.1 = p.1) = some p := by
  obtain ⟨pre, post, rfl⟩ := List.append_of_mem hp
  rw [List.map_append, List.map_cons, List.nodup_append] at h
  refine List.find?_eq_some_iff_append.2 ⟨by simp, pre, post, rfl, fun q hq => ?_⟩
  have hne : q.1 ≠ p.1 := h.2.2 q.1 (List.mem_map_of_mem hq) p.1 List.mem_cons_self
  simp [hne]

namespace Liveness

variable {nodes : List LiveNode} {n : LiveNode} {k : Nat}

theorem valuesAt_liveOut_ofNodes (hk : nodes[k]? = some n) :
    valuesAt (ofNodes nodes).liveOut k = n.liveOut (ofNodes nodes).liveIn := by
  refine valuesAt_of_get ?_
  rw [ofNodes, List.getElem?_toArray, List.getElem?_map, hk]
  rfl

theorem valuesAt_liveIn_ofNodes (hk : nodes[k]? = some n) :
    valuesAt (ofNodes nodes).liveIn k =
      Access.beforeAll (n.accesses.map Prod.snd) (valuesAt (ofNodes nodes).liveOut k) := by
  rw [valuesAt_liveOut_ofNodes hk]
  exact valuesAt_of_get (settled_solve nodes k n hk)

/-- The keys of the points are the instructions of the nodes. -/
theorem map_fst_points_ofNodes (nodes : List LiveNode) :
    (ofNodes nodes).points.map Prod.fst = nodes.flatMap fun n => n.accesses.map Prod.fst := by
  rw [ofNodes, List.map_flatMap]
  simp only [map_fst_around]

theorem find?_points_ofNodes (hnodup : (nodes.flatMap fun n => n.accesses.map Prod.fst).Nodup)
    (hk : nodes[k]? = some n) {pre post : List (InstId × Access)} {i : InstId} {a : Access}
    (hn : n.accesses = pre ++ (i, a) :: post) :
    (ofNodes nodes).points.find? (fun p => p.1 = i) =
      some (i, Access.beforeAll (a :: post.map Prod.snd) (valuesAt (ofNodes nodes).liveOut k),
        Access.beforeAll (post.map Prod.snd) (valuesAt (ofNodes nodes).liveOut k)) := by
  -- The first point of an instruction is found, and it has only one.
  have hkeys : ((ofNodes nodes).points.map Prod.fst).Nodup := by
    rw [map_fst_points_ofNodes]
    exact hnodup
  have hpoint := mem_around (n.liveOut (ofNodes nodes).liveIn) pre i a post
  rw [← hn] at hpoint
  rw [valuesAt_liveOut_ofNodes hk]
  exact find?_of_nodup hkeys (List.mem_flatMap.2 ⟨n, List.mem_of_getElem? hk, hpoint⟩)

/-- **What the live sets of a graph say.** -/
structure Describes (l : Liveness) (ctx : Context) (g : FlowGraph) : Prop where
  size : l.liveIn.size = g.nodes.length
  sizeOut : l.liveOut.size = g.nodes.length
  keys : l.points.map Prod.fst = g.nodes.flatMap GraphNode.instructions
  liveOut : ∀ {k n}, g.nodes[k]? = some n →
    ∀ v, v ∈ valuesAt l.liveOut k ↔ ∃ m ∈ g.successorsOf k, v ∈ valuesAt l.liveIn m
  liveIn : ∀ {k n}, g.nodes[k]? = some n → valuesAt l.liveIn k =
    Access.beforeAll (ctx.accessesOf n.instructions) (valuesAt l.liveOut k)
  before : ∀ {k n pre i post}, g.nodes[k]? = some n → n.instructions = pre ++ i :: post →
    l.before? i = some (Access.beforeAll (ctx.accessesOf (i :: post)) (valuesAt l.liveOut k))
  after : ∀ {k n pre i post}, g.nodes[k]? = some n → n.instructions = pre ++ i :: post →
    l.after? i = some (Access.beforeAll (ctx.accessesOf post) (valuesAt l.liveOut k))
  least : ∀ {P : Nat → ValueId → Prop},
    (∀ {k n} (out : ValueSet), g.nodes[k]? = some n →
      (∀ v ∈ out, ∃ m ∈ g.successorsOf k, P m v) →
      ∀ v ∈ Access.beforeAll (ctx.accessesOf n.instructions) out, P k v) →
    ∀ {k v}, v ∈ valuesAt l.liveIn k → P k v

/-- Nothing is live where there is no node. -/
theorem Describes.exists_node {l : Liveness} {ctx : Context} {g : FlowGraph} (h : l.Describes ctx g)
    {v : ValueId} (hv : v ∈ valuesAt l.liveIn k) : ∃ n, g.nodes[k]? = some n := by
  have hlt : k < g.nodes.length := by
    by_contra hge
    rw [valuesAt, Array.getElem?_eq_none (by rw [h.size]; omega)] at hv
    exact Std.ExtTreeSet.not_mem_empty hv
  exact ⟨_, List.getElem?_eq_getElem hlt⟩

/-- **The liveness that is computed** says so. -/
theorem describes {ctx : Context} {g : FlowGraph} {l : Liveness}
    (hlive : ∀ n ∈ g.nodes, ∀ i ∈ n.instructions, ∃ x, ctx.inst? i = some x)
    (hnodup : (g.nodes.flatMap GraphNode.instructions).Nodup) (h : compute ctx g = .ok l) :
    l.Describes ctx g := by
  obtain rfl : ofNodes (g.nodes.zipIdx.map (ctx.liveNode g)) = l := by
    rw [compute, Context.liveNodes_eq hlive] at h
    exact Except.ok.inj h
  have hnode : ∀ {k n}, g.nodes[k]? = some n →
      (g.nodes.zipIdx.map (ctx.liveNode g))[k]? = some (ctx.liveNode g (n, k)) := by
    intro k n hk
    rw [List.getElem?_map, List.getElem?_zipIdx, hk, Nat.zero_add]
    rfl
  have hkeys : ((g.nodes.zipIdx.map (ctx.liveNode g)).flatMap fun n => n.accesses.map Prod.fst) =
      g.nodes.flatMap GraphNode.instructions := by
    nth_rewrite 2 [← List.zipIdx_map_fst 0 g.nodes]
    simp only [List.flatMap_map, Context.liveNode, List.map_map]
    refine List.flatMap_congr fun node _ => ?_
    exact List.map_id _
  have hpoint : ∀ {k n pre i post}, g.nodes[k]? = some n → n.instructions = pre ++ i :: post →
      (ofNodes (g.nodes.zipIdx.map (ctx.liveNode g))).points.find? (fun p => p.1 = i) =
        some (i, Access.beforeAll (ctx.accessesOf (i :: post))
            (valuesAt (ofNodes (g.nodes.zipIdx.map (ctx.liveNode g))).liveOut k),
          Access.beforeAll (ctx.accessesOf post)
            (valuesAt (ofNodes (g.nodes.zipIdx.map (ctx.liveNode g))).liveOut k)) := by
    intro k n pre i post hk hn
    have haccesses : (ctx.liveNode g (n, k)).accesses =
        pre.map (fun j => (j, ctx.accessOf j)) ++ (i, ctx.accessOf i) ::
          post.map fun j => (j, ctx.accessOf j) := by
      rw [Context.liveNode, hn, List.map_append, List.map_cons]
    rw [find?_points_ofNodes (hkeys ▸ hnodup) (hnode hk) haccesses, List.map_map]
    rfl
  constructor
  · rw [← List.length_zipIdx (l := g.nodes) (i := 0), ← List.length_map (f := ctx.liveNode g)]
    exact size_solve _
  · simp [ofNodes]
  · rw [map_fst_points_ofNodes, hkeys]
  · intro k n hk v
    rw [valuesAt_liveOut_ofNodes (hnode hk), mem_liveOut]
    rfl
  · intro k n hk
    rw [valuesAt_liveIn_ofNodes (hnode hk), Context.map_snd_liveNode]
  · intro k n pre i post hk hn
    rw [before?, hpoint hk hn]
    rfl
  · intro k n pre i post hk hn
    rw [after?, hpoint hk hn]
    rfl
  · intro P hP k v hv
    refine within_solve (P := P) (fun j m starts hj hwithin w hw => ?_) k v hv
    rw [List.getElem?_map, List.getElem?_zipIdx, Option.map_map, Nat.zero_add] at hj
    obtain ⟨n, hn, rfl⟩ := Option.map_eq_some_iff.1 hj
    rw [LiveNode.liveIn, Function.comp_apply, Context.map_snd_liveNode] at hw
    refine hP _ hn (fun u hu => ?_) w hw
    obtain ⟨i, hi, hstart⟩ := mem_liveOut.1 hu
    exact ⟨i, hi, hwithin i u hstart⟩

/-- **The live sets of a graph that was built** can be computed. -/
theorem compute_of_built {ctx : Context} {g : FlowGraph} {blocks : List ValueId} (h : Sound ctx)
    (hg : g.Built ctx blocks) : ∃ l, compute ctx g = .ok l ∧ l.Describes ctx g := by
  have hlive := hg.live h
  have hnodup : (g.nodes.flatMap GraphNode.instructions).Nodup := by
    rw [hg.nodes]
    exact Context.nodup_graphNodes h.threaded hg.nodup
  have hcompute : compute ctx g = .ok (ofNodes (g.nodes.zipIdx.map (ctx.liveNode g))) := by
    rw [compute, Context.liveNodes_eq hlive]
    rfl
  exact ⟨_, hcompute, describes hlive hnodup hcompute⟩

end Liveness

end ContractIR
