import Mathlib.Data.List.Chain
import ContractIR.Proofs.Flow.LiveSets
/-!
# Live sets and paths

A local is live before an instruction if control can get from there to an
instruction that reads it, and nothing on the way writes it. The live sets say
exactly that. What such a path needs is in the sets because they are a
fixpoint; that nothing else is in them holds because they are the least one,
also where empty nodes or loops let control go round without reading anything.
-/

namespace ContractIR

open LiveNode

/-! ## Paths -/

namespace Context

variable (ctx : Context)

/-- A value is among the operands of an instruction. -/
def Reads (i : InstId) (v : ValueId) : Prop := ∃ x, ctx.inst? i = some x ∧ v ∈ x.operands

/-- A value is among the results of an instruction. -/
def Writes (i : InstId) (v : ValueId) : Prop := ∃ x, ctx.inst? i = some x ∧ v ∈ x.results

variable {ctx} {i : InstId} {v : ValueId}

theorem mem_reads_accessOf : v ∈ (ctx.accessOf i).reads ↔ ctx.isLocal v ∧ ctx.Reads i v := by
  unfold accessOf Reads
  cases ctx.inst? i with
  | none => simp
  | some x => simp [and_comm]

theorem mem_writes_accessOf : v ∈ (ctx.accessOf i).writes ↔ ctx.Writes i v := by
  unfold accessOf Writes
  cases ctx.inst? i <;> simp

end Context

namespace FlowGraph

variable (g : FlowGraph)

/-- **Where control gets from the start of a node**: to its first
instruction, or on to a successor if the node is empty. -/
inductive Enters : Nat → InstId → Prop
  /-- The node starts with the instruction. -/
  | first {k : Nat} {n : GraphNode} {i : InstId} {rest : List InstId}
      (node : g.nodes[k]? = some n) (starts : n.instructions = i :: rest) : Enters k i
  /-- The node is empty. -/
  | through {k m : Nat} {n : GraphNode} {i : InstId} (node : g.nodes[k]? = some n)
      (empty : n.instructions = []) (edge : m ∈ g.successorsOf k) (onward : Enters m i) :
      Enters k i

/-- **Where control gets from an instruction**: to the next one of its node,
or behind the last one to where a successor leads. -/
inductive Follows : InstId → InstId → Prop
  /-- Both are in one node. -/
  | inside {k : Nat} {n : GraphNode} {i j : InstId} {pre post : List InstId}
      (node : g.nodes[k]? = some n) (order : n.instructions = pre ++ i :: j :: post) : Follows i j
  /-- The first is the last one of a node. -/
  | across {k m : Nat} {n : GraphNode} {i j : InstId} {pre : List InstId}
      (node : g.nodes[k]? = some n) (last : n.instructions = pre ++ [i])
      (edge : m ∈ g.successorsOf k) (enters : g.Enters m j) : Follows i j

/-- **A live path**: control can follow it, its last instruction reads the
value, and none before that one writes it. -/
structure LivePath (ctx : Context) (v : ValueId) (path : List InstId) (last : InstId) : Prop where
  chain : (path ++ [last]).IsChain g.Follows
  reads : ctx.Reads last v
  unwritten : ∀ i ∈ path, ¬ctx.Writes i v

/-- A live path starts at the instruction. -/
inductive ReadAhead (ctx : Context) (v : ValueId) : InstId → Prop
  /-- The instruction reads the value. -/
  | here {i : InstId} (reads : ctx.Reads i v) : ReadAhead ctx v i
  /-- The instruction leaves the value, and a path starts behind it. -/
  | later {i j : InstId} (unwritten : ¬ctx.Writes i v) (next : g.Follows i j)
      (ahead : ReadAhead ctx v j) : ReadAhead ctx v i

variable {g} {ctx : Context} {k : Nat} {n : GraphNode} {i j : InstId} {v : ValueId}

theorem readAhead_iff : g.ReadAhead ctx v i ↔
    ∃ path last, (path ++ [last]).head? = some i ∧ g.LivePath ctx v path last := by
  constructor
  · intro h
    induction h with
    | @here i reads => exact ⟨[], i, rfl, List.isChain_singleton i, reads, nofun⟩
    | @later i j unwritten next _ ih =>
      obtain ⟨path, last, hhead, hpath⟩ := ih
      refine ⟨i :: path, last, rfl, ?_, hpath.reads, fun c hc => ?_⟩
      · rw [List.cons_append]
        refine List.isChain_cons.2 ⟨fun c hc => ?_, hpath.chain⟩
        rw [hhead] at hc
        exact Option.some.inj hc ▸ next
      · rcases List.mem_cons.1 hc with rfl | hc
        · exact unwritten
        · exact hpath.unwritten c hc
  · rintro ⟨path, last, hhead, hpath⟩
    induction path generalizing i with
    | nil =>
      obtain rfl : last = i := Option.some.inj hhead
      exact .here hpath.reads
    | cons c path ih =>
      obtain rfl : c = i := Option.some.inj hhead
      obtain ⟨hnext, hchain⟩ := List.isChain_cons.1 hpath.chain
      cases hj : (path ++ [last]).head? with
      | none => simp at hj
      | some j =>
        have hrest : g.LivePath ctx v path last :=
          ⟨hchain, hpath.reads, fun d hd => hpath.unwritten d (List.mem_cons_of_mem c hd)⟩
        exact .later (hpath.unwritten c List.mem_cons_self) (hnext j hj) (ih hj hrest)

theorem Enters.mem (h : g.Enters k j) : ∃ n ∈ g.nodes, j ∈ n.instructions := by
  induction h with
  | first node starts =>
    exact ⟨_, List.mem_of_getElem? node, by rw [starts]; exact List.mem_cons_self⟩
  | through _ _ _ _ ih => exact ih

theorem Follows.mem (h : g.Follows i j) : ∃ n ∈ g.nodes, j ∈ n.instructions := by
  cases h with
  | inside node order => exact ⟨_, List.mem_of_getElem? node, by rw [order]; simp⟩
  | across _ _ _ enters => exact enters.mem

/-! ## The rest of a node -/

/-- Where control gets when some instructions of a node are left. -/
def Ahead (g : FlowGraph) (k : Nat) : List InstId → InstId → Prop
  | [], j => ∃ m ∈ g.successorsOf k, g.Enters m j
  | i :: _, j => j = i

theorem enters_of_ahead (hk : g.nodes[k]? = some n) (h : g.Ahead k n.instructions j) :
    g.Enters k j := by
  cases hn : n.instructions with
  | nil =>
    rw [hn] at h
    obtain ⟨m, hm, henters⟩ := h
    exact .through hk hn hm henters
  | cons i rest =>
    rw [hn] at h
    obtain rfl : j = i := h
    exact .first hk hn

theorem follows_of_ahead (hk : g.nodes[k]? = some n) {pre post : List InstId}
    (hn : n.instructions = pre ++ i :: post) (h : g.Ahead k post j) : g.Follows i j := by
  cases post with
  | nil =>
    obtain ⟨m, hm, henters⟩ := h
    exact .across hk hn hm henters
  | cons c post =>
    obtain rfl : j = c := h
    exact .inside hk hn

/-- **What is live before the rest of a node is read ahead**, if that is so of
what is live at its end. -/
theorem readAhead_of_mem (hk : g.nodes[k]? = some n) {out : ValueSet}
    (hout : ∀ v ∈ out, ctx.isLocal v ∧ ∃ j, g.Ahead k [] j ∧ g.ReadAhead ctx v j)
    {rest : List InstId} : ∀ {pre}, n.instructions = pre ++ rest →
      ∀ v ∈ Access.beforeAll (ctx.accessesOf rest) out,
        ctx.isLocal v ∧ ∃ j, g.Ahead k rest j ∧ g.ReadAhead ctx v j := by
  induction rest with
  | nil => exact fun _ => hout
  | cons i rest ih =>
    intro pre hn v hv
    rcases Access.mem_before.1 hv with hread | ⟨hwrite, hbehind⟩
    · obtain ⟨hlocal, hread⟩ := Context.mem_reads_accessOf.1 hread
      exact ⟨hlocal, i, rfl, .here hread⟩
    · have hn' : n.instructions = (pre ++ [i]) ++ rest := by rw [hn, List.append_cons]
      obtain ⟨hlocal, j, hahead, hj⟩ := ih hn' v hbehind
      rw [Context.mem_writes_accessOf] at hwrite
      exact ⟨hlocal, i, rfl, .later hwrite (follows_of_ahead hk hn hahead) hj⟩

end FlowGraph

/-! ## Live sets -/

namespace Liveness.Describes

variable {l : Liveness} {ctx : Context} {g : FlowGraph} {k : Nat} {n : GraphNode}
variable {i j : InstId} {v : ValueId} {s t : ValueSet}

/-- An instruction of a node stands somewhere in it. -/
theorem exists_split (hi : ∃ n ∈ g.nodes, i ∈ n.instructions) :
    ∃ (k : Nat) (n : GraphNode) (pre post : List InstId), g.nodes[k]? = some n ∧
      n.instructions = pre ++ i :: post := by
  obtain ⟨n, hn, hi⟩ := hi
  obtain ⟨k, hk⟩ := List.getElem?_of_mem hn
  obtain ⟨pre, post, hsplit⟩ := List.append_of_mem hi
  exact ⟨k, n, pre, post, hk, hsplit⟩

/-- **Points are known for the instructions of nodes only.** -/
theorem isSome_find?_iff (h : l.Describes ctx g) :
    (l.points.find? fun p => p.1 = i).isSome ↔ ∃ n ∈ g.nodes, i ∈ n.instructions := by
  have hkey : (l.points.find? fun p => p.1 = i).isSome ↔ i ∈ l.points.map Prod.fst := by
    simp [List.find?_isSome]
  rw [hkey, h.keys, List.mem_flatMap]

theorem isSome_before?_iff (h : l.Describes ctx g) :
    (l.before? i).isSome ↔ ∃ n ∈ g.nodes, i ∈ n.instructions := by
  rw [before?, Option.isSome_map, h.isSome_find?_iff]

theorem isSome_after?_iff (h : l.Describes ctx g) :
    (l.after? i).isSome ↔ ∃ n ∈ g.nodes, i ∈ n.instructions := by
  rw [after?, Option.isSome_map, h.isSome_find?_iff]

/-! ### What is live is read ahead -/

theorem exists_readAhead_of_liveIn (h : l.Describes ctx g) (hv : v ∈ valuesAt l.liveIn k) :
    ctx.isLocal v ∧ ∃ j, g.Enters k j ∧ g.ReadAhead ctx v j := by
  refine h.least (P := fun k v => ctx.isLocal v ∧ ∃ j, g.Enters k j ∧ g.ReadAhead ctx v j)
    (fun {k n} out hk hout v hv => ?_) hv
  have hend : ∀ v ∈ out, ctx.isLocal v ∧ ∃ j, g.Ahead k [] j ∧ g.ReadAhead ctx v j := by
    intro v hv
    obtain ⟨m, hm, hlocal, j, henters, hj⟩ := hout v hv
    exact ⟨hlocal, j, ⟨m, hm, henters⟩, hj⟩
  obtain ⟨hlocal, j, hahead, hj⟩ :=
    FlowGraph.readAhead_of_mem hk hend (List.nil_append n.instructions).symm v hv
  exact ⟨hlocal, j, FlowGraph.enters_of_ahead hk hahead, hj⟩

theorem exists_readAhead_of_liveOut (h : l.Describes ctx g) (hk : g.nodes[k]? = some n) :
    ∀ v ∈ valuesAt l.liveOut k, ctx.isLocal v ∧ ∃ j, g.Ahead k [] j ∧ g.ReadAhead ctx v j := by
  intro v hv
  obtain ⟨m, hm, hstart⟩ := (h.liveOut hk v).1 hv
  obtain ⟨hlocal, j, henters, hj⟩ := h.exists_readAhead_of_liveIn hstart
  exact ⟨hlocal, j, ⟨m, hm, henters⟩, hj⟩

theorem readAhead_of_before (h : l.Describes ctx g) (hs : l.before? i = some s) (hv : v ∈ s) :
    ctx.isLocal v ∧ g.ReadAhead ctx v i := by
  have hsome : (l.before? i).isSome := by
    rw [hs]
    rfl
  obtain ⟨k, n, pre, post, hk, hn⟩ := exists_split (h.isSome_before?_iff.1 hsome)
  obtain rfl := Option.some.inj (hs.symm.trans (h.before hk hn))
  obtain ⟨hlocal, j, hahead, hj⟩ :=
    FlowGraph.readAhead_of_mem hk (h.exists_readAhead_of_liveOut hk) hn v hv
  obtain rfl : j = i := hahead
  exact ⟨hlocal, hj⟩

/-! ### What is read ahead is live -/

theorem mem_liveIn_of_enters (h : l.Describes ctx g) (henters : g.Enters k j)
    (ht : l.before? j = some t) (hv : v ∈ t) : v ∈ valuesAt l.liveIn k := by
  induction henters with
  | first node starts =>
    have hbefore := h.before node (starts.trans (List.nil_append _).symm)
    obtain rfl := Option.some.inj (ht.symm.trans hbefore)
    rw [h.liveIn node, starts]
    exact hv
  | through node empty edge _ ih =>
    rw [h.liveIn node, empty]
    exact (h.liveOut node v).2 ⟨_, edge, ih ht⟩

theorem mem_after_of_follows (h : l.Describes ctx g) (hfollows : g.Follows i j)
    (ht : l.before? j = some t) (hs : l.after? i = some s) (hv : v ∈ t) : v ∈ s := by
  cases hfollows with
  | @inside k n _ _ pre post node order =>
    obtain rfl := Option.some.inj (hs.symm.trans (h.after node order))
    have hbefore := h.before node (order.trans (List.append_cons pre i (j :: post)))
    obtain rfl := Option.some.inj (ht.symm.trans hbefore)
    exact hv
  | across node last edge enters =>
    obtain rfl := Option.some.inj (hs.symm.trans (h.after node last))
    exact (h.liveOut node v).2 ⟨_, edge, h.mem_liveIn_of_enters enters ht hv⟩

theorem mem_before_of_readAhead (h : l.Describes ctx g) (hlocal : ctx.isLocal v)
    (hahead : g.ReadAhead ctx v i) : ∀ {s}, l.before? i = some s → v ∈ s := by
  have hsplit : ∀ {i s}, l.before? i = some s →
      ∃ t, l.after? i = some t ∧ s = (ctx.accessOf i).before t := by
    intro i s hs
    have hsome : (l.before? i).isSome := by
      rw [hs]
      rfl
    obtain ⟨k, n, pre, post, hk, hn⟩ := exists_split (h.isSome_before?_iff.1 hsome)
    exact ⟨_, h.after hk hn, Option.some.inj (hs.symm.trans (h.before hk hn))⟩
  induction hahead with
  | here reads =>
    intro s hs
    obtain ⟨t, -, rfl⟩ := hsplit hs
    exact Access.mem_before.2 (.inl (Context.mem_reads_accessOf.2 ⟨hlocal, reads⟩))
  | later unwritten next _ ih =>
    intro s hs
    obtain ⟨t, ht, rfl⟩ := hsplit hs
    obtain ⟨r, hr⟩ := Option.isSome_iff_exists.1 (h.isSome_before?_iff.2 next.mem)
    refine Access.mem_before.2 (.inr ⟨?_, h.mem_after_of_follows next hr ht (ih hr)⟩)
    rw [Context.mem_writes_accessOf]
    exact unwritten

/-- What is read ahead of an instruction in a node is live before it. -/
theorem exists_before_of_readAhead (h : l.Describes ctx g) (hlocal : ctx.isLocal v)
    (hj : ∃ n ∈ g.nodes, j ∈ n.instructions) (hahead : g.ReadAhead ctx v j) :
    ∃ t, l.before? j = some t ∧ v ∈ t := by
  obtain ⟨t, ht⟩ := Option.isSome_iff_exists.1 (h.isSome_before?_iff.2 hj)
  exact ⟨t, ht, h.mem_before_of_readAhead hlocal hahead ht⟩

/-! ### Both together -/

theorem mem_before_iff (h : l.Describes ctx g) (hs : l.before? i = some s) :
    v ∈ s ↔ ctx.isLocal v ∧ g.ReadAhead ctx v i :=
  ⟨h.readAhead_of_before hs, fun ⟨hlocal, hahead⟩ => h.mem_before_of_readAhead hlocal hahead hs⟩

theorem mem_after_iff (h : l.Describes ctx g) (hs : l.after? i = some s) :
    v ∈ s ↔ ∃ j t, g.Follows i j ∧ l.before? j = some t ∧ v ∈ t := by
  constructor
  · intro hv
    have hsome : (l.after? i).isSome := by
      rw [hs]
      rfl
    obtain ⟨k, n, pre, post, hk, hn⟩ := exists_split (h.isSome_after?_iff.1 hsome)
    obtain rfl := Option.some.inj (hs.symm.trans (h.after hk hn))
    have hn' := hn.trans (List.append_cons pre i post)
    obtain ⟨hlocal, j, hahead, hj⟩ :=
      FlowGraph.readAhead_of_mem hk (h.exists_readAhead_of_liveOut hk) hn' v hv
    have hfollows := FlowGraph.follows_of_ahead hk hn hahead
    obtain ⟨t, ht, hvt⟩ := h.exists_before_of_readAhead hlocal hfollows.mem hj
    exact ⟨j, t, hfollows, ht, hvt⟩
  · rintro ⟨j, t, hfollows, ht, hv⟩
    exact h.mem_after_of_follows hfollows ht hs hv

theorem mem_liveIn_iff (h : l.Describes ctx g) :
    v ∈ valuesAt l.liveIn k ↔ ∃ j t, g.Enters k j ∧ l.before? j = some t ∧ v ∈ t := by
  constructor
  · intro hv
    obtain ⟨hlocal, j, henters, hj⟩ := h.exists_readAhead_of_liveIn hv
    obtain ⟨t, ht, hvt⟩ := h.exists_before_of_readAhead hlocal henters.mem hj
    exact ⟨j, t, henters, ht, hvt⟩
  · rintro ⟨j, t, henters, ht, hv⟩
    exact h.mem_liveIn_of_enters henters ht hv

end Liveness.Describes

/-- **Liveness is path liveness.** The live sets of a graph that was built can
be computed, and are known before and after exactly the instructions that are
in some node. A local is live before an instruction exactly if a live path
starts there, and after it exactly if it is live before an instruction that
can come next. At the start of a node, empty or not, exactly what is live
before an instruction that is entered from there is live, and at its end what
is so at the start of a successor. -/
theorem live_iff_livePath {ctx : Context} (reachable : Reachable ctx) {f : ValueId} {g : FlowGraph}
    (built : (FlowGraph.build ctx f).outcome = .ok g) :
    ∃ l, Liveness.compute ctx g = .ok l ∧
      (∀ i, (l.before? i).isSome ↔ ∃ n ∈ g.nodes, i ∈ n.instructions) ∧
      (∀ i, (l.after? i).isSome ↔ ∃ n ∈ g.nodes, i ∈ n.instructions) ∧
      (∀ i s v, l.before? i = some s → (v ∈ s ↔ ctx.isLocal v ∧
        ∃ path last, (path ++ [last]).head? = some i ∧ g.LivePath ctx v path last)) ∧
      (∀ i s v, l.after? i = some s →
        (v ∈ s ↔ ∃ j t, g.Follows i j ∧ l.before? j = some t ∧ v ∈ t)) ∧
      l.liveIn.size = g.nodes.length ∧ l.liveOut.size = g.nodes.length ∧
      (∀ k s v, l.liveIn[k]? = some s →
        (v ∈ s ↔ ∃ j t, g.Enters k j ∧ l.before? j = some t ∧ v ∈ t)) ∧
      (∀ k s v, l.liveOut[k]? = some s →
        (v ∈ s ↔ ∃ m ∈ g.successorsOf k, ∃ j t, g.Enters m j ∧ l.before? j = some t ∧ v ∈ t)) := by
  have hbuilt := FlowGraph.built_of_build reachable.sound built
  obtain ⟨l, hl, h⟩ := Liveness.compute_of_built reachable.sound hbuilt
  refine ⟨l, hl, fun i => h.isSome_before?_iff, fun i => h.isSome_after?_iff,
    fun i s v hs => ?_, fun i s v hs => h.mem_after_iff hs, h.size, h.sizeOut,
    fun k s v hs => ?_, fun k s v hs => ?_⟩
  · rw [h.mem_before_iff hs, FlowGraph.readAhead_iff]
  · rw [← valuesAt_of_get hs]
    exact h.mem_liveIn_iff
  · have hlt : k < g.nodes.length := by
      rw [← h.sizeOut]
      exact (Array.getElem?_eq_some_iff.1 hs).1
    rw [← valuesAt_of_get hs, h.liveOut (List.getElem?_eq_getElem hlt)]
    simp only [h.mem_liveIn_iff]

/-- A function of three blocks: the first is empty, the second adds to `x` and
may go back to the first, and the third returns without reading `x`. -/
def addsInLoop : Context :=
  Operation.runAll
    [.createFunction true "" none, .createArgument "" (some ⟨0, 0⟩),
      .createLocal "" (some ⟨0, 0⟩), .createBlock "" (some ⟨0, 0⟩) none,
      .createBlock "" (some ⟨0, 0⟩) none, .createBlock "" (some ⟨0, 0⟩) none,
      .createForm (.binary .add ⟨0, 2⟩ ⟨0, 2⟩ ⟨0, 1⟩) (.atEnd ⟨0, 4⟩),
      .createForm (.branch ⟨0, 1⟩ ⟨0, 3⟩) (.atEnd ⟨0, 4⟩),
      .createForm .retVoid (.atEnd ⟨0, 5⟩)] { id := 0 }

/-- At the branch `x` is live, since the way back leads through the empty node
to the addition. -/
theorem live_iff_livePath_addsInLoop :
    Reachable addsInLoop ∧ ∃ g l s, (FlowGraph.build addsInLoop ⟨0, 0⟩).outcome = .ok g ∧
      Liveness.compute addsInLoop g = .ok l ∧ l.before? ⟨0, 1⟩ = some s ∧ ⟨0, 2⟩ ∈ s := by
  have hreachable : Reachable addsInLoop := (Reachable.empty 0).runAll (by decide)
  obtain ⟨g, hg, hnodes, hloop⟩ : ∃ g, (FlowGraph.build addsInLoop ⟨0, 0⟩).outcome = .ok g ∧
      g.nodes = [⟨⟨0, 3⟩, 0, 0, []⟩, ⟨⟨0, 4⟩, 0, 1, [⟨0, 0⟩, ⟨0, 1⟩]⟩, ⟨⟨0, 5⟩, 0, 0, [⟨0, 2⟩]⟩] ∧
      0 ∈ g.successorsOf 1 ∧ 1 ∈ g.successorsOf 0 :=
    ⟨_, rfl, by decide +kernel, by decide +kernel⟩
  obtain ⟨l, hl, hdefined, -, hbefore, -⟩ := live_iff_livePath hreachable hg
  have hin : ∃ n ∈ g.nodes, (⟨0, 1⟩ : InstId) ∈ n.instructions := by
    rw [hnodes]
    decide
  obtain ⟨s, hs⟩ := Option.isSome_iff_exists.1 ((hdefined ⟨0, 1⟩).2 hin)
  have hempty : g.nodes[0]? = some ⟨⟨0, 3⟩, 0, 0, []⟩ := by
    rw [hnodes]
    rfl
  have hbody : g.nodes[1]? = some ⟨⟨0, 4⟩, 0, 1, [⟨0, 0⟩] ++ [⟨0, 1⟩]⟩ := by
    rw [hnodes]
    rfl
  have hback : g.Follows ⟨0, 1⟩ ⟨0, 0⟩ :=
    .across hbody rfl hloop.1 (.through hempty rfl hloop.2 (.first hbody rfl))
  refine ⟨hreachable, g, l, s, hg, hl, hs, (hbefore _ s _ hs).2 ⟨by decide, ?_⟩⟩
  refine ⟨[⟨0, 1⟩], ⟨0, 0⟩, rfl, ?_, ⟨_, rfl, by decide⟩, ?_⟩
  · exact List.isChain_cons.2 ⟨fun j hj => Option.some.inj hj ▸ hback, List.isChain_singleton _⟩
  · rintro i hi ⟨x, hx, hv⟩
    obtain rfl := List.mem_singleton.1 hi
    rw [← Option.some.inj hx] at hv
    exact absurd hv (by decide)

end ContractIR
