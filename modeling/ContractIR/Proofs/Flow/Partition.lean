import Mathlib.Data.List.Chain
import ContractIR.Proofs.Flow.Edges
/-!
# Nodes partition the blocks

The nodes of a function are numbered block by block, so those of one block
have numbers that follow each other. Put together, they make up the block as
far as control can go straight through it: up to the first instruction that
nothing goes past, or to the end. Each of them holds ordinary instructions,
then conditional branches, then at most one instruction that ends the control
flow; and where one node of a block ends and the next starts, an ordinary
instruction follows a conditional branch.
-/

namespace ContractIR

namespace Sequence

variable {α : Type}

/-- The front of a list, up to and with the first element that passes a test;
all of it if none does. -/
def upTo (p : α → Bool) : List α → List α
  | [] => []
  | a :: l => if p a then [a] else a :: upTo p l

theorem upTo_congr {p q : α → Bool} {l : List α} (h : ∀ a ∈ l, p a = q a) :
    upTo p l = upTo q l := by
  induction l with
  | nil => rfl
  | cons a l ih =>
    rw [upTo, upTo, h a List.mem_cons_self, ih fun c hc => h c (List.mem_cons_of_mem a hc)]

end Sequence

/-! ## Pieces -/

namespace Exit

variable {α : Type} {e : α → Exit} {l p : List α} {ps : List (List α)}

namespace Cut

/-- **The pieces make up the sequence** up to where control flow ends. -/
theorem flatten_eq_upTo (h : Cut e l ps) :
    ps.flatten = Sequence.upTo (fun a => e a = .final) l := by
  induction h with
  | empty => rfl
  | final ha => simp [Sequence.upTo, ha]
  | last ha => simp [Sequence.upTo, ha]
  | @more a c l r ps ha _ _ ih =>
    rw [Sequence.upTo, if_neg (by simpa using ha), ← ih]
    rfl
  | @next a c l r ps ha _ _ ih =>
    rw [Sequence.upTo, if_neg (by simp [ha]), ← ih]
    rfl

/-- **Where one piece ends and the next starts**, an ordinary element follows a
conditional branch. -/
theorem isChain (h : Cut e l ps) :
    ps.IsChain fun p q => (∃ z ∈ p.getLast?, e z = .conditional) ∧
      ∃ a ∈ q.head?, e a = .straight := by
  induction h with
  | empty => exact .nil
  | final | last => exact .singleton _
  | @more a c l r ps _ _ _ ih =>
    obtain ⟨hnext, hrest⟩ := List.isChain_cons.1 ih
    refine List.isChain_cons.2 ⟨fun q hq => ?_, hrest⟩
    rw [List.getLast?_cons_cons]
    exact hnext q hq
  | @next a c l r ps ha hc _ ih =>
    exact List.isChain_cons_cons.2 ⟨⟨⟨a, rfl, ha⟩, c, rfl, hc⟩, ih⟩

end Cut

/-- **Three runs**: what nothing follows out of turn is ordinary elements, then
conditional branches, then at most one element where control flow ends. -/
theorem exists_runs
    (h : p.Pairwise fun a c => e a ≠ .final ∧ (e a = .conditional → e c ≠ .straight)) :
    ∃ code branches closing, p = code ++ branches ++ closing ∧ (∀ a ∈ code, e a = .straight) ∧
      (∀ a ∈ branches, e a = .conditional) ∧ (∀ a ∈ closing, e a = .final) ∧
      closing.length ≤ 1 := by
  induction p with
  | nil => exact ⟨[], [], [], rfl, nofun, nofun, nofun, Nat.zero_le 1⟩
  | cons a p ih =>
    obtain ⟨hbehind, hrest⟩ := List.pairwise_cons.1 h
    obtain ⟨code, branches, closing, rfl, hcode, hbranches, hclosing, hlength⟩ := ih hrest
    cases ha : e a with
    | straight =>
      refine ⟨a :: code, branches, closing, rfl, ?_, hbranches, hclosing, hlength⟩
      exact List.forall_mem_cons.2 ⟨ha, hcode⟩
    | conditional =>
      -- Nothing ordinary follows, so the first run is empty.
      have hnone : code = [] := by
        refine List.eq_nil_iff_forall_not_mem.2 fun c hc => ?_
        have hmem : c ∈ code ++ branches ++ closing := by simp [hc]
        exact (hbehind c hmem).2 ha (hcode c hc)
      subst hnone
      refine ⟨[], a :: branches, closing, rfl, nofun, ?_, hclosing, hlength⟩
      exact List.forall_mem_cons.2 ⟨ha, hbranches⟩
    | final =>
      -- Nothing follows at all.
      have hnone : code ++ branches ++ closing = [] :=
        List.eq_nil_iff_forall_not_mem.2 fun c hc => (hbehind c hc).1 ha
      rw [hnone]
      exact ⟨[], [], [a], rfl, nofun, nofun, by simpa using ha, Nat.le_refl 1⟩

end Exit

namespace Context

open Exit

variable {ctx : Context} {b : ValueId} {i : InstId} {n : GraphNode} {x : Instruction}

/-! ## Tests of instructions -/

/-- Whether an instruction is no branch, return or revert. -/
def isOrdinary (ctx : Context) (i : InstId) : Bool :=
  (ctx.inst? i).any fun x => !x.opcode.isTerminator

/-- Whether an instruction is a branch with a condition. -/
def isConditional (ctx : Context) (i : InstId) : Bool :=
  (ctx.inst? i).any Instruction.isConditional

/-- Whether an instruction is a branch without condition, a return or a
revert. -/
def isUnconditional (ctx : Context) (i : InstId) : Bool :=
  (ctx.inst? i).any Instruction.isUnconditional

/-- **How control leaves an instruction in shape** is what the tests say. -/
theorem Shaped.flow_iff (h : ctx.Shaped x) :
    (x.flow = .straight ↔ x.opcode.isTerminator = false) ∧
      (x.flow = .conditional ↔ x.isConditional) ∧ (x.flow = .final ↔ x.isUnconditional) := by
  unfold Instruction.flow Instruction.isConditional Instruction.isUnconditional
  cases hop : x.opcode with
  | br => rcases h.branch_operands hop with hone | htwo <;> simp [*, Opcode.isTerminator]
  | _ => simp [Opcode.isTerminator]

theorem isOrdinary_iff (hs : WellShaped ctx) (hx : ctx.inst? i = some x) :
    ctx.isOrdinary i ↔ ctx.flowOf i = .straight := by
  rw [isOrdinary, hx, flowOf_of_live hx, (hs.shaped hx).flow_iff.1]
  simp

theorem isConditional_iff (hs : WellShaped ctx) (hx : ctx.inst? i = some x) :
    ctx.isConditional i ↔ ctx.flowOf i = .conditional := by
  rw [isConditional, hx, flowOf_of_live hx, (hs.shaped hx).flow_iff.2.1]
  rfl

theorem isUnconditional_iff (hs : WellShaped ctx) (hx : ctx.inst? i = some x) :
    ctx.isUnconditional i ↔ ctx.flowOf i = .final := by
  rw [isUnconditional, hx, flowOf_of_live hx, (hs.shaped hx).flow_iff.2.2]
  rfl

/-- **A straight piece of code**: ordinary instructions, then conditional
branches, then at most one instruction that nothing goes past. -/
def IsStraight (ctx : Context) (is : List InstId) : Prop :=
  ∃ code branches closing, is = code ++ branches ++ closing ∧ (∀ i ∈ code, ctx.isOrdinary i) ∧
    (∀ i ∈ branches, ctx.isConditional i) ∧ (∀ i ∈ closing, ctx.isUnconditional i) ∧
    closing.length ≤ 1

theorem Streak.isStraight (hs : WellShaped ctx) {is : List InstId} (h : ctx.Streak is) :
    ctx.IsStraight is := by
  obtain ⟨hlive, hpair⟩ := h
  obtain ⟨code, branches, closing, rfl, hcode, hbranches, hclosing, hlength⟩ := exists_runs hpair
  refine ⟨code, branches, closing, rfl, fun i hi => ?_, fun i hi => ?_, fun i hi => ?_, hlength⟩
  · obtain ⟨x, hx⟩ := hlive i (by simp [hi])
    exact (isOrdinary_iff hs hx).2 (hcode i hi)
  · obtain ⟨x, hx⟩ := hlive i (by simp [hi])
    exact (isConditional_iff hs hx).2 (hbranches i hi)
  · obtain ⟨x, hx⟩ := hlive i (by simp [hi])
    exact (isUnconditional_iff hs hx).2 (hclosing i hi)

/-! ## The nodes of a block -/

/-- A node covers a part of its block, and knows where that starts and
ends. -/
theorem exists_place (h : n ∈ ctx.nodesOf b) :
    ∃ pre post, ctx.body b = pre ++ (n.instructions ++ post) ∧ n.first = pre.length ∧
      n.last = pre.length + n.instructions.length - 1 := by
  by_cases hb : ctx.body b = []
  · rw [nodesOf_of_empty hb, List.mem_singleton] at h
    subst h
    exact ⟨[], [], hb, rfl, rfl⟩
  · rw [nodesOf_of_ne_nil hb] at h
    obtain ⟨ns, ms, hsplit⟩ := List.append_of_mem h
    obtain ⟨qs₁, q, qs₂, hqs, -, rfl, -⟩ := exists_piece_of_nodesFrom hsplit
    obtain ⟨rest, hrest⟩ := (ctx.cut_piecesOf b).flatten_isPrefix
    rw [hqs, List.flatten_append, List.flatten_cons] at hrest
    refine ⟨qs₁.flatten, qs₂.flatten ++ rest, ?_, Nat.zero_add _, by simp only [Nat.zero_add]⟩
    rw [← hrest, List.append_assoc, List.append_assoc]

/-- Only an empty block has an empty node. -/
theorem instructions_ne_nil (h : n ∈ ctx.nodesOf b) (hb : ctx.body b ≠ []) :
    n.instructions ≠ [] := by
  rcases piece_of_mem_nodesOf h with ⟨-, hempty⟩ | hpiece
  · exact absurd hempty hb
  · exact (ctx.cut_piecesOf b).ne_nil hpiece

/-- A node starts at the position of its first instruction. -/
theorem getElem?_first (h : n ∈ ctx.nodesOf b) : (ctx.body b)[n.first]? = n.instructions.head? := by
  obtain ⟨pre, post, hbody, hfirst, -⟩ := exists_place h
  by_cases hb : ctx.body b = []
  · rw [hb] at hbody ⊢
    obtain ⟨-, hrest⟩ := List.append_eq_nil_iff.1 hbody.symm
    rw [(List.append_eq_nil_iff.1 hrest).1]
    rfl
  · rw [hbody, hfirst, List.getElem?_append_right (Nat.le_refl _), Nat.sub_self,
      ← List.head?_eq_getElem?, List.head?_append_of_ne_nil _ (instructions_ne_nil h hb)]

/-- A node ends at the position of its last instruction. -/
theorem getElem?_last (h : n ∈ ctx.nodesOf b) :
    (ctx.body b)[n.last]? = n.instructions.getLast? := by
  obtain ⟨pre, post, hbody, -, hlast⟩ := exists_place h
  by_cases hb : ctx.body b = []
  · rw [hb] at hbody ⊢
    obtain ⟨-, hrest⟩ := List.append_eq_nil_iff.1 hbody.symm
    rw [(List.append_eq_nil_iff.1 hrest).1]
    rfl
  · have hpos := List.length_pos_iff.2 (instructions_ne_nil h hb)
    have hplace : n.last - pre.length = n.instructions.length - 1 := by omega
    rw [hbody, List.getElem?_append_right (by omega), hplace,
      List.getElem?_append_left (by omega), List.getLast?_eq_getElem?]

/-- Where one node of a block ends and the next starts, an ordinary
instruction follows a conditional branch. -/
theorem meet_of_nodesOf {ns ms : List GraphNode} {n' : GraphNode}
    (h : ctx.nodesOf b = ns ++ n :: n' :: ms) :
    (∃ z ∈ n.instructions.getLast?, ctx.flowOf z = .conditional) ∧
      ∃ a ∈ n'.instructions.head?, ctx.flowOf a = .straight := by
  have hb : ctx.body b ≠ [] := by
    intro hb
    have hlength := congrArg List.length h
    rw [nodesOf_of_empty hb, List.length_append] at hlength
    simp only [List.length_cons, List.length_nil] at hlength
    omega
  rw [nodesOf_of_ne_nil hb] at h
  obtain ⟨qs₁, q, qs₂, hqs, -, rfl, hms⟩ := exists_piece_of_nodesFrom h
  cases qs₂ with
  | nil => cases hms
  | cons q' qs₂ =>
    have hchain := (ctx.cut_piecesOf b).isChain
    rw [hqs] at hchain
    rw [(List.cons.inj hms).1]
    exact (List.isChain_append_cons_cons.1 hchain).2.1

/-- The nodes of a block cover it up to where control flow ends. -/
theorem flatMap_instructions_nodesOf (ht : Threaded ctx) (hs : WellShaped ctx) (b : ValueId) :
    (ctx.nodesOf b).flatMap GraphNode.instructions =
      Sequence.upTo ctx.isUnconditional (ctx.body b) := by
  by_cases hb : ctx.body b = []
  · rw [nodesOf_of_empty hb, hb]
    rfl
  · rw [nodesOf_of_ne_nil hb, flatMap_instructions_nodesFrom, (ctx.cut_piecesOf b).flatten_eq_upTo]
    refine Sequence.upTo_congr fun i hi => ?_
    obtain ⟨x, hx, -⟩ := ht.live hi
    rw [Bool.eq_iff_iff, isUnconditional_iff hs hx, decide_eq_true_iff]

end Context

/-! ## Numbers -/

namespace FlowGraph

open Exit Context

/-- The instructions of a node. -/
def instructionsOf (g : FlowGraph) (k : Nat) : List InstId :=
  (g.nodes[k]?.map GraphNode.instructions).getD []

variable {g : FlowGraph} {ctx : Context} {blocks bs₁ bs₂ : List ValueId} {b : ValueId} {k : Nat}
  {n n' : GraphNode} {ns us ms : List GraphNode}

theorem instructionsOf_of_node (h : g.nodes[k]? = some n) : g.instructionsOf k = n.instructions := by
  rw [instructionsOf, h]
  rfl

theorem mem_blockNodes : k ∈ g.blockNodes b ↔ ∃ n, g.nodes[k]? = some n ∧ n.block = b := by
  unfold blockNodes size
  rw [List.mem_filter, List.mem_range, Option.any_eq_true]
  constructor
  · rintro ⟨-, n, hn, hblock⟩
    exact ⟨n, hn, of_decide_eq_true hblock⟩
  · rintro ⟨n, hn, hblock⟩
    exact ⟨(List.getElem?_eq_some_iff.1 hn).1, n, hn, decide_eq_true hblock⟩

/-- If the nodes of a block stand side by side, their numbers follow each
other. -/
theorem blockNodes_eq_range' (h : g.nodes = ns ++ (us ++ ms)) (hns : ∀ n ∈ ns, n.block ≠ b)
    (hus : ∀ n ∈ us, n.block = b) (hms : ∀ n ∈ ms, n.block ≠ b) :
    g.blockNodes b = List.range' ns.length us.length := by
  have hrange : List.range g.size = List.range' 0 ns.length ++
      (List.range' (0 + ns.length) us.length ++
        List.range' (0 + ns.length + us.length) ms.length) := by
    rw [size, h, List.range_eq_range', List.length_append, List.length_append,
      List.range'_append_1, List.range'_append_1]
  have hbefore : ∀ k ∈ List.range' 0 ns.length, ¬ g.nodes[k]?.any fun n => n.block = b := by
    intro k hk
    rw [List.mem_range'_1] at hk
    rw [h, List.getElem?_append_left (by omega), List.getElem?_eq_getElem (by omega)]
    simpa using hns _ (List.getElem_mem _)
  have hinside : ∀ k ∈ List.range' (0 + ns.length) us.length,
      g.nodes[k]?.any fun n => n.block = b := by
    intro k hk
    rw [List.mem_range'_1] at hk
    rw [h, List.getElem?_append_right (by omega), List.getElem?_append_left (by omega),
      List.getElem?_eq_getElem (by omega)]
    simpa using hus _ (List.getElem_mem _)
  have hbehind : ∀ k ∈ List.range' (0 + ns.length + us.length) ms.length,
      ¬ g.nodes[k]?.any fun n => n.block = b := by
    intro k hk
    rw [List.mem_range'_1] at hk
    rw [h, List.getElem?_append_right (by omega), List.getElem?_append_right (by omega),
      List.getElem?_eq_getElem (by omega)]
    simpa using hms _ (List.getElem_mem _)
  rw [blockNodes, hrange, List.filter_append, List.filter_append,
    List.filter_eq_nil_iff.2 hbefore, List.filter_eq_self.2 hinside,
    List.filter_eq_nil_iff.2 hbehind, List.nil_append, List.append_nil, Nat.zero_add]

/-- Nodes that stand side by side hold what the nodes with their numbers
hold. -/
theorem flatMap_instructionsOf_range' (h : g.nodes = ns ++ (us ++ ms)) :
    (List.range' ns.length us.length).flatMap g.instructionsOf =
      us.flatMap GraphNode.instructions := by
  induction us generalizing ns with
  | nil => rfl
  | cons n us ih =>
    have hn : g.nodes[ns.length]? = some n := by
      rw [h]
      simp
    have hrest : g.nodes = (ns ++ [n]) ++ (us ++ ms) := by
      rw [h, List.append_assoc]
      rfl
    have hlength : (ns ++ [n]).length = ns.length + 1 := List.length_append
    rw [List.length_cons, List.range'_succ, List.flatMap_cons, List.flatMap_cons,
      instructionsOf_of_node hn, ← hlength, ih hrest]

namespace Built

/-- The nodes of a block stand between those of the blocks around it. -/
theorem nodes_split (h : g.Built ctx blocks) (hblocks : blocks = bs₁ ++ b :: bs₂) :
    g.nodes = ctx.graphNodes bs₁ ++ (ctx.nodesOf b ++ ctx.graphNodes bs₂) := by
  rw [h.nodes, hblocks, graphNodes, List.flatMap_append, List.flatMap_cons]
  rfl

/-- **The nodes of a block** have the numbers right behind those of the blocks
before it. -/
theorem blockNodes_eq (h : g.Built ctx blocks) (hblocks : blocks = bs₁ ++ b :: bs₂) :
    g.blockNodes b = List.range' (ctx.graphNodes bs₁).length (ctx.nodesOf b).length := by
  have hnodup := h.nodup
  rw [hblocks, List.nodup_append, List.nodup_cons] at hnodup
  obtain ⟨-, ⟨hbehind, -⟩, hbefore⟩ := hnodup
  refine blockNodes_eq_range' (h.nodes_split hblocks) (fun n hn hb => ?_)
    (fun n hn => block_of_mem_nodesOf hn) (fun n hn hb => ?_)
  · obtain ⟨c, hc, hnc⟩ := List.mem_flatMap.1 hn
    rw [block_of_mem_nodesOf hnc] at hb
    exact hbefore c hc b List.mem_cons_self hb
  · obtain ⟨c, hc, hnc⟩ := List.mem_flatMap.1 hn
    rw [block_of_mem_nodesOf hnc] at hb
    exact hbehind (hb ▸ hc)

/-- **The numbers run through the blocks** in their order. -/
theorem flatMap_blockNodes (h : g.Built ctx blocks) :
    blocks.flatMap g.blockNodes = List.range g.size := by
  -- The blocks from some block on have the numbers from its first node on.
  have hsuffix : ∀ bs₂ bs₁, blocks = bs₁ ++ bs₂ → bs₂.flatMap g.blockNodes =
      List.range' (ctx.graphNodes bs₁).length (ctx.graphNodes bs₂).length := by
    intro bs₂
    induction bs₂ with
    | nil => exact fun _ _ => rfl
    | cons b bs₂ ih =>
      intro bs₁ hblocks
      have hrest : blocks = (bs₁ ++ [b]) ++ bs₂ := by
        rw [hblocks, List.append_assoc]
        rfl
      have hfront : ctx.graphNodes (bs₁ ++ [b]) = ctx.graphNodes bs₁ ++ ctx.nodesOf b := by
        rw [graphNodes, List.flatMap_append, List.flatMap_singleton]
        rfl
      have hback : ctx.graphNodes (b :: bs₂) = ctx.nodesOf b ++ ctx.graphNodes bs₂ := rfl
      rw [List.flatMap_cons, ih _ hrest, h.blockNodes_eq hblocks, hfront, hback,
        List.length_append, List.length_append, List.range'_append_1]
  rw [hsuffix blocks [] rfl, size, h.nodes, List.range_eq_range']
  rfl

/-- A node of the graph is one of its block. -/
theorem mem_nodesOf (h : g.Built ctx blocks) (hk : g.nodes[k]? = some n) :
    n ∈ ctx.nodesOf n.block := by
  have hn := List.mem_of_getElem? hk
  rw [h.nodes] at hn
  obtain ⟨c, -, hnc⟩ := List.mem_flatMap.1 hn
  rw [block_of_mem_nodesOf hnc]
  exact hnc

/-- Nodes of one block that follow each other in the graph do so in the
block. -/
theorem nodesOf_split (h : g.Built ctx blocks) (hk : g.nodes[k]? = some n)
    (hk' : g.nodes[k + 1]? = some n') (hblock : n'.block = n.block) :
    ∃ ns ms, ctx.nodesOf n.block = ns ++ n :: n' :: ms := by
  rw [h.nodes] at hk hk'
  obtain ⟨ns, ms, hsplit, rfl⟩ := Exit.split_of_getElem? hk
  obtain ⟨bs₁, b, bs₂, ns₁, ms₁, hblocks, hb, -, hms⟩ := split_graphNodes hsplit
  have hnb : n.block = b := block_of_mem_nodesOf (by rw [hb]; simp)
  have hnext : ms[0]? = some n' := by
    rw [hsplit, List.getElem?_append_right (Nat.le_succ _)] at hk'
    simpa using hk'
  cases ms₁ with
  | nil =>
    -- The next node is of a later block, and no block is listed twice.
    rw [List.nil_append] at hms
    rw [hms] at hnext
    obtain ⟨c, hc, hnc⟩ := List.mem_flatMap.1 (List.mem_of_getElem? hnext)
    have hnodup := h.nodup
    rw [hblocks, List.nodup_append, List.nodup_cons] at hnodup
    rw [← block_of_mem_nodesOf hnc, hblock, hnb] at hc
    exact absurd hc hnodup.2.1.1
  | cons m ms₁ =>
    rw [hms] at hnext
    obtain rfl : m = n' := Option.some.inj hnext
    exact ⟨ns₁, ms₁, hnb ▸ hb⟩

/-- Where one node of a block ends and the next starts, an ordinary
instruction follows a conditional branch. -/
theorem meet (h : g.Built ctx blocks) (hsound : Sound ctx) (hk : g.nodes[k]? = some n)
    (hk' : g.nodes[k + 1]? = some n') (hblock : n'.block = n.block) :
    (∃ z ∈ n.instructions.getLast?, ctx.isConditional z) ∧
      ∃ a ∈ n'.instructions.head?, ctx.isOrdinary a := by
  obtain ⟨ns, ms, hsplit⟩ := h.nodesOf_split hk hk' hblock
  obtain ⟨⟨z, hz, hzflow⟩, a, ha, haflow⟩ := meet_of_nodesOf hsplit
  have hn' : n' ∈ ctx.nodesOf n.block := by
    rw [hsplit]
    simp
  obtain ⟨x, hx, -⟩ := hsound.threaded.live
    (mem_body_of_mem_node (h.mem_nodesOf hk) (List.mem_of_getLast? hz))
  obtain ⟨y, hy, -⟩ := hsound.threaded.live (mem_body_of_mem_node hn' (List.mem_of_head? ha))
  exact ⟨⟨z, hz, (isConditional_iff hsound.shaped hx).2 hzflow⟩,
    a, ha, (isOrdinary_iff hsound.shaped hy).2 haflow⟩

/-- **A node is found where it starts**, and nothing else is found. -/
theorem nodeAt?_eq_some_iff (h : g.Built ctx blocks) {first : Nat} :
    g.nodeAt? b first = some k ↔ ∃ n, g.nodes[k]? = some n ∧ n.block = b ∧ n.first = first := by
  unfold nodeAt?
  constructor
  · intro hfound
    obtain ⟨ns, n, ms, hsplit, rfl, hblock, hfirst⟩ := split_of_nodeAt? hfound
    refine ⟨n, ?_, hblock, hfirst⟩
    rw [hsplit]
    simp
  · rintro ⟨n, hn, rfl, rfl⟩
    obtain ⟨ns, ms, hsplit, rfl⟩ := Exit.split_of_getElem? hn
    have hkeyed : Keyed g.nodes := by
      rw [h.nodes]
      exact keyed_graphNodes h.nodup
    exact nodeAt?_of_split hkeyed hsplit

end Built

end FlowGraph

/-- **The nodes of a flow graph partition what control can reach of each
block.** Numbers run through the blocks in their order. The nodes of a block
have numbers that follow each other, and together they hold the block up to
and with the first instruction that nothing goes past; an empty block has one
empty node. Each node holds a straight piece of code and knows where in its
block that starts and ends. Where one node of a block ends and the next starts,
an ordinary instruction follows a conditional branch. And a node is found by
its block and where it starts there. -/
theorem nodes_partition_blocks {ctx : Context} (reachable : Reachable ctx) {f : ValueId}
    {g : FlowGraph} (built : (FlowGraph.build ctx f).outcome = .ok g) :
    (ctx.members f .blocks).flatMap g.blockNodes = List.range g.size ∧
    (∀ b ∈ ctx.members f .blocks,
      (∃ k count, 0 < count ∧ g.blockNodes b = List.range' k count) ∧
      (g.blockNodes b).flatMap g.instructionsOf =
        Sequence.upTo ctx.isUnconditional (ctx.body b) ∧
      (ctx.body b = [] → ∃ k, g.blockNodes b = [k] ∧ g.nodes[k]? = some ⟨b, 0, 0, []⟩)) ∧
    (∀ k n, g.nodes[k]? = some n →
      (ctx.body n.block)[n.first]? = n.instructions.head? ∧
      (ctx.body n.block)[n.last]? = n.instructions.getLast? ∧
      (ctx.body n.block ≠ [] → n.instructions ≠ []) ∧
      ctx.IsStraight n.instructions ∧
      ∀ n', g.nodes[k + 1]? = some n' → n'.block = n.block →
        (∃ z ∈ n.instructions.getLast?, ctx.isConditional z) ∧
        ∃ a ∈ n'.instructions.head?, ctx.isOrdinary a) ∧
    ∀ b first k, g.nodeAt? b first = some k ↔
      k ∈ g.blockNodes b ∧ ∃ n, g.nodes[k]? = some n ∧ n.block = b ∧ n.first = first := by
  have h := reachable.sound
  have hbuilt := FlowGraph.built_of_build h built
  refine ⟨hbuilt.flatMap_blockNodes, fun b hb => ?_, fun k n hk => ?_, fun b first k => ?_⟩
  · obtain ⟨bs₁, bs₂, hblocks⟩ := List.append_of_mem hb
    have hsplit := hbuilt.nodes_split hblocks
    rw [hbuilt.blockNodes_eq hblocks]
    refine ⟨⟨_, _, ?_, rfl⟩, ?_, fun hempty => ⟨(ctx.graphNodes bs₁).length, ?_, ?_⟩⟩
    · obtain ⟨n, ns, hns, -⟩ := ctx.exists_first_node b
      rw [hns]
      exact Nat.succ_pos _
    · rw [FlowGraph.flatMap_instructionsOf_range' hsplit,
        Context.flatMap_instructions_nodesOf h.threaded h.shaped]
    · rw [Context.nodesOf_of_empty hempty]
      rfl
    · rw [hsplit, Context.nodesOf_of_empty hempty]
      simp
  · have hn := hbuilt.mem_nodesOf hk
    have hstreak : ctx.Streak n.instructions := by
      have hmem := List.mem_of_getElem? hk
      rw [hbuilt.nodes] at hmem
      exact Context.streak_of_mem_graphNodes h.threaded hmem
    refine ⟨Context.getElem?_first hn, Context.getElem?_last hn, Context.instructions_ne_nil hn,
      hstreak.isStraight h.shaped, fun n' hk' hblock => hbuilt.meet h hk hk' hblock⟩
  · rw [hbuilt.nodeAt?_eq_some_iff, FlowGraph.mem_blockNodes]
    constructor
    · rintro ⟨n, hn, hblock, hfirst⟩
      exact ⟨⟨n, hn, hblock⟩, n, hn, hblock, hfirst⟩
    · exact fun hfound => hfound.2

/-- A function of three blocks: one is empty; one holds code, two branches,
code, a branch, a return and code behind it; one holds code only. -/
def interleaved : Context :=
  Operation.runAll
    [.createFunction true "" none, .createArgument "" (some ⟨0, 0⟩),
      .createLocal "" (some ⟨0, 0⟩), .createBlock "" (some ⟨0, 0⟩) none,
      .createBlock "" (some ⟨0, 0⟩) none, .createBlock "" (some ⟨0, 0⟩) none,
      .createForm (.binary .add ⟨0, 2⟩ ⟨0, 2⟩ ⟨0, 1⟩) (.atEnd ⟨0, 4⟩),
      .createForm (.branch ⟨0, 1⟩ ⟨0, 3⟩) (.atEnd ⟨0, 4⟩),
      .createForm (.branch ⟨0, 2⟩ ⟨0, 5⟩) (.atEnd ⟨0, 4⟩),
      .createForm (.binary .mul ⟨0, 2⟩ ⟨0, 2⟩ ⟨0, 1⟩) (.atEnd ⟨0, 4⟩),
      .createForm (.branch ⟨0, 2⟩ ⟨0, 4⟩) (.atEnd ⟨0, 4⟩),
      .createForm .retVoid (.atEnd ⟨0, 4⟩),
      .createForm (.binary .add ⟨0, 2⟩ ⟨0, 2⟩ ⟨0, 1⟩) (.atEnd ⟨0, 4⟩),
      .createForm (.binary .add ⟨0, 2⟩ ⟨0, 2⟩ ⟨0, 1⟩) (.atEnd ⟨0, 5⟩)] { id := 0 }

/-- The empty block has the first node. The two nodes of the next block hold
all of it but the code behind the return, and the second of them starts with
the code behind the branches. -/
theorem nodes_partition_blocks_interleaved :
    Reachable interleaved ∧ ∃ g, (FlowGraph.build interleaved ⟨0, 0⟩).outcome = .ok g ∧
      (g.blockNodes ⟨0, 4⟩).flatMap g.instructionsOf =
        [⟨0, 0⟩, ⟨0, 1⟩, ⟨0, 2⟩, ⟨0, 3⟩, ⟨0, 4⟩, ⟨0, 5⟩] ∧
      (interleaved.body ⟨0, 4⟩).length = 7 ∧
      (∃ k, g.blockNodes ⟨0, 3⟩ = [k] ∧ g.nodes[k]? = some ⟨⟨0, 3⟩, 0, 0, []⟩) ∧
      ∃ k, g.nodeAt? ⟨0, 4⟩ 3 = some k ∧ k ∈ g.blockNodes ⟨0, 4⟩ := by
  have hreachable : Reachable interleaved := (Reachable.empty 0).runAll (by decide)
  obtain ⟨g, hg, hfound⟩ : ∃ g, (FlowGraph.build interleaved ⟨0, 0⟩).outcome = .ok g ∧
      g.nodeAt? ⟨0, 4⟩ 3 = some 2 := ⟨_, rfl, by decide +kernel⟩
  obtain ⟨-, hblocks, -, hat⟩ := nodes_partition_blocks hreachable hg
  obtain ⟨-, hcover, -⟩ := hblocks ⟨0, 4⟩ (by decide +kernel)
  obtain ⟨-, -, hempty⟩ := hblocks ⟨0, 3⟩ (by decide +kernel)
  exact ⟨hreachable, g, hg, hcover.trans (by decide +kernel), by decide +kernel,
    hempty (by decide +kernel), 2, hfound, ((hat _ _ _).1 hfound).1⟩

end ContractIR
