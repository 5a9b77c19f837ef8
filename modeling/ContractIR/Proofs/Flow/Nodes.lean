import Mathlib.Data.List.Nodup
import ContractIR.Flow.Graph
import ContractIR.Proofs.Shapes
/-!
# The nodes of a flow graph

A block is cut into pieces by a recursion over its instructions, and the
pieces of all blocks, one block after the other, are the nodes. This file
says what a piece looks like: ordinary instructions, then conditional
branches, then at most one instruction that ends the control flow. It also
says how the nodes are numbered: no two start at the same place, and where
control can run past the end of a node, it runs on to the node with the next
number. Read with two positions, where a piece starts and how far it has been
read, the recursion is a loop (`Scans`, `scans_nodesOf`).
-/

namespace ContractIR

/-- How control leaves an instruction in shape. -/
def Instruction.flow (x : Instruction) : Exit :=
  match x.opcode with
  | .ret | .revert => .final
  | .br => if x.operands.length = 2 then .conditional else .final
  | _ => .straight

/-- A branch in shape has one operand or two. -/
theorem Context.Shaped.branch_operands {ctx : Context} {x : Instruction} (h : ctx.Shaped x)
    (hop : x.opcode = .br) : x.operands.length = 1 ∨ x.operands.length = 2 := by
  have hcount := h.operands
  rw [hop] at hcount
  simpa [Opcode.shape, Arity.accepts] using hcount

/-- An instruction in shape has an exit. -/
theorem Context.Shaped.exit_eq {ctx : Context} {x : Instruction} (h : ctx.Shaped x) :
    x.exit = .ok x.flow := by
  unfold Instruction.exit Instruction.flow
  cases hop : x.opcode with
  | br => rcases h.branch_operands hop with h1 | h2 <;> simp [*]
  | _ => rfl

namespace Exit

variable {α : Type} {e : α → Exit} {a c : α} {l p : List α} {ps : List (List α)}

/-! ## Cutting a sequence -/

/-- **A sequence cut into pieces.** Control leaves each element as `e` says.
Nothing follows the element where control flow ends; a piece ends before that
only where an ordinary element follows a conditional branch. -/
inductive Cut (e : α → Exit) : List α → List (List α) → Prop
  | empty : Cut e [] []
  | final {a : α} {l : List α} : e a = .final → Cut e (a :: l) [[a]]
  | last {a : α} : e a ≠ .final → Cut e [a] [[a]]
  | more {a c : α} {l r : List α} {ps : List (List α)} : e a ≠ .final →
      (e a = .conditional → e c ≠ .straight) → Cut e (c :: l) ((c :: r) :: ps) →
      Cut e (a :: c :: l) ((a :: c :: r) :: ps)
  | next {a c : α} {l r : List α} {ps : List (List α)} : e a = .conditional → e c = .straight →
      Cut e (c :: l) ((c :: r) :: ps) → Cut e (a :: c :: l) ([a] :: (c :: r) :: ps)

/-- Each element with how control leaves it. -/
def tagged (e : α → Exit) (l : List α) : List (α × Exit) := l.map fun a => (a, e a)

/-- What is cut starts with the first piece. -/
theorem Cut.head (h : Cut e (a :: l) ps) : ∃ r qs, ps = (a :: r) :: qs := by
  cases h with
  | final | last => exact ⟨[], [], rfl⟩
  | more => exact ⟨_, _, rfl⟩
  | next => exact ⟨[], _, rfl⟩

/-- **The pieces of a block are such a cut.** -/
theorem cut_pieces (e : α → Exit) (l : List α) : Cut e l (pieces (tagged e l)) := by
  induction l with
  | nil => exact .empty
  | cons a l ih =>
    have htagged : tagged e (a :: l) = (a, e a) :: tagged e l := rfl
    rw [htagged]
    cases hl : l with
    | nil =>
      cases ha : e a with
      | straight => exact .last (by rw [ha]; exact nofun)
      | conditional => exact .last (by rw [ha]; exact nofun)
      | final => exact .final ha
    | cons c l' =>
      subst hl
      obtain ⟨r, ps, hps⟩ := ih.head
      rw [hps] at ih
      cases ha : e a with
      | straight =>
        rw [pieces, hps]
        exact .more (by rw [ha]; exact nofun) (by rw [ha]; exact nofun) ih
      | conditional =>
        have hhead : (tagged e (c :: l')).head?.map Prod.snd = some (e c) := rfl
        rw [pieces, hhead, hps]
        split
        · rename_i hc
          exact .next ha (Option.some.inj hc) ih
        · rename_i hc
          refine .more (by rw [ha]; exact nofun) (fun _ hcs => hc (by rw [hcs])) ih
      | final => exact .final ha

namespace Cut

/-- A piece is never empty. -/
theorem ne_nil (h : Cut e l ps) (hp : p ∈ ps) : p ≠ [] := by
  induction h with
  | empty => exact absurd hp List.not_mem_nil
  | final | last =>
    rw [List.mem_singleton.1 hp]
    exact List.cons_ne_nil _ _
  | more _ _ _ ih =>
    rcases List.mem_cons.1 hp with rfl | hp
    · exact List.cons_ne_nil _ _
    · exact ih (List.mem_cons_of_mem _ hp)
  | next _ _ _ ih =>
    rcases List.mem_cons.1 hp with rfl | hp
    · exact List.cons_ne_nil _ _
    · exact ih hp

/-- The pieces cover the sequence from its front. -/
theorem flatten_isPrefix (h : Cut e l ps) : ps.flatten <+: l := by
  induction h with
  | empty => exact List.prefix_rfl
  | @final a l _ => exact ⟨l, rfl⟩
  | last => exact List.prefix_rfl
  | more _ _ _ ih =>
    obtain ⟨t, ht⟩ := ih
    exact ⟨t, by rw [← ht]; rfl⟩
  | next _ _ _ ih =>
    obtain ⟨t, ht⟩ := ih
    exact ⟨t, by rw [← ht]; rfl⟩

/-- They cover all of it unless control flow ends before. -/
theorem flatten_eq (h : Cut e l ps) (hlast : ∀ z ∈ ps.flatten.getLast?, e z ≠ .final) :
    ps.flatten = l := by
  induction h with
  | empty => rfl
  | final ha => exact absurd ha (hlast _ rfl)
  | last => rfl
  | @more a c l r ps _ _ _ ih =>
    have hflat : ((a :: c :: r) :: ps).flatten = a :: ((c :: r) :: ps).flatten := rfl
    rw [hflat] at hlast ⊢
    rw [ih fun z hz => hlast z (by rw [List.flatten_cons, List.cons_append] at hz ⊢; exact hz)]
  | @next a c l r ps _ _ _ ih =>
    have hflat : ([a] :: (c :: r) :: ps).flatten = a :: ((c :: r) :: ps).flatten := rfl
    rw [hflat] at hlast ⊢
    rw [ih fun z hz => hlast z (by rw [List.flatten_cons, List.cons_append] at hz ⊢; exact hz)]

/-- **Ordinary instructions, then conditional branches, then the end**: in a
piece nothing follows where control flow ends, and nothing ordinary follows a
conditional branch. -/
theorem pairwise (h : Cut e l ps) (hp : p ∈ ps) :
    p.Pairwise fun a c => e a ≠ .final ∧ (e a = .conditional → e c ≠ .straight) := by
  induction h generalizing p with
  | empty => exact absurd hp List.not_mem_nil
  | final | last =>
    rw [List.mem_singleton.1 hp]
    exact List.pairwise_singleton _ _
  | @more a c l r ps ha hac _ ih =>
    rcases List.mem_cons.1 hp with rfl | hp
    · have hrest := ih List.mem_cons_self
      refine List.pairwise_cons.2 ⟨fun d hd => ⟨ha, fun hcond => ?_⟩, hrest⟩
      have hc : e c ≠ .straight := hac hcond
      rcases List.mem_cons.1 hd with rfl | hd
      · exact hc
      · -- what follows a conditional branch is conditional, so the streak goes on
        obtain ⟨hfinal, hcd⟩ := (List.pairwise_cons.1 hrest).1 d hd
        refine hcd ?_
        cases hec : e c with
        | straight => exact absurd hec hc
        | conditional => rfl
        | final => exact absurd hec hfinal
    · exact ih (List.mem_cons_of_mem _ hp)
  | next _ _ _ ih =>
    rcases List.mem_cons.1 hp with rfl | hp
    · exact List.pairwise_singleton _ _
    · exact ih hp

end Cut

/-! ## The nodes of pieces -/

variable {b : ValueId} {k : Nat} {n : GraphNode} {is : List InstId} {qs rs : List (List InstId)}

/-- A node of a block holds one of its pieces and starts where the piece
does. -/
theorem exists_piece_of_nodesFrom {ns ms : List GraphNode}
    (h : nodesFrom b k qs = ns ++ n :: ms) :
    ∃ qs₁ q qs₂, qs = qs₁ ++ q :: qs₂ ∧ ns = nodesFrom b k qs₁ ∧
      n = ⟨b, k + qs₁.flatten.length, k + qs₁.flatten.length + q.length - 1, q⟩ ∧
      ms = nodesFrom b (k + qs₁.flatten.length + q.length) qs₂ := by
  induction qs generalizing k ns with
  | nil => exact absurd h (by simp [nodesFrom])
  | cons q qs ih =>
    rw [nodesFrom] at h
    cases ns with
    | nil =>
      obtain ⟨hn, hms⟩ := List.cons.inj h
      exact ⟨[], q, qs, rfl, rfl, hn.symm, hms.symm⟩
    | cons m ns =>
      obtain ⟨hm, htail⟩ := List.cons.inj h
      obtain ⟨qs₁, q', qs₂, rfl, hns, hn, hms⟩ := ih htail
      have hlen : k + (q :: qs₁).flatten.length = k + q.length + qs₁.flatten.length := by
        rw [List.flatten_cons, List.length_append]
        omega
      refine ⟨q :: qs₁, q', qs₂, rfl, ?_, ?_, ?_⟩
      · rw [nodesFrom, hns, hm]
      · rw [hlen]; exact hn
      · rw [hlen]; exact hms

/-- The nodes of some pieces hold what the pieces hold. -/
theorem flatMap_instructions_nodesFrom : ∀ k,
    (nodesFrom b k qs).flatMap GraphNode.instructions = qs.flatten := by
  induction qs with
  | nil => intro k; rfl
  | cons q qs ih =>
    intro k
    rw [nodesFrom, List.flatMap_cons, ih, List.flatten_cons]

/-- The nodes of a block start one after the other. -/
theorem nodesFrom_pairwise (hne : ∀ q ∈ qs, q ≠ []) : ∀ k,
    (nodesFrom b k qs).Pairwise (fun n m => n.first < m.first) ∧
      ∀ n ∈ nodesFrom b k qs, n.block = b ∧ k ≤ n.first := by
  induction qs with
  | nil => intro k; exact ⟨.nil, fun n hn => absurd hn List.not_mem_nil⟩
  | cons q qs ih =>
    intro k
    have hpos : 0 < q.length := List.length_pos_iff.2 (hne q List.mem_cons_self)
    obtain ⟨hpair, hblock⟩ := ih (fun q' hq' => hne q' (List.mem_cons_of_mem q hq')) (k + q.length)
    rw [nodesFrom]
    refine ⟨List.pairwise_cons.2 ⟨fun m hm => ?_, hpair⟩, fun n hn => ?_⟩
    · have hle := (hblock m hm).2
      show k < m.first
      omega
    · rcases List.mem_cons.1 hn with rfl | hn
      · exact ⟨rfl, Nat.le_refl k⟩
      · exact ⟨(hblock n hn).1, by have hle := (hblock n hn).2; omega⟩

/-! ## The loop over positions -/

/-- The node of a block that reaches from one position to another. -/
def nodeBetween (b : ValueId) (is : List InstId) (start last : Nat) : GraphNode :=
  ⟨b, start, last, Sequence.slice start (last + 1) is⟩

/-- **Cutting a block with two positions**, where the piece starts and how far it
has been read. It is read past ordinary instructions first and past conditional
branches then; what stands behind these closes the piece. -/
inductive Scans (b : ValueId) (e : InstId → Exit) (is : List InstId) :
    Bool → Nat → Nat → List GraphNode → Prop
  /-- Past an ordinary instruction. -/
  | pass {i : InstId} {start index : Nat} {nodes : List GraphNode} (here : is[index]? = some i)
      (straight : e i = .straight) (rest : Scans b e is false start (index + 1) nodes) :
      Scans b e is false start index nodes
  /-- What is none is where the branches begin. -/
  | turn {start index : Nat} {nodes : List GraphNode}
      (here : ∀ i, is[index]? = some i → e i ≠ .straight)
      (rest : Scans b e is true start index nodes) : Scans b e is false start index nodes
  /-- Past a conditional branch. -/
  | branch {i : InstId} {start index : Nat} {nodes : List GraphNode} (here : is[index]? = some i)
      (conditional : e i = .conditional) (rest : Scans b e is true start (index + 1) nodes) :
      Scans b e is true start index nodes
  /-- The block ends, and the piece with it. -/
  | ends {start index : Nat} (here : is[index]? = none) :
      Scans b e is true start index [nodeBetween b is start (index - 1)]
  /-- The next piece starts with an ordinary instruction. -/
  | next {i : InstId} {start index : Nat} {nodes : List GraphNode} (here : is[index]? = some i)
      (straight : e i = .straight) (rest : Scans b e is false index index nodes) :
      Scans b e is true start index (nodeBetween b is start (index - 1) :: nodes)
  /-- Control flow ends, and what follows is not read. -/
  | final {i : InstId} {start index : Nat} (here : is[index]? = some i) (final : e i = .final) :
      Scans b e is true start index [nodeBetween b is start index]

section Scanning

variable {e : InstId → Exit} {i : InstId} {pre cur l q : List InstId} {nodes : List GraphNode}

/-- The node of a run of instructions. -/
theorem nodeBetween_eq {last : Nat} (his : is = pre ++ (cur ++ l))
    (hlast : last + 1 = pre.length + cur.length) :
    nodeBetween b is pre.length last = ⟨b, pre.length, pre.length + cur.length - 1, cur⟩ := by
  have hslice : Sequence.slice pre.length (last + 1) is = cur := by
    rw [Sequence.slice, hlast, Nat.add_sub_cancel_left, his, List.drop_left, List.take_left]
  rw [nodeBetween, hslice, ← hlast]
  rfl

/-- What is read next is the first of what has not been read. -/
theorem getElem?_read (his : is = pre ++ (cur ++ l)) :
    is[pre.length + cur.length]? = l.head? := by
  rw [his, ← List.append_assoc, ← List.length_append, List.getElem?_append_right (Nat.le_refl _),
    Nat.sub_self, List.head?_eq_getElem?]

/-- One more instruction of the piece has been read. -/
theorem read_next (his : is = pre ++ (cur ++ i :: l)) :
    is = pre ++ ((cur ++ [i]) ++ l) ∧
      pre.length + (cur ++ [i]).length = pre.length + cur.length + 1 := by
  rw [his, List.append_assoc cur, List.length_append]
  exact ⟨rfl, rfl⟩

/-- Where no ordinary instruction stands, the branches begin at once. -/
theorem Scans.begin {start index : Nat} {P : Prop} (here : is[index]? = some i)
    (hne : e i ≠ .straight) (h : Scans b e is true start index nodes) :
    Scans b e is false start index nodes ∧ (P → Scans b e is true start index nodes) := by
  refine ⟨.turn (fun j hj => ?_) h, fun _ => h⟩
  rw [here] at hj
  exact Option.some.inj hj ▸ hne

/-- **The rest of a piece and the pieces behind it**, read on from where the piece
has been read to: `cur` are its instructions so far. -/
theorem Cut.scans {ps : List (List InstId)} (h : Cut e l ps) (hps : ps = q :: qs)
    (his : is = pre ++ (cur ++ l)) :
    Scans b e is false pre.length (pre.length + cur.length)
        (nodesFrom b pre.length ((cur ++ q) :: qs)) ∧
      ((∀ i ∈ l.head?, e i ≠ .straight) →
        Scans b e is true pre.length (pre.length + cur.length)
          (nodesFrom b pre.length ((cur ++ q) :: qs))) := by
  induction h generalizing q qs pre cur with
  | empty => cases hps
  | @final i l hi =>
    obtain ⟨rfl, rfl⟩ := List.cons.inj hps
    obtain ⟨hread, hlength⟩ := read_next his
    refine Scans.begin (getElem?_read his) (by rw [hi]; exact nofun) ?_
    rw [nodesFrom, nodesFrom, ← nodeBetween_eq hread hlength.symm]
    exact .final (getElem?_read his) hi
  | @last i hi =>
    obtain ⟨rfl, rfl⟩ := List.cons.inj hps
    obtain ⟨hread, hlength⟩ := read_next his
    have hover : is[pre.length + cur.length + 1]? = none := hlength ▸ getElem?_read hread
    have hends : Scans b e is true pre.length (pre.length + cur.length + 1)
        (nodesFrom b pre.length [cur ++ [i]]) := by
      rw [nodesFrom, nodesFrom, ← nodeBetween_eq hread hlength.symm]
      exact .ends hover
    cases hei : e i with
    | straight =>
      refine ⟨.pass (getElem?_read his) hei (.turn (fun j hj => ?_) hends),
        fun hne => absurd hei (hne i rfl)⟩
      rw [hover] at hj
      cases hj
    | conditional =>
      exact Scans.begin (getElem?_read his) (by rw [hei]; exact nofun)
        (.branch (getElem?_read his) hei hends)
    | final => exact absurd hei hi
  | @more i j l r ps hi hij _ ih =>
    obtain ⟨rfl, rfl⟩ := List.cons.inj hps
    obtain ⟨hread, hlength⟩ := read_next his
    obtain ⟨hpass, hbranch⟩ := ih rfl hread
    rw [hlength, List.append_assoc] at hpass hbranch
    cases hei : e i with
    | straight =>
      exact ⟨.pass (getElem?_read his) hei hpass, fun hne => absurd hei (hne i rfl)⟩
    | conditional =>
      refine Scans.begin (getElem?_read his) (by rw [hei]; exact nofun)
        (.branch (getElem?_read his) hei (hbranch fun j' hj' => ?_))
      exact Option.some.inj hj' ▸ hij hei
    | final => exact absurd hei hi
  | @next i j l r ps hi hj _ ih =>
    obtain ⟨rfl, rfl⟩ := List.cons.inj hps
    obtain ⟨hread, hlength⟩ := read_next his
    have hpiece : is = (pre ++ (cur ++ [i])) ++ ([] ++ j :: l) :=
      hread.trans (List.append_assoc pre _ _).symm
    have hrest := (ih rfl hpiece).1
    rw [List.length_append, List.length_nil, Nat.add_zero, List.nil_append] at hrest
    refine Scans.begin (getElem?_read his) (by rw [hi]; exact nofun)
      (.branch (getElem?_read his) hi ?_)
    rw [nodesFrom, ← nodeBetween_eq hread hlength.symm]
    rw [hlength] at hrest ⊢
    exact .next (hlength ▸ getElem?_read hread) hj hrest

end Scanning

/-! ## Finding nodes -/

/-- What stands at a place of a list. -/
theorem split_of_getElem? {β : Type} {c : β} {m : Nat} {l : List β} (h : l[m]? = some c) :
    ∃ pre post, l = pre ++ c :: post ∧ pre.length = m := by
  obtain ⟨hm, rfl⟩ := List.getElem?_eq_some_iff.1 h
  refine ⟨l.take m, l.drop (m + 1), ?_, ?_⟩
  · rw [← List.drop_eq_getElem_cons hm, List.take_append_drop]
  · rw [List.length_take]
    omega

/-- No two nodes start at the same place. -/
def Keyed (nodes : List GraphNode) : Prop := (nodes.map fun n => (n.block, n.first)).Nodup

theorem nodeAt?_of_split {nodes ns ms : List GraphNode} (hkeyed : Keyed nodes)
    (h : nodes = ns ++ n :: ms) : nodeAt? nodes n.block n.first = some ns.length := by
  subst h
  unfold Keyed at hkeyed
  rw [List.map_append, List.map_cons, List.nodup_append] at hkeyed
  have hfirst : ∀ m ∈ ns, decide (m.block = n.block ∧ m.first = n.first) = false := by
    intro m hm
    refine decide_eq_false fun hmn => ?_
    refine hkeyed.2.2 (m.block, m.first) (List.mem_map_of_mem hm) (n.block, n.first)
      List.mem_cons_self ?_
    rw [hmn.1, hmn.2]
  rw [nodeAt?, List.findIdx?_append, List.findIdx?_eq_none_iff.2 hfirst, List.findIdx?_cons]
  simp

/-- Only nodes that are there are found. -/
theorem split_of_nodeAt? {nodes : List GraphNode} {m : Nat} (h : nodeAt? nodes b k = some m) :
    ∃ ns n ms, nodes = ns ++ n :: ms ∧ ns.length = m ∧ n.block = b ∧ n.first = k := by
  obtain ⟨hm, hn, -⟩ := List.findIdx?_eq_some_iff_getElem.1 h
  have hn := of_decide_eq_true hn
  obtain ⟨ns, ms, hsplit, hlength⟩ := split_of_getElem? (List.getElem?_eq_getElem hm)
  exact ⟨ns, nodes[m], ms, hsplit, hlength, hn.1, hn.2⟩

end Exit

/-! ## The nodes of a function -/

namespace Context

open Exit

variable (ctx : Context)

/-- How control leaves an instruction of the context. -/
def flowOf (i : InstId) : Exit := ((ctx.inst? i).map Instruction.flow).getD .straight

/-- The pieces of a block. -/
def piecesOf (b : ValueId) : List (List InstId) := pieces (tagged ctx.flowOf (ctx.body b))

/-- The nodes of a block. -/
def nodesOf (b : ValueId) : List GraphNode := blockNodes b (tagged ctx.flowOf (ctx.body b))

/-- The nodes of some blocks, block by block. -/
def graphNodes (blocks : List ValueId) : List GraphNode := blocks.flatMap ctx.nodesOf

theorem cut_piecesOf (b : ValueId) : Cut ctx.flowOf (ctx.body b) (ctx.piecesOf b) := cut_pieces _ _

variable {ctx} {b : ValueId} {n : GraphNode} {blocks : List ValueId}

theorem nodesOf_of_empty (h : ctx.body b = []) : ctx.nodesOf b = [⟨b, 0, 0, []⟩] := by
  rw [nodesOf, h]
  rfl

theorem nodesOf_of_ne_nil (h : ctx.body b ≠ []) :
    ctx.nodesOf b = nodesFrom b 0 (ctx.piecesOf b) := by
  have hne : (tagged ctx.flowOf (ctx.body b)).isEmpty = false := by
    cases hb : ctx.body b with
    | nil => exact absurd hb h
    | cons i is => rfl
  rw [nodesOf, blockNodes, hne]
  rfl

/-- **The nodes of a block are those that the two positions cut it into.** -/
theorem scans_nodesOf (h : ctx.body b ≠ []) :
    Scans b ctx.flowOf (ctx.body b) false 0 0 (ctx.nodesOf b) := by
  have hcut := ctx.cut_piecesOf b
  rw [nodesOf_of_ne_nil h]
  cases hb : ctx.body b with
  | nil => exact absurd hb h
  | cons i is =>
    rw [hb] at hcut
    obtain ⟨r, qs, hps⟩ := hcut.head
    have hstart : i :: is = [] ++ ([] ++ i :: is) := rfl
    rw [hps]
    exact (hcut.scans hps hstart).1

variable (ctx) in
/-- A block has a first node, and that starts at its front. -/
theorem exists_first_node (b : ValueId) :
    ∃ n ns, ctx.nodesOf b = n :: ns ∧ n.block = b ∧ n.first = 0 := by
  cases hb : ctx.body b with
  | nil => exact ⟨_, [], nodesOf_of_empty hb, rfl, rfl⟩
  | cons i is =>
    have hne : ctx.body b ≠ [] := by rw [hb]; exact List.cons_ne_nil i is
    have hcut := ctx.cut_piecesOf b
    rw [hb] at hcut
    obtain ⟨r, qs, hps⟩ := hcut.head
    rw [nodesOf_of_ne_nil hne, hps]
    exact ⟨_, _, rfl, rfl, rfl⟩

/-- Nodes of a block know it. -/
theorem block_of_mem_nodesOf (h : n ∈ ctx.nodesOf b) : n.block = b := by
  by_cases hb : ctx.body b = []
  · rw [nodesOf_of_empty hb, List.mem_singleton] at h
    rw [h]
  · rw [nodesOf_of_ne_nil hb] at h
    exact ((nodesFrom_pairwise (fun q hq => (ctx.cut_piecesOf b).ne_nil hq) 0).2 n h).1

theorem keyed_nodesOf (b : ValueId) : Keyed (ctx.nodesOf b) := by
  unfold Keyed
  by_cases hb : ctx.body b = []
  · rw [nodesOf_of_empty hb]
    exact List.nodup_singleton _
  · rw [nodesOf_of_ne_nil hb]
    have hpair := (nodesFrom_pairwise (b := b) (fun q hq => (ctx.cut_piecesOf b).ne_nil hq) 0).1
    refine List.pairwise_map.2 (hpair.imp fun hlt heq => ?_)
    have hfirst := congrArg Prod.snd heq
    exact absurd hfirst (Nat.ne_of_lt hlt)

/-- **No two nodes of a function start at the same place.** -/
theorem keyed_graphNodes (hnodup : blocks.Nodup) : Keyed (ctx.graphNodes blocks) := by
  unfold Keyed graphNodes
  rw [List.map_flatMap, List.nodup_flatMap]
  refine ⟨fun b _ => keyed_nodesOf b, hnodup.imp fun hne x hx hy => ?_⟩
  obtain ⟨n, hn, rfl⟩ := List.mem_map.1 hx
  obtain ⟨m, hm, hmn⟩ := List.mem_map.1 hy
  -- Nodes of different blocks differ in their block, those of one block in where they start.
  have hblock := congrArg Prod.fst hmn
  rw [block_of_mem_nodesOf hn, block_of_mem_nodesOf hm] at hblock
  exact hne hblock.symm

/-- The node at the front of a block of the function. -/
theorem nodeAt?_front (hnodup : blocks.Nodup) {bs₁ bs₂ : List ValueId}
    (h : blocks = bs₁ ++ b :: bs₂) :
    nodeAt? (ctx.graphNodes blocks) b 0 = some (ctx.graphNodes bs₁).length := by
  obtain ⟨n, ns, hns, hblock, hfirst⟩ := ctx.exists_first_node b
  have hsplit : ctx.graphNodes blocks =
      ctx.graphNodes bs₁ ++ n :: (ns ++ ctx.graphNodes bs₂) := by
    rw [h, graphNodes, List.flatMap_append, List.flatMap_cons, hns]
    rfl
  rw [← hblock, ← hfirst]
  exact nodeAt?_of_split (keyed_graphNodes hnodup) hsplit

/-- A block that is not of the function has no node. -/
theorem nodeAt?_front_eq_none_iff (hnodup : blocks.Nodup) :
    nodeAt? (ctx.graphNodes blocks) b 0 = none ↔ b ∉ blocks := by
  constructor
  · intro h hb
    obtain ⟨bs₁, bs₂, hsplit⟩ := List.append_of_mem hb
    rw [nodeAt?_front hnodup hsplit] at h
    cases h
  · intro hb
    cases h : nodeAt? (ctx.graphNodes blocks) b 0 with
    | none => rfl
    | some m =>
      obtain ⟨ns, n, ms, hsplit, -, hblock, -⟩ := split_of_nodeAt? h
      have hn : n ∈ ctx.graphNodes blocks := by
        rw [hsplit]
        exact List.mem_append_right ns List.mem_cons_self
      obtain ⟨c, hc, hnc⟩ := List.mem_flatMap.1 hn
      rw [← hblock, block_of_mem_nodesOf hnc] at hb
      exact absurd hc hb

/-! ## The node that follows -/

/-- A node of the function is one of a block. -/
theorem split_graphNodes {ns ms : List GraphNode} (h : ctx.graphNodes blocks = ns ++ n :: ms) :
    ∃ bs₁ b bs₂ ns₁ ms₁, blocks = bs₁ ++ b :: bs₂ ∧ ctx.nodesOf b = ns₁ ++ n :: ms₁ ∧
      ns = ctx.graphNodes bs₁ ++ ns₁ ∧ ms = ms₁ ++ ctx.graphNodes bs₂ := by
  induction blocks generalizing ns with
  | nil => exact absurd h (by simp [graphNodes])
  | cons b blocks ih =>
    have hcons : ctx.nodesOf b ++ ctx.graphNodes blocks = ns ++ n :: ms := h
    rcases List.append_eq_append_iff.1 hcons with ⟨ns', hns, hrest⟩ | ⟨rest, hb, hrest⟩
    · obtain ⟨bs₁, c, bs₂, ns₁, ms₁, rfl, hc, rfl, hms⟩ := ih hrest
      refine ⟨b :: bs₁, c, bs₂, ns₁, ms₁, rfl, hc, ?_, hms⟩
      rw [hns, ← List.append_assoc]
      rfl
    · cases rest with
      | nil =>
        -- the node is the first of a later block
        have hfront : ctx.graphNodes blocks = [] ++ n :: ms := hrest.symm
        obtain ⟨bs₁, c, bs₂, ns₁, ms₁, rfl, hc, hns, hms⟩ := ih hfront
        refine ⟨b :: bs₁, c, bs₂, ns₁, ms₁, rfl, hc, ?_, hms⟩
        have hflat : ctx.graphNodes (b :: bs₁) = ctx.nodesOf b ++ ctx.graphNodes bs₁ := rfl
        rw [hflat, List.append_assoc, ← hns, hb, List.append_nil, List.append_nil]
      | cons n' rest =>
        obtain ⟨rfl, hms⟩ := List.cons.inj hrest
        exact ⟨[], b, blocks, ns, rest, rfl, hb, rfl, hms⟩

/-- The instructions of a node are a piece of its block, or there are none. -/
theorem piece_of_mem_nodesOf (h : n ∈ ctx.nodesOf b) :
    n.instructions = [] ∧ ctx.body b = [] ∨ n.instructions ∈ ctx.piecesOf b := by
  by_cases hb : ctx.body b = []
  · rw [nodesOf_of_empty hb, List.mem_singleton] at h
    exact .inl ⟨by rw [h], hb⟩
  · rw [nodesOf_of_ne_nil hb] at h
    obtain ⟨ns, ms, hsplit⟩ := List.append_of_mem h
    obtain ⟨qs₁, q, qs₂, hqs, -, rfl, -⟩ := exists_piece_of_nodesFrom hsplit
    refine .inr ?_
    rw [hqs]
    exact List.mem_append_right qs₁ List.mem_cons_self

/-- Nodes are numbered in the order in which they stand. -/
theorem nodeAt?_next (hnodup : blocks.Nodup) {ns ms : List GraphNode} {n' : GraphNode}
    (h : ctx.graphNodes blocks = ns ++ n :: n' :: ms) :
    nodeAt? (ctx.graphNodes blocks) n'.block n'.first = some (ns.length + 1) := by
  have hsplit : ctx.graphNodes blocks = (ns ++ [n]) ++ n' :: ms := by
    rw [h, List.append_assoc]
    rfl
  rw [nodeAt?_of_split (keyed_graphNodes hnodup) hsplit, List.length_append]
  rfl

/-- Behind the last node of a block the next block's first node follows. -/
theorem nodeAt?_nextBlock (hnodup : blocks.Nodup) {bs₁ bs₂ : List ValueId} {ns₁ : List GraphNode}
    (hblocks : blocks = bs₁ ++ b :: bs₂) (hb : ctx.nodesOf b = ns₁ ++ [n]) :
    (Sequence.next? b blocks).bind (fun next => nodeAt? (ctx.graphNodes blocks) next 0) =
      if bs₂ = [] then none else some ((ctx.graphNodes bs₁ ++ ns₁).length + 1) := by
  have hmiddle : b ∉ bs₁ := by
    rw [hblocks] at hnodup
    exact fun hb₁ => (List.nodup_append.1 hnodup).2.2 b hb₁ b List.mem_cons_self rfl
  have hnext : Sequence.next? b blocks = bs₂.head? := by
    rw [hblocks, Sequence.next?_append_cons hmiddle]
  rw [hnext]
  cases bs₂ with
  | nil => rfl
  | cons c bs₂ =>
    obtain ⟨n', ns', hns', hblock, hfirst⟩ := ctx.exists_first_node c
    have hsplit : ctx.graphNodes blocks =
        (ctx.graphNodes bs₁ ++ ns₁) ++ n :: n' :: (ns' ++ ctx.graphNodes bs₂) := by
      rw [hblocks, graphNodes, List.flatMap_append, List.flatMap_cons, List.flatMap_cons, hb, hns']
      simp [graphNodes]
    rw [if_neg (List.cons_ne_nil c bs₂), ← nodeAt?_next hnodup hsplit, hblock, hfirst]
    rfl

/-- Where control runs past the end of a node, either it is the last one and
the block is at its end, or the next one starts right behind it. -/
theorem block_node_cases {ns ms : List GraphNode} (h : ctx.nodesOf b = ns ++ n :: ms)
    (hfalls : ∀ z ∈ n.instructions.getLast?, ctx.flowOf z ≠ .final) :
    (ms = [] ∧ (n.instructions = [] ∨ (ctx.body b).length ≤ n.last + 1)) ∨
    (n.instructions ≠ [] ∧ n.last + 1 < (ctx.body b).length ∧
      ∃ n' ms', ms = n' :: ms' ∧ n'.block = b ∧ n'.first = n.last + 1) := by
  by_cases hempty : ctx.body b = []
  · rw [nodesOf_of_empty hempty] at h
    obtain ⟨rfl, hn⟩ : ns = [] ∧ n :: ms = [⟨b, 0, 0, []⟩] := by
      cases ns with
      | nil => exact ⟨rfl, h.symm⟩
      | cons m ns => exact absurd (List.cons.inj h).2.symm (by simp)
    obtain ⟨hn, hlast⟩ := List.cons.inj hn
    exact .inl ⟨hlast, .inl (by rw [hn])⟩
  · rw [nodesOf_of_ne_nil hempty] at h
    obtain ⟨qs₁, q, qs₂, hqs, -, hn, hms⟩ := exists_piece_of_nodesFrom h
    have hcut := ctx.cut_piecesOf b
    rw [hqs] at hcut
    have hq : q ≠ [] := hcut.ne_nil (List.mem_append_right qs₁ List.mem_cons_self)
    have hqpos : 0 < q.length := List.length_pos_iff.2 hq
    have hplace : n.last + 1 = 0 + qs₁.flatten.length + q.length := by
      rw [hn]
      simp only
      omega
    cases qs₂ with
    | nil =>
      -- the last piece of a block that control runs out of covers the rest of it
      have hlast : ∀ z ∈ (qs₁ ++ [q]).flatten.getLast?, ctx.flowOf z ≠ .final := by
        intro z hz
        rw [List.flatten_append, List.flatten_singleton,
          List.getLast?_append_of_ne_nil _ hq] at hz
        exact hfalls z (by rw [hn]; exact hz)
      have hlength := congrArg List.length (hcut.flatten_eq hlast)
      rw [List.flatten_append, List.flatten_singleton, List.length_append] at hlength
      exact .inl ⟨hms, .inr (by omega)⟩
    | cons q' qs₂ =>
      have hqpos' : 0 < q'.length := List.length_pos_iff.2 (hcut.ne_nil (by simp))
      have hlength := hcut.flatten_isPrefix.length_le
      simp only [List.flatten_append, List.flatten_cons, List.length_append] at hlength
      exact .inr ⟨by rw [hn]; exact hq, by omega, _, _, hms, rfl, hplace.symm⟩

/-- **Where control runs past the end of a node**, either the block goes on
and so do its pieces, or the block is at its end and the next block
follows. -/
theorem next_node_cases (hnodup : blocks.Nodup) {ns ms : List GraphNode}
    (h : ctx.graphNodes blocks = ns ++ n :: ms)
    (hfalls : ∀ z ∈ n.instructions.getLast?, ctx.flowOf z ≠ .final) :
    (n.instructions ≠ [] ∧ n.last + 1 < (ctx.body n.block).length ∧ ms ≠ [] ∧
      nodeAt? (ctx.graphNodes blocks) n.block (n.last + 1) = some (ns.length + 1)) ∨
    ((n.instructions = [] ∨ (ctx.body n.block).length ≤ n.last + 1) ∧
      (Sequence.next? n.block blocks).bind (fun next => nodeAt? (ctx.graphNodes blocks) next 0) =
        if ms = [] then none else some (ns.length + 1)) := by
  obtain ⟨bs₁, b, bs₂, ns₁, ms₁, hblocks, hb, hns, hms⟩ := split_graphNodes h
  have hblock : n.block = b := block_of_mem_nodesOf (by rw [hb]; simp)
  rw [hblock]
  rcases block_node_cases hb hfalls with ⟨hlast, hend⟩ | ⟨hne, hlt, n', ms', hms', hblock', hfirst'⟩
  · refine .inr ⟨hend, ?_⟩
    rw [hlast] at hb hms
    have hempty : ms = [] ↔ bs₂ = [] := by
      rw [hms, List.nil_append]
      cases bs₂ with
      | nil => simp [graphNodes]
      | cons c bs₂ =>
        obtain ⟨n', ns', hns', -, -⟩ := ctx.exists_first_node c
        simp [graphNodes, hns']
    simp only [nodeAt?_nextBlock hnodup hblocks hb, hempty, hns]
  · rw [hms', List.cons_append] at hms
    rw [hms] at h
    refine .inl ⟨hne, hlt, by rw [hms]; exact List.cons_ne_nil _ _, ?_⟩
    rw [← nodeAt?_next hnodup h, hblock', hfirst']

/-- **Where control runs past the end of a node, the next node follows**: the
next piece of the block, or else the first piece of the next block. -/
theorem followingNode?_eq (ht : Threaded ctx) (hnodup : blocks.Nodup) {ns ms : List GraphNode}
    (h : ctx.graphNodes blocks = ns ++ n :: ms)
    (hfalls : ∀ z ∈ n.instructions.getLast?, ctx.flowOf z ≠ .final) :
    ctx.followingNode? (ctx.graphNodes blocks) blocks n =
      if ms = [] then none else some (ns.length + 1) := by
  unfold followingNode?
  rw [ht.instCount_eq]
  rcases next_node_cases hnodup h hfalls with ⟨hne, hlt, hms, hnext⟩ | ⟨hend, hnext⟩
  · rw [if_pos ⟨by simpa using hne, hlt⟩, if_neg hms, hnext]
  · rw [if_neg fun hinside => ?_, hnext]
    rcases hend with hempty | hle
    · rw [hempty] at hinside
      exact absurd hinside.1 (by decide)
    · exact absurd hinside.2 (Nat.not_lt.2 hle)

end Context

end ContractIR
