import Mathlib.Data.List.TakeWhile
import ContractIR.Proofs.Flow.Nodes
/-!
# The edges of a flow graph

Building a graph can fail for one reason only, a branch to a block of another
function, and where it succeeds the edges are known exactly: a node leads to
the targets of the branches it ends with, and to the next node unless it ends
the control flow. The branches a node ends with are all its branches, except
where a return or a revert closes it; such a node leads nowhere.
-/

namespace ContractIR

/-! ## Reports -/

namespace Report

variable {α β : Type}

@[simp] theorem outcome_pure (a : α) : (pure a : Report α).outcome = .ok a := rfl

@[simp] theorem outcome_bind (r : Report α) (f : α → Report β) :
    (r >>= f).outcome = r.outcome >>= fun a => (f a).outcome := by
  obtain ⟨outcome, events⟩ := r
  cases outcome <;> rfl

@[simp] theorem outcome_liftM (x : Except Fault α) : (liftM x : Report α).outcome = x := rfl

@[simp] theorem outcome_note (e : Event) : (note e).outcome = .ok () := rfl

end Report

/-- Checks of all elements pass if each of them does. -/
theorem mapM_eq_ok_map {ε α β : Type} {f : α → Except ε β} {g : α → β} {l : List α}
    (h : ∀ a ∈ l, f a = .ok (g a)) : l.mapM f = .ok (l.map g) := by
  induction l with
  | nil => rfl
  | cons a l ih =>
    rw [List.mapM_cons, h a List.mem_cons_self, ih fun c hc => h c (List.mem_cons_of_mem a hc)]
    rfl

/-- **Checks of all elements** pass if each of them does, and fail for one of
the reasons there are if one of them fails. -/
theorem mapM_cases {ε α β : Type} {f : α → Except ε β} {l : List α} {Q : α → β → Prop}
    {P : ε → Prop} {bad : α → Prop}
    (h : ∀ a ∈ l, (¬bad a ∧ ∃ b, f a = .ok b ∧ Q a b) ∨
      (bad a ∧ ∃ fault, f a = .error fault ∧ P fault)) :
    ((∀ a ∈ l, ¬bad a) ∧ ∃ bs, l.mapM f = .ok bs ∧ List.Forall₂ Q l bs) ∨
    ((∃ a ∈ l, bad a) ∧ ∃ fault, l.mapM f = .error fault ∧ P fault) := by
  induction l with
  | nil => exact .inl ⟨fun a ha => absurd ha List.not_mem_nil, [], rfl, .nil⟩
  | cons a l ih =>
    rw [List.mapM_cons]
    rcases h a List.mem_cons_self with ⟨hgood, b, hb, hQ⟩ | ⟨hbad, fault, hfault, hP⟩
    · rcases ih fun c hc => h c (List.mem_cons_of_mem a hc) with
        ⟨hall, bs, hbs, hQs⟩ | ⟨⟨c, hc, hbad⟩, fault, hfault, hP⟩
      · refine .inl ⟨?_, b :: bs, by rw [hb, hbs]; rfl, .cons hQ hQs⟩
        rintro c (_ | ⟨_, hc⟩)
        · exact hgood
        · exact hall c hc
      · exact .inr ⟨⟨c, List.mem_cons_of_mem a hc, hbad⟩, fault, by rw [hb, hfault]; rfl, hP⟩
    · exact .inr ⟨⟨a, List.mem_cons_self, hbad⟩, fault, by rw [hfault]; rfl, hP⟩

/-- What is collected for all elements is collected for one of them. -/
theorem mem_flatten_of_forall₂ {α β : Type} {R : α → β → Prop} {l : List α} {bss : List (List β)}
    (h : List.Forall₂ (fun a bs => ∀ b, b ∈ bs ↔ R a b) l bss) {b : β} :
    b ∈ bss.flatten ↔ ∃ a ∈ l, R a b := by
  induction h with
  | nil => simp
  | cons hbs _ ih =>
    rw [List.flatten_cons, List.mem_append, hbs, ih]
    simp

/-- A fault that reports a branch out of the function. -/
def Fault.IsUnresolved (fault : Fault) : Prop :=
  ∃ cause, fault = .refused cause ∧ cause.kind = .unresolvedControlFlow

namespace Context

open Exit

variable {ctx : Context} {b f : ValueId} {n : GraphNode} {blocks : List ValueId} {i : InstId}
variable {x : Instruction}

/-! ## Cutting blocks never fails -/

theorem flowOf_of_live (h : ctx.inst? i = some x) : ctx.flowOf i = x.flow := by
  rw [flowOf, h]
  rfl

theorem instExit_eq (hs : WellShaped ctx) (h : ctx.inst? i = some x) :
    ctx.instExit i = .ok (i, ctx.flowOf i) := by
  rw [instExit, readInst_eq_ok.2 h, flowOf_of_live h, ok_bind, (hs.shaped h).exit_eq]
  rfl

theorem outcome_noteNodes (ns : List GraphNode) :
    ∀ k, (noteNodes k ns).outcome = .ok () := by
  induction ns with
  | nil => intro k; rfl
  | cons n ns ih =>
    intro k
    rw [noteNodes, Report.outcome_bind, Report.outcome_note]
    exact ih (k + 1)

/-- What is looked at of a block has the pieces of the whole block. -/
theorem exists_bodyExits {is : List InstId} (h : ∀ i ∈ is, ctx.instExit i = .ok (i, ctx.flowOf i)) :
    ∃ exits, ctx.bodyExits is = .ok exits ∧ exits.head? = (tagged ctx.flowOf is).head? ∧
      pieces exits = pieces (tagged ctx.flowOf is) := by
  induction is with
  | nil => exact ⟨[], rfl, rfl, rfl⟩
  | cons i is ih =>
    obtain ⟨exits, hexits, hhead, hpieces⟩ := ih fun j hj => h j (List.mem_cons_of_mem i hj)
    rw [bodyExits, h i List.mem_cons_self, ok_bind]
    have htagged : tagged ctx.flowOf (i :: is) = (i, ctx.flowOf i) :: tagged ctx.flowOf is := rfl
    rw [htagged]
    cases ctx.flowOf i with
    | final => exact ⟨[(i, .final)], rfl, rfl, rfl⟩
    | straight =>
      refine ⟨(i, .straight) :: exits, by rw [hexits]; rfl, rfl, ?_⟩
      rw [pieces, pieces, hpieces]
    | conditional =>
      refine ⟨(i, .conditional) :: exits, by rw [hexits]; rfl, rfl, ?_⟩
      rw [pieces, pieces, hpieces, hhead]

theorem outcome_splitBlock (ht : Threaded ctx) (hs : WellShaped ctx) (k : Nat)
    (hb : ctx.kind? b = some .block) : (ctx.splitBlock k b).outcome = .ok (ctx.nodesOf b) := by
  obtain ⟨exits, hexits, hhead, hpieces⟩ := exists_bodyExits fun i hi => by
    obtain ⟨x, hx, -⟩ := ht.live hi
    exact instExit_eq hs hx
  have hempty : exits.isEmpty = (tagged ctx.flowOf (ctx.body b)).isEmpty := by
    rw [Bool.eq_iff_iff, List.isEmpty_iff, List.isEmpty_iff, ← List.head?_eq_none_iff, hhead,
      List.head?_eq_none_iff]
  have hnodes : blockNodes b exits = ctx.nodesOf b := by
    rw [nodesOf, blockNodes, blockNodes, hpieces, hempty]
  have hnote : ∀ c, (ctx.noteUnreachable b c).outcome = .ok () := by
    intro c
    unfold noteUnreachable
    split <;> rfl
  unfold splitBlock
  simp only [Report.outcome_bind, Report.outcome_liftM, readBody_eq_ok.2 ⟨hb, rfl⟩, ok_bind,
    hexits, hnodes, outcome_noteNodes, hnote, Report.outcome_pure]

theorem outcome_splitBlocks (ht : Threaded ctx) (hs : WellShaped ctx) :
    ∀ k, (∀ b ∈ blocks, ctx.kind? b = some .block) →
      (ctx.splitBlocks k blocks).outcome = .ok (ctx.graphNodes blocks) := by
  induction blocks with
  | nil => intro k _; rfl
  | cons b blocks ih =>
    intro k hkind
    have hrest := ih (k + (ctx.nodesOf b).length) fun c hc => hkind c (List.mem_cons_of_mem b hc)
    rw [splitBlocks]
    simp only [Report.outcome_bind, outcome_splitBlock ht hs k (hkind b List.mem_cons_self),
      ok_bind, hrest, Report.outcome_pure]
    rfl

/-! ## The branches of a node -/

/-- Whether an instruction is a branch. -/
def isBranch (ctx : Context) (i : InstId) : Bool := (ctx.inst? i).any fun x => x.opcode = .br

/-- Whether a return or a revert ends some instructions. -/
def endsInExit (ctx : Context) (is : List InstId) : Bool :=
  (is.getLast?.bind ctx.inst?).any fun x => x.opcode = .ret ∨ x.opcode = .revert

/-- The block an instruction branches to. -/
def branchOf? (ctx : Context) (i : InstId) : Option ValueId := (ctx.inst? i).bind ctx.target?

theorem isBranch_iff : ctx.isBranch i ↔ ∃ x, ctx.inst? i = some x ∧ x.opcode = .br := by
  rw [isBranch, Option.any_eq_true]
  simp

/-- Where a branch leads is its last operand, a block. -/
theorem of_target? {x : Instruction} {t : ValueId} (h : ctx.target? x = some t) :
    x.opcode = .br ∧ x.operands.getLast? = some t ∧ ctx.kind? t = some .block := by
  unfold target? at h
  split at h
  · rename_i hop
    obtain ⟨hlast, hkind⟩ := Option.filter_eq_some_iff.1 h
    exact ⟨hop, hlast, of_decide_eq_true hkind⟩
  · cases h

/-- Branches in shape lead somewhere. -/
theorem exists_branchOf? (hs : WellShaped ctx) (h : ctx.isBranch i) :
    ∃ t, ctx.branchOf? i = some t := by
  obtain ⟨x, hx, hop⟩ := isBranch_iff.1 h
  have hshape := hs.shaped hx
  have hne : x.operands ≠ [] := by
    intro hnil
    have hcount := hshape.branch_operands hop
    rw [hnil] at hcount
    exact absurd hcount (by decide)
  obtain ⟨v, hv⟩ : ∃ v, x.operands.getLast? = some v :=
    ⟨x.operands.getLast hne, List.getLast?_eq_getLast_of_ne_nil hne⟩
  refine ⟨v, ?_⟩
  rw [branchOf?, hx, Option.bind_some, target?, if_pos hop, hv, Option.filter_some, if_pos]
  exact decide_eq_true (hshape.target hop v hv)

/-- Only branches do. -/
theorem isBranch_of_branchOf? {t : ValueId} (h : ctx.branchOf? i = some t) : ctx.isBranch i := by
  obtain ⟨x, hx, ht⟩ := Option.bind_eq_some_iff.1 h
  refine isBranch_iff.2 ⟨x, hx, ?_⟩
  unfold target? at ht
  split at ht
  · assumption
  · cases ht

/-- How control leaves a branch. -/
theorem flowOf_ne_straight_of_isBranch (h : ctx.isBranch i) : ctx.flowOf i ≠ .straight := by
  obtain ⟨x, hx, hop⟩ := isBranch_iff.1 h
  rw [flowOf_of_live hx, Instruction.flow, hop]
  simp only
  split <;> exact nofun

/-- Whatever control leaves otherwise is a branch, a return or a revert. -/
theorem isBranch_of_flowOf_ne_straight (hx : ctx.inst? i = some x) (h : ctx.flowOf i ≠ .straight)
    (hexit : ¬(x.opcode = .ret ∨ x.opcode = .revert)) : ctx.isBranch i := by
  refine isBranch_iff.2 ⟨x, hx, ?_⟩
  rw [flowOf_of_live hx, Instruction.flow] at h
  cases hop : x.opcode with
  | br => rfl
  | ret => exact absurd (Or.inl hop) hexit
  | revert => exact absurd (Or.inr hop) hexit
  | _ => rw [hop] at h; exact absurd rfl h

theorem flowOf_eq_final_of_exit (hx : ctx.inst? i = some x)
    (hexit : x.opcode = .ret ∨ x.opcode = .revert) : ctx.flowOf i = .final := by
  rw [flowOf_of_live hx, Instruction.flow]
  rcases hexit with hop | hop <;> rw [hop]

/-- A piece: nothing follows where control flow ends, and nothing ordinary
follows a conditional branch. -/
def Streak (ctx : Context) (p : List InstId) : Prop :=
  (∀ i ∈ p, ∃ x, ctx.inst? i = some x) ∧ p.Pairwise fun i j => ctx.flowOf i ≠ .final ∧
    (ctx.flowOf i = .conditional → ctx.flowOf j ≠ .straight)

/-- Behind a branch of a piece that no return or revert closes, there are only
branches. -/
theorem Streak.isBranch_behind {pre post : List InstId} {j : InstId}
    (h : ctx.Streak (pre ++ i :: post)) (hopen : ctx.endsInExit (pre ++ i :: post) = false)
    (hbranch : ctx.isBranch i) (hj : j ∈ post) : ctx.isBranch j := by
  obtain ⟨hlive, hpair⟩ := h
  obtain ⟨-, hpost, -⟩ := List.pairwise_append.1 hpair
  obtain ⟨hbehind, hpost⟩ := List.pairwise_cons.1 hpost
  have hcond : ctx.flowOf i = .conditional := by
    cases hflow : ctx.flowOf i with
    | straight => exact absurd hflow (flowOf_ne_straight_of_isBranch hbranch)
    | conditional => rfl
    | final => exact absurd hflow (hbehind j hj).1
  obtain ⟨x, hx⟩ := hlive j (List.mem_append_right pre (List.mem_cons_of_mem i hj))
  refine isBranch_of_flowOf_ne_straight hx ((hbehind j hj).2 hcond) fun hexit => ?_
  have hfinal := flowOf_eq_final_of_exit hx hexit
  -- A return or a revert is the last of the piece, and then it closes it.
  obtain ⟨post₁, post₂, rfl⟩ := List.append_of_mem hj
  cases post₂ with
  | cons c post₂ =>
    obtain ⟨-, htail, -⟩ := List.pairwise_append.1 hpost
    exact absurd hfinal ((List.pairwise_cons.1 htail).1 c List.mem_cons_self).1
  | nil =>
    have hlast : (pre ++ i :: (post₁ ++ [j])).getLast? = some j := by
      rw [← List.cons_append, ← List.append_assoc, List.getLast?_concat]
    rw [endsInExit, hlast, Option.bind_some, hx, Option.any_some] at hopen
    exact absurd hexit (of_decide_eq_false hopen)

/-- **The branches a piece ends with are all its branches, unless a return or
a revert closes it**; then it ends with none. -/
theorem Streak.mem_closing_iff {p : List InstId} (h : ctx.Streak p) :
    i ∈ p.reverse.takeWhile ctx.isBranch ↔
      ctx.endsInExit p = false ∧ i ∈ p ∧ ctx.isBranch i := by
  constructor
  · intro hi
    refine ⟨?_, List.mem_reverse.1 ((List.takeWhile_sublist _).subset hi),
      List.mem_takeWhile_imp hi⟩
    cases hclosed : ctx.endsInExit p with
    | false => rfl
    | true =>
      obtain ⟨x, hlast, hexit⟩ := (Option.any_eq_true _ _).1 hclosed
      obtain ⟨z, hz, hx⟩ := Option.bind_eq_some_iff.1 hlast
      obtain ⟨p', rfl⟩ := List.getLast?_eq_some_iff.1 hz
      -- The walk from the back stops at the return or revert at once.
      have hno : ctx.isBranch z = false := by
        rw [isBranch, hx, Option.any_some]
        refine decide_eq_false fun hop => ?_
        rw [hop] at hexit
        exact absurd hexit (by decide)
      rw [List.reverse_append, List.reverse_singleton, List.singleton_append, List.takeWhile_cons,
        hno] at hi
      exact absurd hi List.not_mem_nil
  · rintro ⟨hopen, hi, hbranch⟩
    -- Only branches stand behind this one, so the walk from the back reaches it.
    obtain ⟨pre, post, rfl⟩ := List.append_of_mem hi
    rw [List.reverse_append, List.reverse_cons, List.append_assoc, List.singleton_append,
      List.takeWhile_append_of_pos fun j hj =>
        h.isBranch_behind hopen hbranch (List.mem_reverse.1 hj),
      List.takeWhile_cons, if_pos hbranch]
    exact List.mem_append_right _ List.mem_cons_self

/-! ## The edges of a node -/

/-- Some of the instructions branch to a block with this node at its front, or
with none. -/
def BranchesTo (ctx : Context) (nodes : List GraphNode) (is : List InstId) (node : Option Nat) :
    Prop :=
  ∃ i ∈ is, ∃ t, ctx.branchOf? i = some t ∧ nodeAt? nodes t 0 = node

theorem not_branchesTo_nil (nodes : List GraphNode) (node : Option Nat) :
    ¬ctx.BranchesTo nodes [] node := by
  rintro ⟨i, hi, -⟩
  exact absurd hi List.not_mem_nil

theorem branchesTo_cons {nodes : List GraphNode} {is : List InstId} {node : Option Nat}
    {t : ValueId} (ht : ctx.branchOf? i = some t) :
    ctx.BranchesTo nodes (i :: is) node ↔
      nodeAt? nodes t 0 = node ∨ ctx.BranchesTo nodes is node := by
  constructor
  · rintro ⟨j, hj, u, hu, hm⟩
    rcases List.mem_cons.1 hj with rfl | hj
    · obtain rfl : t = u := Option.some.inj (ht.symm.trans hu)
      exact .inl hm
    · exact .inr ⟨j, hj, u, hu, hm⟩
  · rintro (hm | ⟨j, hj, hu⟩)
    · exact ⟨i, List.mem_cons_self, t, ht, hm⟩
    · exact ⟨j, List.mem_cons_of_mem i hj, hu⟩

/-- The branches a piece ends with lead where all its branches do, unless a
return or a revert closes it. -/
theorem Streak.branchesTo_closing_iff {p : List InstId} (h : ctx.Streak p)
    {nodes : List GraphNode} {node : Option Nat} :
    ctx.BranchesTo nodes (p.reverse.takeWhile ctx.isBranch) node ↔
      ctx.endsInExit p = false ∧ ctx.BranchesTo nodes p node := by
  constructor
  · rintro ⟨i, hi, t, hbranch, hnode⟩
    obtain ⟨hopen, hi, -⟩ := h.mem_closing_iff.1 hi
    exact ⟨hopen, i, hi, t, hbranch, hnode⟩
  · rintro ⟨hopen, i, hi, t, hbranch, hnode⟩
    exact ⟨i, h.mem_closing_iff.2 ⟨hopen, hi, isBranch_of_branchOf? hbranch⟩, t, hbranch, hnode⟩

/-- **The closing branches are resolved, unless one of them strays.** -/
theorem branchTargets_cases (hs : WellShaped ctx) (nodes : List GraphNode) {js : List InstId}
    (hlive : ∀ j ∈ js, ∃ x, ctx.inst? j = some x) :
    (¬ctx.BranchesTo nodes (js.takeWhile ctx.isBranch) none ∧
      ∃ ms, ctx.branchTargets nodes f b js = .ok ms ∧
        ∀ m, m ∈ ms ↔ ctx.BranchesTo nodes (js.takeWhile ctx.isBranch) (some m)) ∨
    (ctx.BranchesTo nodes (js.takeWhile ctx.isBranch) none ∧
      ∃ fault, ctx.branchTargets nodes f b js = .error fault ∧ fault.IsUnresolved) := by
  have hnothing : ∀ m, m ∈ ([] : List Nat) ↔ ctx.BranchesTo nodes [] (some m) := fun m =>
    iff_of_false List.not_mem_nil (not_branchesTo_nil nodes (some m))
  induction js with
  | nil =>
    exact .inl ⟨not_branchesTo_nil nodes none, [], rfl, hnothing⟩
  | cons i js ih =>
    obtain ⟨x, hx⟩ := hlive i List.mem_cons_self
    have hcheck := ih fun j hj => hlive j (List.mem_cons_of_mem i hj)
    by_cases hbranch : ctx.isBranch i
    · obtain ⟨t, ht⟩ := exists_branchOf? hs hbranch
      obtain ⟨y, hy, hop⟩ := isBranch_iff.1 hbranch
      obtain rfl : x = y := Option.some.inj (hx.symm.trans hy)
      have htarget : ctx.target? x = some t := by
        rw [branchOf?, hx] at ht
        exact ht
      rw [List.takeWhile_cons, if_pos hbranch]
      simp only [branchesTo_cons ht]
      cases hnode : nodeAt? nodes t 0 with
      | none =>
        have hwalk : ctx.branchTargets nodes f b (i :: js) =
            refuse (.strayBranch (ctx.nameOf b) (ctx.nameOf t) (ctx.nameOf f)) := by
          simp only [branchTargets, readInst_eq_ok.2 hx, ok_bind, if_pos hop,
            (hs.shaped hx).exit_eq, htarget, hnode]
        exact .inr ⟨.inl rfl, _, hwalk, _, rfl, rfl⟩
      | some m =>
        have hwalk : ctx.branchTargets nodes f b (i :: js) =
            (do return m :: (← ctx.branchTargets nodes f b js)) := by
          simp only [branchTargets, readInst_eq_ok.2 hx, ok_bind, if_pos hop,
            (hs.shaped hx).exit_eq, htarget, hnode]
        rcases hcheck with ⟨hfine, ms, hms, hmem⟩ | ⟨hstrays, fault, hfault, hkind⟩
        · refine .inl ⟨by simpa using hfine, m :: ms, by rw [hwalk, hms]; rfl, fun m' => ?_⟩
          rw [List.mem_cons, hmem, Option.some.injEq, eq_comm]
        · exact .inr ⟨.inr hstrays, fault, by rw [hwalk, hfault]; rfl, hkind⟩
    · have hop : x.opcode ≠ .br := fun hop => hbranch (isBranch_iff.2 ⟨x, hx, hop⟩)
      have hwalk : ctx.branchTargets nodes f b (i :: js) = .ok [] := by
        rw [branchTargets, readInst_eq_ok.2 hx, ok_bind, if_neg hop]
        rfl
      rw [hwalk, List.takeWhile_cons, if_neg hbranch]
      exact .inl ⟨not_branchesTo_nil nodes none, [], rfl, hnothing⟩

/-- Whether control can run past the end of some instructions. -/
def RunsOn (ctx : Context) (is : List InstId) : Prop :=
  ∀ z ∈ is.getLast?, ctx.flowOf z ≠ .final

theorem fallsThrough_eq (hs : WellShaped ctx)
    (hlive : ∀ i ∈ n.instructions, ∃ x, ctx.inst? i = some x) :
    ∃ through, ctx.fallsThrough n = .ok through ∧ (through = true ↔ ctx.RunsOn n.instructions) := by
  unfold fallsThrough RunsOn
  cases hlast : n.instructions.getLast? with
  | none => exact ⟨true, rfl, by simp⟩
  | some z =>
    obtain ⟨x, hx⟩ := hlive z (List.mem_of_getLast? hlast)
    refine ⟨decide (ctx.flowOf z ≠ .final), ?_, by simp⟩
    simp only [instExit_eq hs hx, ok_bind]
    rfl

/-- Where a node leads: to the targets of its closing branches, and on if
control can run past its end. -/
def Leads (ctx : Context) (nodes : List GraphNode) (blocks : List ValueId) (n : GraphNode)
    (m : Nat) : Prop :=
  ctx.BranchesTo nodes (n.instructions.reverse.takeWhile ctx.isBranch) (some m) ∨
    ctx.RunsOn n.instructions ∧ ctx.followingNode? nodes blocks n = some m

/-- **The edges of a node are known, unless a closing branch strays.** -/
theorem nodeEdges_cases (hs : WellShaped ctx) (nodes : List GraphNode) (f : ValueId)
    (blocks : List ValueId) (k : Nat)
    (hlive : ∀ i ∈ n.instructions, ∃ x, ctx.inst? i = some x) :
    (¬ctx.BranchesTo nodes (n.instructions.reverse.takeWhile ctx.isBranch) none ∧
      ∃ edges, ctx.nodeEdges nodes f blocks (n, k) = .ok edges ∧
        ∀ e, e ∈ edges ↔ e.1 = k ∧ ctx.Leads nodes blocks n e.2) ∨
    (ctx.BranchesTo nodes (n.instructions.reverse.takeWhile ctx.isBranch) none ∧
      ∃ fault, ctx.nodeEdges nodes f blocks (n, k) = .error fault ∧ fault.IsUnresolved) := by
  have hreverse : ∀ i ∈ n.instructions.reverse, ∃ x, ctx.inst? i = some x :=
    fun i hi => hlive i (List.mem_reverse.1 hi)
  obtain ⟨through, hthrough, hruns⟩ := fallsThrough_eq hs hlive
  rcases branchTargets_cases (f := f) (b := n.block) hs nodes hreverse with
    ⟨hfine, ms, hms, hmem⟩ | ⟨hstrays, fault, hfault, hkind⟩
  · refine .inl ⟨hfine, _, by rw [nodeEdges, hms, ok_bind, hthrough, ok_bind]; rfl, ?_⟩
    have hfollow : ∀ m, m ∈ (if through = true then ctx.followingNode? nodes blocks n
        else none).toList ↔
          ctx.RunsOn n.instructions ∧ ctx.followingNode? nodes blocks n = some m := by
      intro m
      rw [Option.mem_toList, ← hruns]
      cases through <;> simp
    rintro ⟨k', m⟩
    simp only [List.mem_map, List.mem_append, Prod.mk.injEq, hfollow, hmem]
    constructor
    · rintro ⟨m', hm', rfl, rfl⟩
      exact ⟨rfl, hm'⟩
    · rintro ⟨rfl, hm⟩
      exact ⟨m, hm, rfl, rfl⟩
  · exact .inr ⟨hstrays, fault, by rw [nodeEdges, hfault]; rfl, hkind⟩

/-- **The edges of all nodes are known, unless a closing branch strays.** -/
theorem graphEdges_cases (hs : WellShaped ctx) (nodes : List GraphNode) (f : ValueId)
    (blocks : List ValueId)
    (hlive : ∀ n ∈ nodes, ∀ i ∈ n.instructions, ∃ x, ctx.inst? i = some x) :
    ((∀ n ∈ nodes, ¬ctx.BranchesTo nodes (n.instructions.reverse.takeWhile ctx.isBranch) none) ∧
      ∃ edges, ctx.graphEdges nodes f blocks = .ok edges ∧
        ∀ k m, (k, m) ∈ edges ↔ ∃ n, nodes[k]? = some n ∧ ctx.Leads nodes blocks n m) ∨
    ((∃ n ∈ nodes, ctx.BranchesTo nodes (n.instructions.reverse.takeWhile ctx.isBranch) none) ∧
      ∃ fault, ctx.graphEdges nodes f blocks = .error fault ∧ fault.IsUnresolved) := by
  have hnode : ∀ {n k}, (n, k) ∈ nodes.zipIdx ↔ nodes[k]? = some n := List.mem_zipIdx_iff_getElem?
  rw [graphEdges]
  rcases mapM_cases fun (a : GraphNode × Nat) ha => nodeEdges_cases hs nodes f blocks a.2
      (hlive a.1 (List.mem_of_getElem? (hnode.1 ha))) with
    ⟨hfine, edges, hedges, hmem⟩ | ⟨⟨⟨n, k⟩, ha, hstray⟩, fault, hfault, hkind⟩
  · refine .inl ⟨fun n hn => ?_, edges.flatten, by rw [hedges]; rfl, fun k m => ?_⟩
    · obtain ⟨k, hk⟩ := List.getElem?_of_mem hn
      exact hfine (n, k) (hnode.2 hk)
    · rw [mem_flatten_of_forall₂ hmem]
      constructor
      · rintro ⟨⟨n, k'⟩, ha, rfl, hleads⟩
        exact ⟨n, hnode.1 ha, hleads⟩
      · rintro ⟨n, hn, hleads⟩
        exact ⟨(n, k), hnode.2 hn, rfl, hleads⟩
  · exact .inr ⟨⟨n, List.mem_of_getElem? (hnode.1 ha), hstray⟩, fault, by rw [hfault]; rfl, hkind⟩

/-- The instructions of a node are of its block. -/
theorem mem_body_of_mem_node (hn : n ∈ ctx.nodesOf b) (hi : i ∈ n.instructions) :
    i ∈ ctx.body b := by
  rcases piece_of_mem_nodesOf hn with ⟨hempty, -⟩ | hpiece
  · rw [hempty] at hi
    exact absurd hi List.not_mem_nil
  · have hcut := ctx.cut_piecesOf b
    exact hcut.flatten_isPrefix.subset (List.mem_flatten.2 ⟨_, hpiece, hi⟩)

theorem streak_of_mem_graphNodes (ht : Threaded ctx) (hn : n ∈ ctx.graphNodes blocks) :
    ctx.Streak n.instructions := by
  obtain ⟨b, -, hnb⟩ := List.mem_flatMap.1 hn
  refine ⟨fun i hi => ?_, ?_⟩
  · obtain ⟨x, hx, -⟩ := ht.live (mem_body_of_mem_node hnb hi)
    exact ⟨x, hx⟩
  · rcases piece_of_mem_nodesOf hnb with ⟨hempty, -⟩ | hpiece
    · rw [hempty]
      exact .nil
    · exact (ctx.cut_piecesOf b).pairwise hpiece

/-- **Where a node of a function leads**: to the targets of its branches unless
a return or a revert closes it, and to the next node if control can run past
its end. -/
theorem leads_iff (ht : Threaded ctx) (hnodup : blocks.Nodup) {ns ms : List GraphNode}
    (h : ctx.graphNodes blocks = ns ++ n :: ms) {m : Nat} :
    ctx.Leads (ctx.graphNodes blocks) blocks n m ↔
      (ctx.endsInExit n.instructions = false ∧
        ctx.BranchesTo (ctx.graphNodes blocks) n.instructions (some m)) ∨
      (ctx.RunsOn n.instructions ∧ ms ≠ [] ∧ m = ns.length + 1) := by
  have hn : n ∈ ctx.graphNodes blocks := by
    rw [h]
    exact List.mem_append_right ns List.mem_cons_self
  unfold Leads
  rw [(streak_of_mem_graphNodes ht hn).branchesTo_closing_iff]
  refine or_congr Iff.rfl (and_congr_right fun hruns => ?_)
  rw [followingNode?_eq ht hnodup h hruns]
  by_cases hms : ms = []
  · simp [hms]
  · simp [hms, eq_comm]

/-- **A branch leaves the blocks** and stands in a node that no return or revert
closes. -/
def Leaks (ctx : Context) (blocks : List ValueId) : Prop :=
  ∃ n ∈ ctx.graphNodes blocks, ctx.endsInExit n.instructions = false ∧
    ∃ i ∈ n.instructions, ∃ t, ctx.branchOf? i = some t ∧ t ∉ blocks

/-- Such a branch is one that closes a node and leads to no node. -/
theorem leaks_iff (ht : Threaded ctx) (hnodup : blocks.Nodup) :
    ctx.Leaks blocks ↔ ∃ n ∈ ctx.graphNodes blocks,
      ctx.BranchesTo (ctx.graphNodes blocks) (n.instructions.reverse.takeWhile ctx.isBranch)
        none := by
  refine exists_congr fun n => and_congr_right fun hn => ?_
  rw [(streak_of_mem_graphNodes ht hn).branchesTo_closing_iff, BranchesTo]
  simp only [nodeAt?_front_eq_none_iff hnodup]

end Context

/-! ## The graph of edges -/

namespace FlowGraph

open Exit Context

theorem mem_foldl_addEdge {k m : Nat} (edges : List (Nat × Nat)) :
    ∀ maps : Array NodeSet × Array NodeSet,
      m ∈ (edges.foldl addEdge maps).1[k]?.getD ∅ ↔
        m ∈ maps.1[k]?.getD ∅ ∨ k < maps.1.size ∧ (k, m) ∈ edges := by
  induction edges with
  | nil => intro maps; simp
  | cons e edges ih =>
    intro maps
    obtain ⟨k', m'⟩ := e
    rw [List.foldl_cons, ih]
    have hsize : (addEdge maps (k', m')).1.size = maps.1.size := Array.size_modify
    have hstep : m ∈ (addEdge maps (k', m')).1[k]?.getD ∅ ↔
        m ∈ maps.1[k]?.getD ∅ ∨ k < maps.1.size ∧ k = k' ∧ m = m' := by
      simp only [addEdge, Array.getElem?_modify]
      by_cases hk : k < maps.1.size
      · by_cases hkk : k' = k
        · subst hkk
          have hinsert : ∀ s : NodeSet, m ∈ s.insert m' ↔ m ∈ s ∨ m = m' := by
            intro s
            rw [Std.ExtTreeSet.mem_insert, Std.LawfulEqOrd.compare_eq_iff_eq, eq_comm, or_comm]
          simp [hk, hinsert]
        · simp [hkk, hk, Ne.symm hkk]
      · simp [hk]
    rw [hstep, hsize, List.mem_cons, Prod.mk.injEq]
    tauto

/-- **The successors of a node are the ends of its edges.** -/
theorem mem_successorsOf_ofEdges {f : ValueId} {nodes : List GraphNode} {edges : List (Nat × Nat)}
    {k m : Nat} :
    m ∈ (ofEdges f nodes edges).successorsOf k ↔ k < nodes.length ∧ (k, m) ∈ edges := by
  have h : (ofEdges f nodes edges).successors = (edges.foldl addEdge
      (Array.replicate nodes.length ∅, Array.replicate nodes.length ∅)).1 := rfl
  have hempty : m ∉ (Array.replicate nodes.length (∅ : NodeSet))[k]?.getD ∅ := by
    rw [Array.getElem?_replicate]
    split <;> exact Std.ExtTreeSet.not_mem_empty
  rw [successorsOf, h, mem_foldl_addEdge, Array.size_replicate]
  exact or_iff_right hempty

variable {ctx : Context} {f : ValueId}

/-- **A graph of some blocks**, as it is built: it has their nodes, the branches
of those that no return or revert closes stay among the blocks, and a node
leads to the targets of these branches and to the next node if control can run
past its end. -/
structure Built (g : FlowGraph) (ctx : Context) (blocks : List ValueId) : Prop where
  nodup : blocks.Nodup
  nodes : g.nodes = ctx.graphNodes blocks
  resolved : ¬ctx.Leaks blocks
  edges : ∀ {ns n ms m}, ctx.graphNodes blocks = ns ++ n :: ms →
    (m ∈ g.successorsOf ns.length ↔
      (ctx.endsInExit n.instructions = false ∧ ctx.BranchesTo g.nodes n.instructions (some m)) ∨
      (ctx.RunsOn n.instructions ∧ ms ≠ [] ∧ m = ns.length + 1))

/-- Cutting the blocks of a function never fails, so the graph depends on the
edges only. -/
theorem outcome_build (h : Sound ctx) (hf : ctx.ownsValue f) :
    (build ctx f).outcome =
      (ctx.graphEdges (ctx.graphNodes (ctx.members f .blocks)) f (ctx.members f .blocks)).map
        (ofEdges f (ctx.graphNodes (ctx.members f .blocks))) := by
  obtain ⟨x, hx⟩ := Option.isSome_iff_exists.1 hf
  have hmembers := (members_of_value? hx .blocks).symm
  have hsplit : (ctx.splitBlocks 0 (ctx.members f .blocks)).outcome =
      .ok (ctx.graphNodes (ctx.members f .blocks)) :=
    outcome_splitBlocks h.threaded h.shaped 0 fun b hb => h.membered.kind hb
  unfold build
  simp only [Report.outcome_bind, Report.outcome_liftM, read_eq_ok.2 hx, ok_bind, hmembers,
    hsplit, Report.outcome_note, Report.outcome_pure]
  cases ctx.graphEdges (ctx.graphNodes (ctx.members f .blocks)) f (ctx.members f .blocks) <;> rfl

/-- **Building a graph** succeeds, unless a branch in a node that no return or
revert closes leaves the function. -/
theorem build_cases (h : Sound ctx) (hf : ctx.ownsValue f) :
    (∃ g, (build ctx f).outcome = .ok g ∧ g.Built ctx (ctx.members f .blocks)) ∨
    (ctx.Leaks (ctx.members f .blocks) ∧
      ∃ fault, (build ctx f).outcome = .error fault ∧ fault.IsUnresolved) := by
  have hnodup := h.membered.nodup f .blocks
  have hlive : ∀ n ∈ ctx.graphNodes (ctx.members f .blocks), ∀ i ∈ n.instructions,
      ∃ x, ctx.inst? i = some x := fun n hn => (streak_of_mem_graphNodes h.threaded hn).1
  rw [outcome_build h hf, leaks_iff h.threaded hnodup]
  rcases graphEdges_cases h.shaped _ f (ctx.members f .blocks) hlive with
    ⟨hfine, edges, hedges, hmem⟩ | ⟨hstray, fault, hfault, hkind⟩
  · refine .inl ⟨_, by rw [hedges]; rfl, hnodup, rfl, ?_, fun {ns n ms m} hsplit => ?_⟩
    · rw [leaks_iff h.threaded hnodup]
      rintro ⟨n, hn, hstray⟩
      exact hfine n hn hstray
    · have hget : (ctx.graphNodes (ctx.members f .blocks))[ns.length]? = some n := by
        rw [hsplit]
        simp
      have hlt := (List.getElem?_eq_some_iff.1 hget).1
      rw [mem_successorsOf_ofEdges, hmem, hget]
      simp only [hlt, true_and, Option.some.injEq, exists_eq_left']
      exact leads_iff h.threaded hnodup hsplit
  · exact .inr ⟨hstray, fault, by rw [hfault]; rfl, hkind⟩

/-- Only functions of the context have a graph. -/
theorem ownsValue_of_build {g : FlowGraph} (h : (build ctx f).outcome = .ok g) :
    ctx.ownsValue f := by
  unfold build at h
  rw [Report.outcome_bind, Report.outcome_liftM, bind_eq_ok] at h
  obtain ⟨x, hx, -⟩ := h
  rw [Context.ownsValue, Context.read_eq_ok.1 hx]
  rfl

theorem built_of_build (h : Sound ctx) {g : FlowGraph} (hg : (build ctx f).outcome = .ok g) :
    g.Built ctx (ctx.members f .blocks) := by
  rcases build_cases h (ownsValue_of_build hg) with ⟨g', hg', hbuilt⟩ | ⟨-, fault, hfault, -⟩
  · exact Except.ok.inj (hg'.symm.trans hg) ▸ hbuilt
  · rw [hfault] at hg
    cases hg

/-- **Control flow is unresolved** exactly where such a branch leaves the
function. -/
theorem unresolved_iff (h : Sound ctx) :
    (∃ fault, (build ctx f).outcome = .error fault ∧ fault.IsUnresolved) ↔
      ctx.Leaks (ctx.members f .blocks) := by
  by_cases hf : ctx.ownsValue f
  · rcases build_cases h hf with ⟨g, hg, hbuilt⟩ | ⟨hleaks, hfails⟩
    · refine iff_of_false ?_ hbuilt.resolved
      rintro ⟨fault, hfault, -⟩
      rw [hg] at hfault
      cases hfault
    · exact iff_of_true hfails hleaks
  · -- A handle of another context is misused, and it has no blocks.
    have hvalue : ctx.value? f = none := by simpa [Context.ownsValue] using hf
    have hmisuse : (build ctx f).outcome = .error .misuse := by
      unfold build Context.read
      rw [hvalue]
      rfl
    have hmembers : ctx.members f .blocks = [] := by
      rw [Context.members, hvalue]
      rfl
    rw [hmisuse, hmembers]
    refine iff_of_false ?_ ?_
    · rintro ⟨fault, hfault, cause, rfl, -⟩
      cases hfault
    · rintro ⟨n, hn, -⟩
      exact absurd hn List.not_mem_nil

/-! ## Control transfers

A branch anywhere in a node transfers control to its target, and control runs
past the end of a node that nothing ends. The graph has the second kind of
transfer always, and the first kind exactly for the nodes that no return or
revert closes. -/

/-- The node right after another: the one that starts right behind it in its
block, or else the one at the front of the next block. -/
def follower? (g : FlowGraph) (blocks : List ValueId) (n : GraphNode) : Option Nat :=
  (g.nodeAt? n.block (n.last + 1)).or
    ((Sequence.next? n.block blocks).bind fun next => g.nodeAt? next 0)

/-- A node starts at the front of its block or inside it. -/
theorem first_lt_of_mem_nodesOf {b : ValueId} {n : GraphNode} (h : n ∈ ctx.nodesOf b) :
    n.first = 0 ∨ n.first < (ctx.body b).length := by
  by_cases hb : ctx.body b = []
  · rw [nodesOf_of_empty hb, List.mem_singleton] at h
    exact .inl (by rw [h])
  · rw [nodesOf_of_ne_nil hb] at h
    obtain ⟨ns, ms, hsplit⟩ := List.append_of_mem h
    obtain ⟨qs₁, q, qs₂, hqs, -, rfl, -⟩ := exists_piece_of_nodesFrom hsplit
    have hcut := ctx.cut_piecesOf b
    rw [hqs] at hcut
    have hq : 0 < q.length := List.length_pos_iff.2 (hcut.ne_nil (by simp))
    have hlength := hcut.flatten_isPrefix.length_le
    simp only [List.flatten_append, List.flatten_cons, List.length_append] at hlength
    refine .inr ?_
    show 0 + qs₁.flatten.length < _
    omega

/-- Where control runs past the end of a node, the node right after it is the
next one. -/
theorem follower?_eq {g : FlowGraph} {blocks : List ValueId} (hnodup : blocks.Nodup)
    (hnodes : g.nodes = ctx.graphNodes blocks) {n : GraphNode} {ns ms : List GraphNode}
    (h : ctx.graphNodes blocks = ns ++ n :: ms) (hruns : ctx.RunsOn n.instructions) :
    g.follower? blocks n = if ms = [] then none else some (ns.length + 1) := by
  unfold follower? nodeAt?
  rw [hnodes]
  rcases next_node_cases hnodup h hruns with ⟨-, -, hms, hnext⟩ | ⟨hend, hnext⟩
  · rw [hnext, if_neg hms]
    rfl
  · have hnone : Exit.nodeAt? (ctx.graphNodes blocks) n.block (n.last + 1) = none := by
      cases hfound : Exit.nodeAt? (ctx.graphNodes blocks) n.block (n.last + 1) with
      | none => rfl
      | some m =>
        -- a node there would start behind the end of its block
        obtain ⟨ns', n', ms', hsplit, -, hblock, hfirst⟩ := split_of_nodeAt? hfound
        have hn' : n' ∈ ctx.graphNodes blocks := by
          rw [hsplit]
          exact List.mem_append_right ns' List.mem_cons_self
        obtain ⟨b, -, hnb⟩ := List.mem_flatMap.1 hn'
        rw [← block_of_mem_nodesOf hnb] at hnb
        have hinside := first_lt_of_mem_nodesOf hnb
        rw [hblock] at hinside hnb
        rcases hend with hempty | hle
        · have hn : n ∈ ctx.graphNodes blocks := by
            rw [h]
            exact List.mem_append_right ns List.mem_cons_self
          obtain ⟨c, -, hnc⟩ := List.mem_flatMap.1 hn
          have hc := block_of_mem_nodesOf hnc
          rcases piece_of_mem_nodesOf hnc with ⟨-, hbody⟩ | hpiece
          · rw [← hc] at hbody
            rw [hbody] at hinside
            simp only [List.length_nil, Nat.not_lt_zero, or_false] at hinside
            omega
          · exact absurd hempty ((ctx.cut_piecesOf c).ne_nil hpiece)
        · omega
    rw [hnone, hnext]
    rfl

/-- Control runs on exactly past what is no unconditional terminator. -/
theorem runsOn_of_not_unconditional (h : Sound ctx) {is : List InstId}
    (hlive : ∀ i ∈ is, ∃ x, ctx.inst? i = some x)
    (hlast : ∀ z x, is.getLast? = some z → ctx.inst? z = some x → x.isUnconditional = false) :
    ctx.RunsOn is := by
  intro z hz
  obtain ⟨x, hx⟩ := hlive z (List.mem_of_getLast? hz)
  have hno := hlast z x hz hx
  rw [flowOf_of_live hx, Instruction.flow]
  unfold Instruction.isUnconditional at hno
  cases hop : x.opcode with
  | ret | revert => rw [hop] at hno; exact Bool.noConfusion hno
  | br =>
    rw [hop] at hno
    have htwo : x.operands.length = 2 := by
      have hcount := (h.shaped.shaped hx).branch_operands hop
      simp only [beq_eq_false_iff_ne] at hno
      omega
    rw [htwo]
    exact nofun
  | _ => exact nofun

theorem endsInExit_eq_false_of_runsOn {is : List InstId} (h : ctx.RunsOn is) :
    ctx.endsInExit is = false := by
  cases hclosed : ctx.endsInExit is with
  | false => rfl
  | true =>
    obtain ⟨x, hlast, hexit⟩ := (Option.any_eq_true _ _).1 hclosed
    obtain ⟨z, hz, hx⟩ := Option.bind_eq_some_iff.1 hlast
    exact absurd (flowOf_eq_final_of_exit hx (of_decide_eq_true hexit)) (h z hz)

namespace Built

variable {g : FlowGraph} {blocks : List ValueId} {k m : Nat} {n : GraphNode}

/-- A node has the edges of its branches if no return or revert closes it. -/
theorem branch_edge_iff (h : g.Built ctx blocks) (hk : g.nodes[k]? = some n) {i : InstId}
    (hi : i ∈ n.instructions) {t : ValueId} (ht : ctx.branchOf? i = some t) :
    (∃ m, g.nodeAt? t 0 = some m ∧ m ∈ g.successorsOf k) ↔
      ctx.endsInExit n.instructions = false := by
  rw [h.nodes] at hk
  obtain ⟨ns, ms, hsplit, rfl⟩ := Exit.split_of_getElem? hk
  constructor
  · rintro ⟨m, -, hm⟩
    rcases (h.edges hsplit).1 hm with ⟨hopen, -⟩ | ⟨hruns, -, -⟩
    · exact hopen
    · exact endsInExit_eq_false_of_runsOn hruns
  · intro hopen
    have htb : t ∈ blocks := Classical.byContradiction fun hout =>
      h.resolved ⟨n, List.mem_of_getElem? hk, hopen, i, hi, t, ht, hout⟩
    obtain ⟨bs₁, bs₂, hblocks⟩ := List.append_of_mem htb
    have hm : Exit.nodeAt? g.nodes t 0 = some (ctx.graphNodes bs₁).length := by
      rw [h.nodes]
      exact nodeAt?_front h.nodup hblocks
    exact ⟨_, hm, (h.edges hsplit).2 (.inl ⟨hopen, i, hi, t, ht, hm⟩)⟩

/-- A node that control runs past has an edge to the node right after it. -/
theorem follower_edge (h : g.Built ctx blocks) (hk : g.nodes[k]? = some n)
    (hruns : ctx.RunsOn n.instructions) (hm : g.follower? blocks n = some m) :
    m ∈ g.successorsOf k := by
  rw [h.nodes] at hk
  obtain ⟨ns, ms, hsplit, rfl⟩ := Exit.split_of_getElem? hk
  rw [follower?_eq h.nodup h.nodes hsplit hruns] at hm
  split at hm
  · cases hm
  · exact (h.edges hsplit).2 (.inr ⟨hruns, ‹ms ≠ []›, (Option.some.inj hm).symm⟩)

end Built

end FlowGraph

/-- **Which control transfers a flow graph has.** A node leads to the front of
the block that a branch in it names if and only if no return or revert closes
the node. If nothing ends its control flow, it leads to the node right after
it. And building fails with unresolved control flow if and only if a branch
in a node that no return or revert closes leaves the function. -/
theorem successors_of_branches {ctx : Context} (reachable : Reachable ctx) (f : ValueId) :
    (∀ g, (FlowGraph.build ctx f).outcome = .ok g → ∀ k n, g.nodes[k]? = some n →
      (∀ i ∈ n.instructions, ∀ x, ctx.inst? i = some x → x.opcode = .br →
        ∃ t, ctx.target? x = some t ∧
          ((∃ m, g.nodeAt? t 0 = some m ∧ m ∈ g.successorsOf k) ↔
            ctx.endsInExit n.instructions = false)) ∧
      ((∀ z x, n.instructions.getLast? = some z → ctx.inst? z = some x →
          x.isUnconditional = false) →
        ∀ m, g.follower? (ctx.members f .blocks) n = some m → m ∈ g.successorsOf k)) ∧
    ((∃ cause, (FlowGraph.build ctx f).outcome = .error (.refused cause) ∧
        cause.kind = .unresolvedControlFlow) ↔
      ∃ n ∈ ctx.graphNodes (ctx.members f .blocks), ctx.endsInExit n.instructions = false ∧
        ∃ i ∈ n.instructions, ∃ x t, ctx.inst? i = some x ∧ ctx.target? x = some t ∧
          t ∉ ctx.members f .blocks) := by
  have h := reachable.sound
  refine ⟨fun g hg k n hk => ?_, ?_⟩
  · have hbuilt := FlowGraph.built_of_build h hg
    refine ⟨fun i hi x hx hop => ?_, fun hlast m hm => ?_⟩
    · obtain ⟨t, ht⟩ := Context.exists_branchOf? h.shaped (Context.isBranch_iff.2 ⟨x, hx, hop⟩)
      refine ⟨t, ?_, hbuilt.branch_edge_iff hk hi ht⟩
      rw [Context.branchOf?, hx] at ht
      exact ht
    · have hn : n ∈ ctx.graphNodes (ctx.members f .blocks) := by
        rw [← hbuilt.nodes]
        exact List.mem_of_getElem? hk
      have hlive := (Context.streak_of_mem_graphNodes h.threaded hn).1
      exact hbuilt.follower_edge hk (FlowGraph.runsOn_of_not_unconditional h hlive hlast) hm
  · have hunresolved := FlowGraph.unresolved_iff (f := f) h
    constructor
    · rintro ⟨cause, hcause, hkind⟩
      obtain ⟨n, hn, hopen, i, hi, t, ht, htb⟩ :=
        hunresolved.1 ⟨_, hcause, cause, rfl, hkind⟩
      obtain ⟨x, hx, ht⟩ := Option.bind_eq_some_iff.1 ht
      exact ⟨n, hn, hopen, i, hi, x, t, hx, ht, htb⟩
    · rintro ⟨n, hn, hopen, i, hi, x, t, hx, ht, htb⟩
      have hbranch : ctx.branchOf? i = some t := Option.bind_eq_some_iff.2 ⟨x, hx, ht⟩
      obtain ⟨_, hcause, cause, rfl, hkind⟩ :=
        hunresolved.2 ⟨n, hn, hopen, i, hi, t, hbranch, htb⟩
      exact ⟨cause, hcause, hkind⟩

/-- A function of two blocks, the first of which holds a conditional branch to
the second and then jumps back to its own front. -/
def branchThenJump : Context :=
  Operation.runAll
    [.createFunction true "" none, .createArgument "" (some ⟨0, 0⟩),
      .createBlock "" (some ⟨0, 0⟩) none, .createBlock "" (some ⟨0, 0⟩) none,
      .createForm (.branch ⟨0, 1⟩ ⟨0, 3⟩) (.atEnd ⟨0, 2⟩),
      .createForm (.jump ⟨0, 2⟩) (.atEnd ⟨0, 2⟩), .createForm .retVoid (.atEnd ⟨0, 3⟩)] { id := 0 }

/-- Its graph has the branch. -/
theorem successors_of_branches_branchThenJump :
    Reachable branchThenJump ∧ ∃ g, (FlowGraph.build branchThenJump ⟨0, 0⟩).outcome = .ok g ∧
      ∃ m, g.nodeAt? ⟨0, 3⟩ 0 = some m ∧ m ∈ g.successorsOf 0 := by
  have hreachable : Reachable branchThenJump := (Reachable.empty 0).runAll (by decide)
  obtain ⟨hnodes, -⟩ := successors_of_branches hreachable ⟨0, 0⟩
  obtain ⟨t, ht, hedge⟩ := (hnodes _ rfl 0 _ rfl).1 ⟨0, 0⟩ List.mem_cons_self _ rfl rfl
  obtain rfl : (⟨0, 3⟩ : ValueId) = t := Option.some.inj (Eq.trans rfl ht)
  exact ⟨hreachable, _, rfl, hedge.2 (by decide)⟩

/-- A function of two blocks, the first of which holds a conditional branch to
the second and then returns. -/
def branchThenReturn : Context :=
  Operation.runAll
    [.createFunction true "" none, .createArgument "" (some ⟨0, 0⟩),
      .createBlock "" (some ⟨0, 0⟩) none, .createBlock "" (some ⟨0, 0⟩) none,
      .createForm (.branch ⟨0, 1⟩ ⟨0, 3⟩) (.atEnd ⟨0, 2⟩), .createForm .retVoid (.atEnd ⟨0, 2⟩),
      .createForm .retVoid (.atEnd ⟨0, 3⟩)] { id := 0 }

/-- Its graph lacks the branch: control can go from the first node to the
second, which the first does not lead to. -/
theorem branchThenReturn_lacks_edge :
    Reachable branchThenReturn ∧
    ∃ g, (FlowGraph.build branchThenReturn ⟨0, 0⟩).outcome = .ok g ∧
      (g.nodes[0]?.map GraphNode.instructions = some [⟨0, 0⟩, ⟨0, 1⟩] ∧
        branchThenReturn.branchOf? ⟨0, 0⟩ = some ⟨0, 3⟩ ∧ g.nodeAt? ⟨0, 3⟩ 0 = some 1) ∧
      1 ∉ g.successorsOf 0 := by
  refine ⟨(Reachable.empty 0).runAll (by decide), _, rfl, ?_, ?_⟩
  · decide
  · decide

end ContractIR
