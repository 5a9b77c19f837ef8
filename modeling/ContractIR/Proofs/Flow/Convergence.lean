import Mathlib.Data.Finset.Card
import ContractIR.Proofs.Flow.LiveSets
/-!
# How soon the live sets settle

`LiveNode.solve` stops its sweeps at a bound that is far larger than what they
need. Whether a node asks for a local hangs only on where that same local is
live, so each local can be followed by itself: as long as it is not settled,
a sweep makes it live at one more node. With `n` nodes every local is settled
after `n` sweeps (`settled_afterSweeps`), and one more sweep finds nothing to
change.

`Converges` is the loop without a bound: it ends by a sweep that changes
nothing and in no other way. As it goes over the nodes, that sweep also finds
what is live at their ends (`Settled.sweepKeeping_eq`).
-/

namespace ContractIR

namespace LiveNode

variable {n : LiveNode} {nodes : List LiveNode} {starts final : Array ValueSet} {k : Nat}
variable {v : ValueId}

/-! ## One local at a time -/

/-- A local is settled: it is at the start of every node that asks for it. -/
def SettledFor (nodes : List LiveNode) (starts : Array ValueSet) (v : ValueId) : Prop :=
  ∀ k n, nodes[k]? = some n → v ∈ n.liveIn starts → v ∈ valuesAt starts k

/-- The nodes that a local is at the start of. -/
def holders (nodes : List LiveNode) (starts : Array ValueSet) (v : ValueId) : Finset Nat :=
  (Finset.range nodes.length).filter fun k => v ∈ valuesAt starts k

theorem mem_holders : k ∈ holders nodes starts v ↔ k < nodes.length ∧ v ∈ valuesAt starts k := by
  rw [holders, Finset.mem_filter, Finset.mem_range]

/-- A look at a node leaves there what the node asks for, and the other sets as
they are. -/
theorem valuesAt_visit {s : Array ValueSet × Bool} (hk : k < s.1.size) (j : Nat) :
    valuesAt (visit s (n, k)).1 j = if j = k then n.liveIn s.1 else valuesAt s.1 j := by
  unfold visit
  dsimp only
  split
  next heq =>
    split
    next hj => rw [hj, valuesAt_of_get heq]
    next => rfl
  next => exact valuesAt_setIfInBounds hk j

namespace Rising

theorem lt_size (h : Rising nodes starts) (hk : nodes[k]? = some n) : k < starts.size := by
  rw [h.size]
  exact (List.getElem?_eq_some_iff.1 hk).1

theorem grows_visit {s : Array ValueSet × Bool} (h : Rising nodes s.1) (hk : nodes[k]? = some n)
    (j : Nat) (hv : v ∈ valuesAt s.1 j) : v ∈ valuesAt (LiveNode.visit s (n, k)).1 j := by
  rw [valuesAt_visit (h.lt_size hk)]
  split
  next hj =>
    subst j
    exact h.below k n hk v hv
  next => exact hv

theorem grows_foldl_visit {ks : List (LiveNode × Nat)} (hks : ∀ p ∈ ks, nodes[p.2]? = some p.1) :
    ∀ {s : Array ValueSet × Bool}, Rising nodes s.1 →
      ∀ j, v ∈ valuesAt s.1 j → v ∈ valuesAt (ks.foldl LiveNode.visit s).1 j := by
  induction ks with
  | nil => exact fun _ _ hv => hv
  | cons p ks ih =>
    intro s h j hv
    have hp := hks p List.mem_cons_self
    exact ih (fun q hq => hks q (List.mem_cons_of_mem _ hq)) (h.visit hp).1 j
      (h.grows_visit hp j hv)

/-- **No set shrinks** in a sweep. -/
theorem grows_sweep (h : Rising nodes starts) (j : Nat) (hv : v ∈ valuesAt starts j) :
    v ∈ valuesAt (LiveNode.sweep nodes starts).1 j :=
  grows_foldl_visit (fun _ hp => List.mem_zipIdx_iff_getElem?.1 hp) h j hv

/-- A local that ends up where it was had been asked for by none of the nodes
looked at but those it is at. -/
theorem mem_of_foldl_visit {ks : List (LiveNode × Nat)} (hks : ∀ p ∈ ks, nodes[p.2]? = some p.1) :
    ∀ {s : Array ValueSet × Bool}, Rising nodes s.1 →
      (∀ j, v ∈ valuesAt (ks.foldl LiveNode.visit s).1 j → v ∈ valuesAt s.1 j) →
        ∀ p ∈ ks, v ∈ p.1.liveIn s.1 → v ∈ valuesAt s.1 p.2 := by
  induction ks with
  | nil => exact fun _ _ p hp => absurd hp List.not_mem_nil
  | cons p ks ih =>
    intro s h hsame
    have hp := hks p List.mem_cons_self
    have hks' : ∀ q ∈ ks, nodes[q.2]? = some q.1 := fun q hq => hks q (List.mem_cons_of_mem _ hq)
    have hrises := (h.visit hp).1
    have hgrows : ∀ j, v ∈ valuesAt s.1 j → v ∈ valuesAt (LiveNode.visit s p).1 j :=
      fun j hv => h.grows_visit hp j hv
    -- The first look lies between the start and the end, so it added nothing.
    have hback : ∀ j, v ∈ valuesAt (LiveNode.visit s p).1 j → v ∈ valuesAt s.1 j :=
      fun j hv => hsame j (grows_foldl_visit hks' hrises j hv)
    intro q hq hv
    rcases List.mem_cons.1 hq with rfl | hq
    · refine hback q.2 ?_
      rw [valuesAt_visit (h.lt_size hp), if_pos rfl]
      exact hv
    · exact hback q.2 (ih hks' hrises (fun j hv => hgrows j (hsame j hv)) q hq
        (liveIn_mono hgrows hv))

/-- **A sweep settles a local or makes it live at one more node.** -/
theorem settledFor_or_lt (h : Rising nodes starts) (v : ValueId) :
    SettledFor nodes starts v ∨
      (holders nodes starts v).card < (holders nodes (LiveNode.sweep nodes starts).1 v).card := by
  by_cases hsame : ∀ j, v ∈ valuesAt (LiveNode.sweep nodes starts).1 j → v ∈ valuesAt starts j
  · left
    intro k n hk
    exact mem_of_foldl_visit (fun _ hp => List.mem_zipIdx_iff_getElem?.1 hp) (s := (starts, false))
      h hsame (n, k) (List.mem_zipIdx_iff_getElem?.2 hk)
  · right
    obtain ⟨j, hj⟩ := not_forall.1 hsame
    obtain ⟨hnew, hold⟩ := Classical.not_imp.1 hj
    have hj : j < nodes.length := by
      by_contra hge
      rw [valuesAt, Array.getElem?_eq_none (by rw [h.sweep.1.size]; omega)] at hnew
      exact Std.ExtTreeSet.not_mem_empty hnew
    refine Finset.card_lt_card (Finset.ssubset_iff_of_subset ?_ |>.2 ⟨j, ?_, ?_⟩)
    · intro i hi
      obtain ⟨hlt, hv⟩ := mem_holders.1 hi
      exact mem_holders.2 ⟨hlt, h.grows_sweep i hv⟩
    · exact mem_holders.2 ⟨hj, hnew⟩
    · exact fun hmem => hold (mem_holders.1 hmem).2

/-- Once settled, a local stays where it is. -/
theorem mem_sweep_iff (h : Rising nodes starts) (hv : SettledFor nodes starts v) (k : Nat) :
    v ∈ valuesAt (LiveNode.sweep nodes starts).1 k ↔ v ∈ valuesAt starts k := by
  let P : Nat → ValueId → Prop := fun j w => w = v → v ∈ valuesAt starts j
  have hrespects : Respects nodes P := by
    rintro j n starts' hj hwithin w hw rfl
    exact hv j n hj (liveIn_mono (fun i hi => hwithin i w hi rfl) hw)
  have hwithin : Within P starts := by
    rintro j w hw rfl
    exact hw
  exact ⟨fun hmem => hwithin.sweep hrespects k v hmem rfl, h.grows_sweep k⟩

theorem settledFor_sweep (h : Rising nodes starts) (hv : SettledFor nodes starts v) :
    SettledFor nodes (LiveNode.sweep nodes starts).1 v := by
  intro k n hk hask
  rw [h.mem_sweep_iff hv]
  exact hv k n hk (liveIn_mono (fun j => (h.mem_sweep_iff hv j).1) hask)

/-- Where every local is settled, the sets are a fixpoint. -/
theorem settled (h : Rising nodes starts) (hall : ∀ v, SettledFor nodes starts v) :
    Settled nodes starts := by
  intro k n hk
  obtain ⟨s, hs⟩ : ∃ s, starts[k]? = some s := ⟨_, Array.getElem?_eq_getElem (h.lt_size hk)⟩
  rw [hs, ← valuesAt_of_get hs]
  exact congrArg some (Std.ExtTreeSet.ext_mem fun v => ⟨h.below k n hk v, hall v k n hk⟩)

end Rising

/-! ## Sweep after sweep -/

/-- The sets after a number of sweeps, starting with nothing. -/
def afterSweeps (nodes : List LiveNode) : Nat → Array ValueSet
  | 0 => Array.replicate nodes.length ∅
  | k + 1 => (sweep nodes (afterSweeps nodes k)).1

theorem rising_afterSweeps (nodes : List LiveNode) : ∀ k, Rising nodes (afterSweeps nodes k)
  | 0 => rising_replicate nodes
  | k + 1 => (rising_afterSweeps nodes k).sweep.1

/-- After `k` sweeps a local is settled or live at `k` nodes at least. -/
theorem settledFor_or_le (nodes : List LiveNode) (v : ValueId) (k : Nat) :
    SettledFor nodes (afterSweeps nodes k) v ∨
      k ≤ (holders nodes (afterSweeps nodes k) v).card := by
  induction k with
  | zero => exact .inr (Nat.zero_le _)
  | succ k ih =>
    have hrises := rising_afterSweeps nodes k
    rcases hrises.settledFor_or_lt v with hsettled | hlt
    · exact .inl (hrises.settledFor_sweep hsettled)
    · rcases ih with hsettled | hle
      · exact .inl (hrises.settledFor_sweep hsettled)
      · right
        rw [afterSweeps]
        omega

/-- **As many sweeps as there are nodes reach the fixpoint.** -/
theorem settled_afterSweeps (nodes : List LiveNode) :
    Settled nodes (afterSweeps nodes nodes.length) := by
  refine (rising_afterSweeps nodes _).settled fun v => ?_
  rcases settledFor_or_le nodes v nodes.length with hsettled | hall
  · exact hsettled
  · -- The local is at every node, so no node can ask for it in vain.
    intro k n hk _
    have hholders : holders nodes (afterSweeps nodes nodes.length) v = Finset.range nodes.length :=
      Finset.eq_of_subset_of_card_le (Finset.filter_subset _ _) (by rwa [Finset.card_range])
    have hmem : k ∈ holders nodes (afterSweeps nodes nodes.length) v := by
      rw [hholders, Finset.mem_range]
      exact (List.getElem?_eq_some_iff.1 hk).1
    exact (mem_holders.1 hmem).2

/-! ## The sets at the ends -/

/-- Looks at one node, and keeps what is live at its end by then. -/
def visitKeeping (state : (Array ValueSet × Bool) × Array ValueSet) (node : LiveNode × Nat) :
    (Array ValueSet × Bool) × Array ValueSet :=
  (visit state.1 node, state.2.setIfInBounds node.2 (node.1.liveOut state.1.1))

/-- **A sweep that keeps the sets at the ends** of the nodes as it comes to
them. -/
def sweepKeeping (nodes : List LiveNode) (starts ends : Array ValueSet) :
    (Array ValueSet × Bool) × Array ValueSet :=
  nodes.zipIdx.foldl visitKeeping ((starts, false), ends)

/-- For the starts it is the sweep. -/
theorem sweepKeeping_fst (nodes : List LiveNode) (starts ends : Array ValueSet) :
    (sweepKeeping nodes starts ends).1 = sweep nodes starts := by
  have hfold : ∀ (ks : List (LiveNode × Nat)) (s : (Array ValueSet × Bool) × Array ValueSet),
      (ks.foldl visitKeeping s).1 = ks.foldl visit s.1 := by
    intro ks
    induction ks with
    | nil => exact fun _ => rfl
    | cons p ks ih => exact fun s => ih (visitKeeping s p)
  exact hfold _ _

namespace Settled

/-- Over a fixpoint, the nodes behind some find the starts as they are and leave
their ends behind those of the first. -/
theorem foldl_visitKeeping (h : Settled nodes starts) {ms : List LiveNode} {ends : List ValueSet}
    {pre : List LiveNode} (hnodes : nodes = pre ++ ms) (hlength : ends.length = ms.length) :
    (ms.zipIdx pre.length).foldl visitKeeping
        ((starts, false), ((pre.map fun n => n.liveOut starts) ++ ends).toArray) =
      ((starts, false), (nodes.map fun n => n.liveOut starts).toArray) := by
  induction ms generalizing pre ends with
  | nil =>
    rw [List.length_eq_zero_iff.1 hlength, hnodes, List.append_nil, List.append_nil]
    rfl
  | cons n ms ih =>
    obtain ⟨s, ends, rfl⟩ := List.exists_cons_of_length_eq_add_one hlength
    have hnext : nodes = (pre ++ [n]) ++ ms := by
      rw [hnodes, List.append_assoc]
      rfl
    have hvisit : visit (starts, false) (n, pre.length) = (starts, false) := by
      refine if_pos (h pre.length n ?_)
      rw [hnodes]
      simp
    have hkeep : ((pre.map fun n => n.liveOut starts) ++ s :: ends).toArray.setIfInBounds
        pre.length (n.liveOut starts) =
        (((pre ++ [n]).map fun n => n.liveOut starts) ++ ends).toArray := by
      simp
    rw [List.zipIdx_cons, List.foldl_cons, visitKeeping, hvisit, hkeep]
    have hrest := ih hnext (Nat.succ.inj hlength)
    rwa [List.length_append] at hrest

/-- **Over a fixpoint a sweep changes nothing and keeps what is live at the ends
then**, whatever was kept before. -/
theorem sweepKeeping_eq (h : Settled nodes starts) {ends : Array ValueSet}
    (hsize : ends.size = nodes.length) :
    sweepKeeping nodes starts ends =
      ((starts, false), (nodes.map fun n => n.liveOut starts).toArray) :=
  h.foldl_visitKeeping (List.nil_append nodes).symm hsize

theorem sweep_eq (h : Settled nodes starts) : sweep nodes starts = (starts, false) := by
  rw [← sweepKeeping_fst nodes starts (Array.replicate nodes.length ∅),
    h.sweepKeeping_eq Array.size_replicate]

end Settled

/-! ## The loop without a bound -/

/-- **Sweeping until a sweep changes nothing**: from some sets, by a number of
sweeps, to the sets that the last one leaves. -/
inductive Converges (nodes : List LiveNode) : Array ValueSet → Nat → Array ValueSet → Prop
  /-- A sweep that changes nothing is the last. -/
  | still {starts : Array ValueSet} (unchanged : (sweep nodes starts).2 = false) :
      Converges nodes starts 1 (sweep nodes starts).1
  /-- After any other the loop goes on. -/
  | again {starts final : Array ValueSet} {count : Nat} (changed : (sweep nodes starts).2 = true)
      (rest : Converges nodes (sweep nodes starts).1 count final) :
      Converges nodes starts (count + 1) final

/-- **The bounded loop is the unbounded one** if the bound exceeds what the sets
can still grow by. -/
theorem Rising.converges {bound : Nat} (h : Rising nodes starts)
    (hbound : nodes.length * readCount nodes < weight starts + bound) :
    Converges nodes starts (LiveNode.settle nodes bound starts).2
      (LiveNode.settle nodes bound starts).1 := by
  induction bound generalizing starts with
  | zero =>
    have hle := h.weight_le
    omega
  | succ bound ih =>
    rw [LiveNode.settle]
    dsimp only
    split
    next hchanged =>
      obtain ⟨hrises, ⟨hsame, -⟩ | ⟨-, hlt⟩⟩ := h.sweep
      · rw [hsame] at hchanged
        cases hchanged
      · exact .again hchanged (ih hrises (by omega))
    next hunchanged => exact .still (Bool.eq_false_iff.2 hunchanged)

theorem converges_solve (nodes : List LiveNode) :
    Converges nodes (afterSweeps nodes 0) (solve nodes).2 (solve nodes).1 :=
  (rising_replicate nodes).converges (by omega)

/-- What is counted are the sweeps made. -/
theorem Converges.eq_afterSweeps {count : Nat}
    (h : Converges nodes (afterSweeps nodes k) count final) :
    final = afterSweeps nodes (k + count) := by
  generalize hstarts : afterSweeps nodes k = starts at h
  induction h generalizing k with
  | still unchanged => rw [← hstarts, afterSweeps]
  | @again starts final count changed rest ih =>
    rw [ih (k := k + 1) (by rw [afterSweeps, hstarts]), Nat.add_right_comm, Nat.add_assoc]

/-- A sweep that changes something comes before the fixpoint is reached, which
takes no more sweeps than there are nodes. -/
theorem Converges.add_le {count : Nat} (h : Converges nodes (afterSweeps nodes k) count final)
    (hk : k ≤ nodes.length) : k + count ≤ nodes.length + 1 := by
  generalize hstarts : afterSweeps nodes k = starts at h
  induction h generalizing k with
  | still unchanged => omega
  | @again starts final count changed rest ih =>
    have hne : k ≠ nodes.length := by
      rintro rfl
      rw [← hstarts, (settled_afterSweeps nodes).sweep_eq] at changed
      cases changed
    have hle := ih (k := k + 1) (by omega) (by rw [afterSweeps, hstarts])
    omega

end LiveNode

open LiveNode

/-- **The liveness sweeps converge.** For a graph that was built, sweeping from
empty sets until a sweep changes nothing comes to an end, and the liveness of
the graph has the sets and the number of sweeps of that loop. No set shrinks
from one sweep to the next, and there is at most one sweep more than there
are nodes. The last sweep changes nothing, and what it keeps as live at the ends
of the nodes are the sets that the liveness has there. -/
theorem liveness_converges {ctx : Context} (reachable : Reachable ctx) {f : ValueId} {g : FlowGraph}
    (built : (FlowGraph.build ctx f).outcome = .ok g) :
    ∃ nodes l, ctx.liveNodes g = .ok nodes ∧ nodes.length = g.size ∧
      Liveness.compute ctx g = .ok l ∧
      Converges nodes (Array.replicate nodes.length ∅) l.sweeps l.liveIn ∧
      l.liveIn = afterSweeps nodes l.sweeps ∧
      (∀ k j v, v ∈ valuesAt (afterSweeps nodes k) j → v ∈ valuesAt (afterSweeps nodes (k + 1)) j) ∧
      l.sweeps ≤ g.size + 1 ∧
      ∀ ends : Array ValueSet, ends.size = g.size →
        sweepKeeping nodes l.liveIn ends = ((l.liveIn, false), l.liveOut) := by
  have hbuilt := FlowGraph.built_of_build reachable.sound built
  obtain ⟨nodes, hnodes, hsize⟩ : ∃ nodes, ctx.liveNodes g = .ok nodes ∧ nodes.length = g.size :=
    ⟨_, Context.liveNodes_eq (hbuilt.live reachable.sound),
      by rw [List.length_map, List.length_zipIdx, FlowGraph.size]⟩
  have hconverges := converges_solve nodes
  refine ⟨nodes, Liveness.ofNodes nodes, hnodes, hsize, ?_, hconverges, ?_, ?_, ?_,
    fun ends hends => ?_⟩
  · rw [Liveness.compute, hnodes]
    rfl
  · have hfinal := hconverges.eq_afterSweeps
    rwa [Nat.zero_add] at hfinal
  · exact fun k j v hv => (rising_afterSweeps nodes k).grows_sweep j hv
  · have hle := hconverges.add_le (Nat.zero_le _)
    rwa [Nat.zero_add, hsize] at hle
  · exact (settled_solve nodes).sweepKeeping_eq (hends.trans hsize.symm)

/-- Three blocks, one falling through to the next, the last of which returns
the argument. -/
def fallsThrough : Context :=
  Operation.runAll
    [.createFunction true "" none, .createArgument "" (some ⟨0, 0⟩),
      .createBlock "" (some ⟨0, 0⟩) none, .createBlock "" (some ⟨0, 0⟩) none,
      .createBlock "" (some ⟨0, 0⟩) none, .createForm (.ret [⟨0, 1⟩]) (.atEnd ⟨0, 4⟩)] { id := 0 }

/-- The argument goes back by one block in each sweep, so all the sweeps that
three nodes allow are made. -/
theorem liveness_converges_fallsThrough :
    Reachable fallsThrough ∧ ∃ g l, (FlowGraph.build fallsThrough ⟨0, 0⟩).outcome = .ok g ∧
      Liveness.compute fallsThrough g = .ok l ∧ g.size = 3 ∧ l.sweeps = 4 ∧
      l.sweeps ≤ g.size + 1 := by
  have hreachable : Reachable fallsThrough := (Reachable.empty 0).runAll (by decide)
  obtain ⟨g, hg, hsize, hsweeps⟩ : ∃ g, (FlowGraph.build fallsThrough ⟨0, 0⟩).outcome = .ok g ∧
      g.size = 3 ∧ (Liveness.compute fallsThrough g).map Liveness.sweeps = .ok 4 :=
    ⟨_, rfl, by decide +kernel, by decide +kernel⟩
  obtain ⟨nodes, l, -, -, hl, -, -, -, hle, -⟩ := liveness_converges hreachable hg
  rw [hl] at hsweeps
  exact ⟨hreachable, g, l, hg, hl, hsize, Except.ok.inj hsweeps, hle⟩

end ContractIR
