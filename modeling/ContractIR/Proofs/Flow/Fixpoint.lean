import Mathlib.Algebra.Order.BigOperators.Group.List
import Mathlib.Algebra.Order.Ring.Nat
import Mathlib.Data.List.Nodup
import Mathlib.Data.List.Perm.Subperm
import ContractIR.Flow.Liveness
/-!
# Live sets are a fixpoint

`LiveNode.solve` sweeps over the nodes a bounded number of times. No set ever
shrinks on the way, every set stays among the locals that are read
somewhere, and a sweep that changes something adds a local to a set. So the
bound is not met before a sweep changes nothing, and the sets it then leaves
are what the nodes ask of each other (`settled_solve`). They hold nothing that
the nodes do not ask for from the start, where all sets are empty, so they are
the least such sets (`within_solve`).
-/

namespace ContractIR

/-! ## Sets of values -/

namespace ValueSet

variable {s t : ValueSet} {v : ValueId}

theorem mem_foldl_insert (vs : List ValueId) :
    ∀ s : ValueSet, v ∈ vs.foldl (fun s w => s.insert w) s ↔ v ∈ vs ∨ v ∈ s := by
  induction vs with
  | nil => simp
  | cons w vs ih =>
    intro s
    rw [List.foldl_cons, ih, Std.ExtTreeSet.mem_insert, Std.LawfulEqOrd.compare_eq_iff_eq,
      List.mem_cons, eq_comm (a := w)]
    tauto

theorem mem_foldl_erase (vs : List ValueId) :
    ∀ s : ValueSet, v ∈ vs.foldl (fun s w => s.erase w) s ↔ v ∉ vs ∧ v ∈ s := by
  induction vs with
  | nil => simp
  | cons w vs ih =>
    intro s
    rw [List.foldl_cons, ih, Std.ExtTreeSet.mem_erase, Ne, Std.LawfulEqOrd.compare_eq_iff_eq,
      List.mem_cons, eq_comm (a := w)]
    tauto

theorem nodup_toList (s : ValueSet) : s.toList.Nodup :=
  s.distinct_toList.imp fun h heq => h (Std.LawfulEqOrd.compare_eq_iff_eq.2 heq)

/-- A set of listed values has at most as many elements as the list. -/
theorem size_le_length {vs : List ValueId} (h : ∀ v ∈ s, v ∈ vs) : s.size ≤ vs.length := by
  have hsub : s.toList ⊆ vs := fun v hv => h v (Std.ExtTreeSet.mem_toList.1 hv)
  rw [← Std.ExtTreeSet.length_toList]
  exact (List.subperm_of_subset s.nodup_toList hsub).length_le

/-- A set that grows to another one grows in size. -/
theorem size_lt_of_subset (h : ∀ v ∈ s, v ∈ t) (hne : s ≠ t) : s.size < t.size := by
  have hsub : s.toList.Subperm t.toList :=
    List.subperm_of_subset s.nodup_toList fun v hv =>
      Std.ExtTreeSet.mem_toList.2 (h v (Std.ExtTreeSet.mem_toList.1 hv))
  have hle := hsub.length_le
  rw [Std.ExtTreeSet.length_toList, Std.ExtTreeSet.length_toList] at hle
  refine Nat.lt_of_le_of_ne hle fun heq => hne (Std.ExtTreeSet.ext_mem fun v => ?_)
  have hperm := hsub.perm_of_length_le
    (by rw [Std.ExtTreeSet.length_toList, Std.ExtTreeSet.length_toList]; omega)
  rw [← Std.ExtTreeSet.mem_toList, hperm.mem_iff, Std.ExtTreeSet.mem_toList]

end ValueSet

/-! ## Going backward over instructions -/

namespace Access

variable {a : Access} {as : List Access} {s t : ValueSet} {v : ValueId}

theorem mem_before : v ∈ a.before s ↔ v ∈ a.reads ∨ v ∉ a.writes ∧ v ∈ s := by
  rw [before, ValueSet.mem_foldl_insert, ValueSet.mem_foldl_erase]

theorem before_mono (h : v ∈ s → v ∈ t) (hv : v ∈ a.before s) : v ∈ a.before t := by
  rw [mem_before] at hv ⊢
  exact hv.imp_right fun ⟨hw, hs⟩ => ⟨hw, h hs⟩

/-- Whether a local is live before a run hangs on that local alone. -/
theorem beforeAll_mono (h : v ∈ s → v ∈ t) : v ∈ beforeAll as s → v ∈ beforeAll as t := by
  induction as with
  | nil => exact h
  | cons a as ih => exact before_mono ih

/-- What is live before a run is read in it or live after it. -/
theorem mem_of_beforeAll (hv : v ∈ beforeAll as s) : (∃ a ∈ as, v ∈ a.reads) ∨ v ∈ s := by
  induction as with
  | nil => exact .inr hv
  | cons a as ih =>
    rcases mem_before.1 hv with hread | ⟨-, hrest⟩
    · exact .inl ⟨a, List.mem_cons_self, hread⟩
    · rcases ih hrest with ⟨c, hc, hread⟩ | hs
      · exact .inl ⟨c, List.mem_cons_of_mem a hc, hread⟩
      · exact .inr hs

end Access

namespace LiveNode

variable {n : LiveNode} {nodes : List LiveNode} {starts starts' : Array ValueSet} {k : Nat}
variable {v : ValueId}

/-- The set at a node; empty where there is no node. -/
def valuesAt (sets : Array ValueSet) (k : Nat) : ValueSet := sets[k]?.getD ∅

theorem valuesAt_of_get {s : ValueSet} (h : starts[k]? = some s) : valuesAt starts k = s := by
  rw [valuesAt, h]
  rfl

/-- At the end of a node is live what is live at the start of a successor. -/
theorem mem_liveOut : v ∈ n.liveOut starts ↔ ∃ k ∈ n.successors, v ∈ valuesAt starts k := by
  have hfold : ∀ (ks : List Nat) (s : ValueSet),
      v ∈ ks.foldl (fun s k => s ∪ starts[k]?.getD ∅) s ↔
        v ∈ s ∨ ∃ k ∈ ks, v ∈ valuesAt starts k := by
    intro ks
    induction ks with
    | nil => simp
    | cons k ks ih =>
      intro s
      rw [List.foldl_cons, ih, Std.ExtTreeSet.mem_union_iff, or_assoc, List.exists_mem_cons_iff]
      rfl
  have hempty : v ∉ (∅ : ValueSet) := Std.ExtTreeSet.not_mem_empty
  rw [liveOut, hfold]
  simp only [Std.ExtTreeSet.mem_toList, hempty, false_or]

/-- A node asks for a local that is at more starts no less than before. -/
theorem liveIn_mono (h : ∀ k, v ∈ valuesAt starts k → v ∈ valuesAt starts' k) :
    v ∈ n.liveIn starts → v ∈ n.liveIn starts' := by
  refine Access.beforeAll_mono fun hv => ?_
  obtain ⟨k, hk, hv⟩ := mem_liveOut.1 hv
  exact mem_liveOut.2 ⟨k, hk, h k hv⟩

/-! ## Sweeps -/

/-- Everything that is read somewhere. -/
def allReads (nodes : List LiveNode) : List ValueId :=
  nodes.flatMap fun n => n.accesses.flatMap fun a => a.2.reads

theorem length_allReads (nodes : List LiveNode) : (allReads nodes).length = readCount nodes := by
  simp only [allReads, readCount, List.length_flatMap]
  rfl

/-- **What holds between sweeps**: no set asks for less than it holds, and the
sets hold only what is read somewhere. -/
structure Rising (nodes : List LiveNode) (starts : Array ValueSet) : Prop where
  size : starts.size = nodes.length
  below : ∀ k n, nodes[k]? = some n → ∀ v ∈ valuesAt starts k, v ∈ n.liveIn starts
  read : ∀ k, ∀ v ∈ valuesAt starts k, v ∈ allReads nodes

/-- **A fixpoint**: every set is what its node asks for. -/
def Settled (nodes : List LiveNode) (starts : Array ValueSet) : Prop :=
  ∀ (k : Nat) (n : LiveNode), nodes[k]? = some n → starts[k]? = some (n.liveIn starts)

/-- How many elements the sets have together. -/
def weight (starts : Array ValueSet) : Nat := (starts.toList.map fun s => s.size).sum

theorem Rising.weight_le (h : Rising nodes starts) :
    weight starts ≤ nodes.length * readCount nodes := by
  have hle : ∀ s ∈ starts.toList.map fun s => s.size, s ≤ readCount nodes := by
    intro m hm
    obtain ⟨s, hs, rfl⟩ := List.mem_map.1 hm
    obtain ⟨k, hk⟩ := List.getElem?_of_mem hs
    rw [Array.getElem?_toList] at hk
    rw [← length_allReads]
    exact ValueSet.size_le_length fun v hv => h.read k v (by rwa [valuesAt_of_get hk])
  have hsum := List.sum_le_card_nsmul _ _ hle
  rwa [List.length_map, Array.length_toList, h.size, nsmul_eq_mul, Nat.cast_id] at hsum

/-- A set that grows adds to the weight. -/
theorem weight_lt_set {s live : ValueSet} (hk : starts[k]? = some s) (hgrows : ∀ v ∈ s, v ∈ live)
    (hne : s ≠ live) : weight starts < weight (starts.setIfInBounds k live) := by
  obtain ⟨hlt, rfl⟩ := Array.getElem?_eq_some_iff.1 hk
  have hsplit : starts.toList =
      starts.toList.take k ++ starts[k] :: starts.toList.drop (k + 1) := by
    have hlt' : k < starts.toList.length := by simpa using hlt
    have hcons := List.drop_eq_getElem_cons hlt'
    rw [Array.getElem_toList] at hcons
    rw [← hcons, List.take_append_drop]
  have hset : (starts.setIfInBounds k live).toList =
      starts.toList.take k ++ live :: starts.toList.drop (k + 1) := by
    rw [Array.toList_setIfInBounds, List.set_eq_take_append_cons_drop, if_pos (by simpa using hlt)]
  have hsize := ValueSet.size_lt_of_subset hgrows hne
  rw [weight, weight, hset]
  nth_rewrite 1 [hsplit]
  simp only [List.map_append, List.map_cons, List.sum_append, List.sum_cons]
  omega

theorem valuesAt_setIfInBounds {live : ValueSet} (hk : k < starts.size) (j : Nat) :
    valuesAt (starts.setIfInBounds k live) j = if j = k then live else valuesAt starts j := by
  rw [valuesAt, valuesAt, Array.getElem?_setIfInBounds]
  by_cases hj : j = k
  · rw [if_pos hj.symm, if_pos hk, if_pos hj]
    rfl
  · rw [if_neg (Ne.symm hj), if_neg hj]

/-- What a node asks for is read somewhere. -/
theorem Rising.mem_allReads (h : Rising nodes starts) (hn : n ∈ nodes) (hv : v ∈ n.liveIn starts) :
    v ∈ allReads nodes := by
  rcases Access.mem_of_beforeAll hv with ⟨a, ha, hread⟩ | hout
  · obtain ⟨p, hp, rfl⟩ := List.mem_map.1 ha
    exact List.mem_flatMap.2 ⟨n, hn, List.mem_flatMap.2 ⟨p, hp, hread⟩⟩
  · obtain ⟨k, -, hstart⟩ := mem_liveOut.1 hout
    exact h.read k v hstart

/-- **A look at a node** finds its set as it should be, or makes it larger. -/
theorem Rising.visit {s : Array ValueSet × Bool} (h : Rising nodes s.1) (hk : nodes[k]? = some n) :
    Rising nodes (LiveNode.visit s (n, k)).1 ∧
      ((LiveNode.visit s (n, k) = s ∧ s.1[k]? = some (n.liveIn s.1)) ∨
        ((LiveNode.visit s (n, k)).2 = true ∧
          weight s.1 < weight (LiveNode.visit s (n, k)).1)) := by
  obtain ⟨starts, changed⟩ := s
  unfold LiveNode.visit
  dsimp only at h ⊢
  by_cases heq : starts[k]? = some (n.liveIn starts)
  · rw [if_pos heq]
    exact ⟨h, .inl ⟨rfl, heq⟩⟩
  · rw [if_neg heq]
    have hlt : k < starts.size := by
      rw [h.size]
      exact (List.getElem?_eq_some_iff.1 hk).1
    have hold : starts[k]? = some starts[k] := Array.getElem?_eq_getElem hlt
    have hgrows : ∀ v ∈ starts[k], v ∈ n.liveIn starts := by
      rw [← valuesAt_of_get hold]
      exact h.below k n hk
    -- Other nodes may see the larger set, and then ask for no less than before.
    have hmono : ∀ j v, v ∈ valuesAt starts j →
        v ∈ valuesAt (starts.setIfInBounds k (n.liveIn starts)) j := by
      intro j v hv
      rw [valuesAt_setIfInBounds hlt]
      split
      · subst j
        exact h.below k n hk v hv
      · exact hv
    refine ⟨⟨?_, fun j n' hj v hv => ?_, fun j v hv => ?_⟩, .inr ⟨rfl, ?_⟩⟩
    · rw [Array.size_setIfInBounds]
      exact h.size
    · refine liveIn_mono (fun i => hmono i v) ?_
      rw [valuesAt_setIfInBounds hlt] at hv
      split at hv
      · subst j
        obtain rfl : n = n' := Option.some.inj (hk.symm.trans hj)
        exact hv
      · exact h.below j n' hj v hv
    · rw [valuesAt_setIfInBounds hlt] at hv
      split at hv
      · exact h.mem_allReads (List.mem_of_getElem? hk) hv
      · exact h.read j v hv
    · exact weight_lt_set hold hgrows fun h => heq (hold.trans (congrArg some h))

/-- Looks at some nodes: either all were found as they should be and nothing
has changed, or the sets have grown. -/
theorem Rising.foldl_visit {ks : List (LiveNode × Nat)} (hks : ∀ p ∈ ks, nodes[p.2]? = some p.1) :
    ∀ {s : Array ValueSet × Bool}, Rising nodes s.1 →
      Rising nodes (ks.foldl LiveNode.visit s).1 ∧
        ((ks.foldl LiveNode.visit s = s ∧ ∀ p ∈ ks, s.1[p.2]? = some (p.1.liveIn s.1)) ∨
          ((ks.foldl LiveNode.visit s).2 = true ∧
            weight s.1 < weight (ks.foldl LiveNode.visit s).1)) := by
  induction ks with
  | nil => exact fun h => ⟨h, .inl ⟨rfl, fun p hp => absurd hp List.not_mem_nil⟩⟩
  | cons p ks ih =>
    intro s h
    obtain ⟨n, k⟩ := p
    obtain ⟨hrises, hone⟩ := h.visit (hks (n, k) List.mem_cons_self)
    obtain ⟨hrises', hrest⟩ := ih (fun q hq => hks q (List.mem_cons_of_mem _ hq)) hrises
    refine ⟨hrises', ?_⟩
    rw [List.foldl_cons]
    rcases hone with ⟨hsame, hp⟩ | ⟨hflag, hlt⟩
    · rw [hsame] at hrest ⊢
      refine hrest.imp_left fun ⟨hsame', hks'⟩ => ⟨hsame', fun q hq => ?_⟩
      rcases List.mem_cons.1 hq with rfl | hq
      · exact hp
      · exact hks' q hq
    · -- The set has grown here, and nothing shrinks it again.
      right
      rcases hrest with ⟨hsame', -⟩ | ⟨hflag', hlt'⟩
      · rw [hsame']
        exact ⟨hflag, hlt⟩
      · exact ⟨hflag', hlt.trans hlt'⟩

/-- **A sweep** that changes nothing leaves a fixpoint, and any other adds to
the weight. -/
theorem Rising.sweep (h : Rising nodes starts) :
    Rising nodes (LiveNode.sweep nodes starts).1 ∧
      ((LiveNode.sweep nodes starts = (starts, false) ∧ Settled nodes starts) ∨
        ((LiveNode.sweep nodes starts).2 = true ∧
          weight starts < weight (LiveNode.sweep nodes starts).1)) := by
  have hzip : ∀ p ∈ nodes.zipIdx, nodes[p.2]? = some p.1 := fun p hp =>
    List.mem_zipIdx_iff_getElem?.1 hp
  obtain ⟨hrises, hcases⟩ := Rising.foldl_visit hzip (s := (starts, false)) h
  refine ⟨hrises, hcases.imp_left fun ⟨hsame, hfix⟩ => ⟨hsame, fun k n hk => ?_⟩⟩
  exact hfix (n, k) (List.mem_zipIdx_iff_getElem?.2 hk)

/-- **Enough sweeps reach a fixpoint**: more than the weight can still grow. -/
theorem Rising.settle {bound : Nat} (h : Rising nodes starts)
    (hbound : nodes.length * readCount nodes < weight starts + bound) :
    Rising nodes (LiveNode.settle nodes bound starts).1 ∧
      Settled nodes (LiveNode.settle nodes bound starts).1 := by
  induction bound generalizing starts with
  | zero =>
    -- The weight would have to exceed what all nodes can hold together.
    have hle := h.weight_le
    omega
  | succ bound ih =>
    obtain ⟨hrises, ⟨hsame, hfix⟩ | ⟨hflag, hlt⟩⟩ := h.sweep
    · rw [LiveNode.settle, hsame]
      exact ⟨h, hfix⟩
    · rw [LiveNode.settle]
      dsimp only
      rw [if_pos hflag]
      exact ih hrises (by omega)

theorem rising_replicate (nodes : List LiveNode) :
    Rising nodes (Array.replicate nodes.length ∅) := by
  have hempty : ∀ k, ∀ v, v ∉ valuesAt (Array.replicate nodes.length ∅) k := by
    intro k v
    rw [valuesAt, Array.getElem?_replicate]
    split <;> exact Std.ExtTreeSet.not_mem_empty
  exact ⟨Array.size_replicate, fun k n _ v hv => absurd hv (hempty k v),
    fun k v hv => absurd hv (hempty k v)⟩

theorem rising_solve (nodes : List LiveNode) :
    Rising nodes (solve nodes).1 ∧ Settled nodes (solve nodes).1 :=
  (rising_replicate nodes).settle (by omega)

/-- There is a set for each node. -/
theorem size_solve (nodes : List LiveNode) : (solve nodes).1.size = nodes.length :=
  (rising_solve nodes).1.size

/-- **The sets found are a fixpoint.** -/
theorem settled_solve (nodes : List LiveNode) : Settled nodes (solve nodes).1 :=
  (rising_solve nodes).2

/-! ## The least sets -/

/-- The sets hold only what `P` allows. -/
def Within (P : Nat → ValueId → Prop) (starts : Array ValueSet) : Prop :=
  ∀ k, ∀ v ∈ valuesAt starts k, P k v

/-- Nodes ask only for what `P` allows as long as the sets hold only that. -/
def Respects (nodes : List LiveNode) (P : Nat → ValueId → Prop) : Prop :=
  ∀ k n starts, nodes[k]? = some n → Within P starts → ∀ v ∈ n.liveIn starts, P k v

variable {P : Nat → ValueId → Prop}

theorem Within.visit (hP : Respects nodes P) {s : Array ValueSet × Bool} (h : Within P s.1)
    (hk : nodes[k]? = some n) : Within P (LiveNode.visit s (n, k)).1 := by
  obtain ⟨starts, changed⟩ := s
  unfold LiveNode.visit
  dsimp only at h ⊢
  split
  · exact h
  · intro j v hv
    by_cases hlt : k < starts.size
    · rw [valuesAt_setIfInBounds hlt] at hv
      split at hv
      · subst j
        exact hP k n starts hk h v hv
      · exact h j v hv
    · rw [Array.setIfInBounds_eq_of_size_le (by omega)] at hv
      exact h j v hv

theorem Within.sweep (hP : Respects nodes P) (h : Within P starts) :
    Within P (LiveNode.sweep nodes starts).1 := by
  have hfold : ∀ (ks : List (LiveNode × Nat)) (s : Array ValueSet × Bool),
      (∀ p ∈ ks, nodes[p.2]? = some p.1) → Within P s.1 →
        Within P (ks.foldl LiveNode.visit s).1 := by
    intro ks
    induction ks with
    | nil => exact fun s _ hs => hs
    | cons p ks ih =>
      intro s hks hs
      exact ih _ (fun q hq => hks q (List.mem_cons_of_mem p hq))
        (hs.visit hP (hks p List.mem_cons_self))
  exact hfold _ _ (fun p hp => List.mem_zipIdx_iff_getElem?.1 hp) h

theorem Within.settle (hP : Respects nodes P) (bound : Nat) (h : Within P starts) :
    Within P (LiveNode.settle nodes bound starts).1 := by
  induction bound generalizing starts with
  | zero => exact h
  | succ bound ih =>
    rw [LiveNode.settle]
    dsimp only
    split
    · exact ih (h.sweep hP)
    · exact h.sweep hP

/-- **The sets found are the least**: they hold only what nodes come to ask
for, starting with nothing. -/
theorem within_solve (hP : Respects nodes P) : Within P (solve nodes).1 := by
  refine Within.settle hP _ fun k v hv => ?_
  rw [valuesAt, Array.getElem?_replicate] at hv
  split at hv <;> exact absurd hv Std.ExtTreeSet.not_mem_empty

end LiveNode

end ContractIR
