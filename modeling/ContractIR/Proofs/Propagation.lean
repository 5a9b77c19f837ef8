import Mathlib.Algebra.BigOperators.Group.List.Basic
import Mathlib.Algebra.Order.BigOperators.Group.List
import Mathlib.Algebra.Order.Ring.Nat
import Mathlib.Data.List.DropRight
import ContractIR.Proofs.Cursors
/-!
# Copy propagation comes to an end

A read that is replaced takes its value from further up. `lastWrite` says where
a local was written last in the code in front of an instruction: behind a copy
that is the place of the copy for its target, and a place further up for its
source, and so it stays until one of them is written. Replacing the one by the
other lowers the place, and erasing an instruction shortens the block and raises
no place. So `Context.copyReach`, the length of a block and the places of all
its operands together, falls by every read that is replaced and every copy that
is erased, and the sweeps run out of work before their bound.

`Edit.Repeats` is the loop without a bound. A sweep that ends it with nothing
done has found every copy forwarded as far as it can be.
-/

namespace ContractIR

/-! ## Where a local was written last -/

namespace Instruction

variable {x : Instruction} {xs ys pre pre' post : List Instruction} {v t s : ValueId} {k : Nat}

/-- The place of the last instruction that writes a local, counted from one; zero
if none does. -/
def lastWrite (v : ValueId) (xs : List Instruction) : Nat :=
  (xs.rdropWhile fun x => v ∉ x.results).length

theorem lastWrite_concat :
    lastWrite v (xs ++ [x]) = if v ∈ x.results then xs.length + 1 else lastWrite v xs := by
  rw [lastWrite, List.rdropWhile_concat]
  by_cases hv : v ∈ x.results
  · simp [hv]
  · simp [hv, lastWrite]

theorem lastWrite_le : lastWrite v xs ≤ xs.length := (List.rdropWhile_prefix _ xs).length_le

/-- The places of the operands of some code together, with the code in front of
it. -/
def reach : List Instruction → List Instruction → Nat
  | _, [] => 0
  | pre, x :: xs => (x.operands.map fun v => lastWrite v pre).sum + reach (pre ++ [x]) xs

theorem reach_append : reach pre (xs ++ ys) = reach pre xs + reach (pre ++ xs) ys := by
  induction xs generalizing pre with
  | nil => rw [List.nil_append, List.append_nil, reach, Nat.zero_add]
  | cons x xs ih => rw [List.cons_append, reach, ih, reach, List.append_assoc, Nat.add_assoc]; rfl

/-- Places in front that are further up stay so. -/
theorem reach_mono (hplaces : ∀ v, lastWrite v pre ≤ lastWrite v pre')
    (hlength : pre.length ≤ pre'.length) : reach pre xs ≤ reach pre' xs := by
  induction xs generalizing pre pre' with
  | nil => exact Nat.le_refl _
  | cons x xs ih =>
    have hplaces' : ∀ v, lastWrite v (pre ++ [x]) ≤ lastWrite v (pre' ++ [x]) := by
      intro v
      rw [lastWrite_concat, lastWrite_concat]
      split
      · omega
      · exact hplaces v
    have hhere : (x.operands.map fun v => lastWrite v pre).sum ≤
        (x.operands.map fun v => lastWrite v pre').sum :=
      List.sum_le_sum fun v _ => hplaces v
    exact Nat.add_le_add hhere (ih hplaces' (by simpa using hlength))

theorem reach_le : reach pre xs ≤
    (xs.map fun x => x.operands.length).sum * (pre.length + xs.length) := by
  induction xs generalizing pre with
  | nil => exact Nat.zero_le _
  | cons x xs ih =>
    have hhere : (x.operands.map fun v => lastWrite v pre).sum ≤
        x.operands.length * (pre.length + (x :: xs).length) := by
      have hall : ∀ n ∈ x.operands.map fun v => lastWrite v pre,
          n ≤ pre.length + (x :: xs).length := by
        intro n hn
        obtain ⟨v, -, rfl⟩ := List.mem_map.1 hn
        exact lastWrite_le.trans (Nat.le_add_right _ _)
      have hsum := List.sum_le_card_nsmul _ _ hall
      rwa [List.length_map, nsmul_eq_mul, Nat.cast_id] at hsum
    have hrest : reach (pre ++ [x]) xs ≤ _ := ih
    have hlength : (pre ++ [x]).length + xs.length = pre.length + (x :: xs).length := by
      rw [List.length_append, List.length_singleton, List.length_cons]
      omega
    rw [hlength] at hrest
    rw [List.map_cons, List.sum_cons, Nat.add_mul, reach]
    exact Nat.add_le_add hhere hrest

/-- **Reading what was written further up lowers the reach.** -/
theorem reach_setOperand (hk : x.operands[k]? = some t)
    (hlt : lastWrite s pre < lastWrite t pre) :
    reach [] (pre ++ x.setOperand k s :: post) + 1 ≤ reach [] (pre ++ x :: post) := by
  have hhere : ((x.setOperand k s).operands.map fun v => lastWrite v pre).sum + 1 ≤
      (x.operands.map fun v => lastWrite v pre).sum := by
    obtain ⟨hlength, hget⟩ := List.getElem?_eq_some_iff.1 hk
    have hold : ((x.operands.set k t).map fun v => lastWrite v pre).sum =
        (x.operands.map fun v => lastWrite v pre).sum := by
      rw [← hget, List.set_getElem_self]
    rw [← hold, Instruction.setOperand, List.map_set, List.map_set, List.sum_set, List.sum_set,
      List.length_map, if_pos hlength, if_pos hlength]
    omega
  -- What stands behind sees the same results in front of it.
  have hback : reach (pre ++ [x.setOperand k s]) post ≤ reach (pre ++ [x]) post := by
    refine reach_mono (fun v => ?_) (by simp)
    rw [lastWrite_concat, lastWrite_concat]
    exact Nat.le_refl _
  rw [reach_append, reach_append, reach, reach, List.nil_append]
  omega

/-- Without an instruction nothing was written further down. -/
theorem reach_erase : reach [] (pre ++ post) ≤ reach [] (pre ++ x :: post) := by
  have hback : reach pre post ≤ reach (pre ++ [x]) post := by
    refine reach_mono (fun v => ?_) (by simp)
    rw [lastWrite_concat]
    split
    · exact lastWrite_le.trans (Nat.le_succ _)
    · exact Nat.le_refl _
  rw [reach_append, reach_append, reach, List.nil_append]
  omega

/-! ## Code without work for copy propagation -/

/-- **A copy is forwarded**: up to the first instruction that writes one of the
two, none reads the target. -/
def Unread (t s : ValueId) (xs : List Instruction) : Prop :=
  ∀ mid y post, xs = mid ++ y :: post → (∀ z ∈ mid, t ∉ z.results ∧ s ∉ z.results) →
    t ∉ y.operands

theorem unread_nil : Unread t s [] := by
  intro mid y post h
  simp at h

theorem unread_cons (hread : t ∉ x.operands)
    (hrest : t ∉ x.results → s ∉ x.results → Unread t s xs) : Unread t s (x :: xs) := by
  intro mid y post hsplit hkeeps
  cases mid with
  | nil =>
    obtain ⟨rfl, -⟩ := List.cons.inj hsplit
    exact hread
  | cons z mid =>
    obtain ⟨rfl, hxs⟩ := List.cons.inj hsplit
    obtain ⟨⟨ht, hs⟩, hmid⟩ := List.forall_mem_cons.1 hkeeps
    exact hrest ht hs mid y post hxs hmid

/-! ## Reads of a value -/

theorem nodup_positionsOf (x : Instruction) (v : ValueId) : (x.positionsOf v).Nodup := by
  have hsub : List.Sublist (x.positionsOf v) (x.operands.zipIdx.map Prod.snd) :=
    List.filter_sublist.map _
  rw [List.zipIdx_map_snd] at hsub
  exact (List.nodup_range' 1).sublist hsub

theorem not_mem_operands_of_positionsOf (h : x.positionsOf v = []) : v ∉ x.operands := by
  intro hv
  obtain ⟨k, hk⟩ := List.getElem?_of_mem hv
  have hmem : k ∈ x.positionsOf v :=
    List.mem_map.2 ⟨(v, k), List.mem_filter.2 ⟨List.mem_zipIdx_iff_getElem?.2 hk, by simp⟩, rfl⟩
  rw [h] at hmem
  exact absurd hmem List.not_mem_nil

end Instruction

open Instruction

namespace Context

variable {ctx ctx' : Context} {b t s : ValueId} {i : InstId} {is js : List InstId}
variable {x : Instruction} {xs : List Instruction} {k : Nat}

/-! ## How much work there can be -/

/-- **What copy propagation uses up**: the length of a block, and the places of
its operands together. -/
def copyReach (ctx : Context) (b : ValueId) : Nat :=
  (ctx.code b).length + reach [] (ctx.code b)

theorem copyReach_le_copyBound : ctx.copyReach b ≤ ctx.copyBound b := by
  have hle : reach [] (ctx.code b) ≤ _ := reach_le
  rw [List.length_nil, Nat.zero_add] at hle
  exact Nat.add_le_add_left hle _

/-- A read that is replaced uses up one. -/
theorem copyReach_withOperand (h : Threaded ctx) (hbody : ctx.body b = is ++ i :: js)
    (hx : ctx.inst? i = some x) (hk : x.operands[k]? = some t)
    (hlt : lastWrite s (ctx.codeOf is) < lastWrite t (ctx.codeOf is)) :
    (ctx.withOperand i k s).copyReach b + 1 ≤ ctx.copyReach b := by
  obtain ⟨hfront, hback, -⟩ := h.split hbody
  have hrewritten : Rewritten (ctx.withOperand i k s) ctx i := .withOperand hx
  have hnew : (ctx.withOperand i k s).inst? i = some (x.setOperand k s) := by
    rw [inst?_withOperand hx, if_pos rfl]
  have hreach : reach [] (ctx.codeOf is ++ x.setOperand k s :: ctx.codeOf js) + 1 ≤
      reach [] (ctx.codeOf is ++ x :: ctx.codeOf js) := reach_setOperand hk hlt
  rw [copyReach, copyReach, code, code, hrewritten.body, hbody, codeOf_split hnew, codeOf_split hx,
    hrewritten.codeOf_eq hfront, hrewritten.codeOf_eq hback]
  simp only [List.length_append, List.length_cons]
  omega

/-- So does an instruction that is erased. -/
theorem copyReach_without (h : Threaded ctx) (hbody : ctx.body b = is ++ i :: js)
    (hx : ctx.inst? i = some x) (hgone : Without ctx' ctx fun j => decide (j = i)) :
    ctx'.copyReach b + 1 ≤ ctx.copyReach b := by
  have hreach : reach [] (ctx.codeOf is ++ ctx.codeOf js) ≤
      reach [] (ctx.codeOf is ++ x :: ctx.codeOf js) := reach_erase
  have hcode : ctx.code b = ctx.codeOf is ++ x :: ctx.codeOf js := by
    rw [code, hbody, codeOf_split hx]
  rw [copyReach, copyReach, hgone.code_eq, h.filter_eq hbody, if_pos rfl, codeOf_append, hcode]
  simp only [List.length_append, List.length_cons]
  omega

/-! ## Copies -/

/-- An instruction copies one local to another. -/
structure Copies (ctx : Context) (x : Instruction) (t s : ValueId) : Prop where
  opcode : x.opcode = .assign
  results : x.results = [t]
  operands : x.operands = [s]
  isLocal : ctx.isLocal s

theorem Shaped.localCopy?_eq_some (h : ctx.Shaped x) :
    ctx.localCopy? x = some (t, s) ↔ ctx.Copies x t s := by
  refine ⟨fun hcopy => ?_, fun hcopy => ?_⟩
  · obtain ⟨hop, hresults, hoperands, hs⟩ := h.of_localCopy? hcopy
    exact ⟨hop, hresults, hoperands, hs⟩
  · simp only [localCopy?, hcopy.opcode, hcopy.results, hcopy.operands, hcopy.isLocal, if_true]

/-- **Code in which no copy is left to do**: none copies a local to itself, and
each is forwarded. -/
structure Stable (ctx : Context) (xs : List Instruction) : Prop where
  proper : ∀ x ∈ xs, ∀ t, ¬ctx.Copies x t t
  forwarded : ∀ pre x post, xs = pre ++ x :: post → ∀ t s, ctx.Copies x t s → Unread t s post

theorem stable_nil : ctx.Stable [] := by
  refine ⟨fun x hx => absurd hx List.not_mem_nil, fun pre x post h => ?_⟩
  simp at h

theorem Stable.cons (h : ctx.Stable xs)
    (hx : ∀ t s, ctx.Copies x t s → t ≠ s ∧ Unread t s xs) : ctx.Stable (x :: xs) := by
  refine ⟨fun y hy t hcopy => ?_, fun pre y post hsplit t s hcopy => ?_⟩
  · rcases List.mem_cons.1 hy with rfl | hy
    · exact (hx t t hcopy).1 rfl
    · exact h.proper y hy t hcopy
  · cases pre with
    | nil =>
      obtain ⟨rfl, rfl⟩ := List.cons.inj hsplit
      exact (hx t s hcopy).2
    | cons z pre =>
      obtain ⟨rfl, hxs⟩ := List.cons.inj hsplit
      exact h.forwarded pre y post hxs t s hcopy

/-- Behind a copy the target was written further down than the source. -/
theorem Copies.lastWrite_lt (h : ctx.Copies x t s) (hne : t ≠ s) :
    lastWrite s (xs ++ [x]) < lastWrite t (xs ++ [x]) := by
  have hs : s ∉ x.results := by
    rw [h.results, List.mem_singleton]
    exact hne.symm
  have ht : t ∈ x.results := by
    rw [h.results]
    exact List.mem_cons_self
  rw [lastWrite_concat, lastWrite_concat, if_neg hs, if_pos ht]
  exact Nat.lt_succ_of_le lastWrite_le

end Context

open Context

namespace CopyTally

variable {first others : CopyTally}

/-- All that was done. -/
def total (tally : CopyTally) : Nat := tally.replacedReads + tally.selfCopies

theorem isZero_iff {tally : CopyTally} : tally.isZero ↔ tally.total = 0 := by
  rw [isZero, Bool.and_eq_true, beq_iff_eq, beq_iff_eq, total, Nat.add_eq_zero_iff]

theorem total_add : (first + others).total = first.total + others.total :=
  Nat.add_add_add_comm _ _ _ _

theorem isZero_add : (first + others).isZero ↔ first.total = 0 ∧ others.isZero := by
  rw [isZero_iff, total_add, Nat.add_eq_zero_iff, isZero_iff]

end CopyTally

/-- **What a sweep over the rest of a block leaves**: each thing done has used up
one, and if nothing was done, there was nothing to do. -/
structure Context.Swept (b : ValueId) (js : List InstId) (tally : CopyTally) (after ctx : Context) :
    Prop where
  sound : Sound after
  used : after.copyReach b + tally.total ≤ ctx.copyReach b
  stable : tally.isZero → after = ctx ∧ ctx.Stable (ctx.codeOf js)

namespace Context.Swept

variable {ctx mid after : Context} {b t s : ValueId} {i : InstId} {x : Instruction}
variable {js : List InstId} {others : CopyTally}

/-- What is used up adds up. -/
theorem used_add (h : Swept b js others after mid) {first : CopyTally}
    (hused : mid.copyReach b + first.total ≤ ctx.copyReach b) :
    after.copyReach b + (first + others).total ≤ ctx.copyReach b := by
  have hrest := h.used
  rw [CopyTally.total_add]
  omega

/-- An instruction that copies nothing is passed over. -/
theorem skipped (h : Swept b js others after ctx) (hx : ctx.inst? i = some x)
    (hnone : ∀ t s, ¬ctx.Copies x t s) : Swept b (i :: js) others after ctx := by
  refine ⟨h.sound, h.used, fun hzero => ?_⟩
  obtain ⟨hsame, hstable⟩ := h.stable hzero
  refine ⟨hsame, ?_⟩
  rw [codeOf_cons hx]
  exact hstable.cons fun t s hcopy => absurd hcopy (hnone t s)

/-- A copy of a local to itself is erased. -/
theorem erased (h : Swept b js others after mid) (hused : mid.copyReach b + 1 ≤ ctx.copyReach b) :
    Swept b (i :: js) ({ selfCopies := 1 } + others) after ctx := by
  refine ⟨h.sound, h.used_add hused, fun hzero => ?_⟩
  exact absurd (CopyTally.isZero_add.1 hzero).1 Nat.one_ne_zero

/-- Any other copy is forwarded. -/
theorem forwarded (h : Swept b js others after mid) {reads : Nat}
    (hused : mid.copyReach b + reads ≤ ctx.copyReach b)
    (hquiet : reads = 0 → mid = ctx ∧ Unread t s (ctx.codeOf js)) (hx : ctx.inst? i = some x)
    (hcopy : ctx.Copies x t s) (hne : t ≠ s) :
    Swept b (i :: js) ({ replacedReads := reads } + others) after ctx := by
  refine ⟨h.sound, h.used_add hused, fun hzero => ?_⟩
  obtain ⟨hreads, hothers⟩ := CopyTally.isZero_add.1 hzero
  obtain ⟨rfl, hunread⟩ := hquiet hreads
  obtain ⟨hsame, hrest⟩ := h.stable hothers
  refine ⟨hsame, ?_⟩
  rw [codeOf_cons hx]
  refine hrest.cons fun t' s' hcopy' => ?_
  obtain rfl : t = t' := List.cons.inj (hcopy.results.symm.trans hcopy'.results) |>.1
  obtain rfl : s = s' := List.cons.inj (hcopy.operands.symm.trans hcopy'.operands) |>.1
  exact ⟨hne, hunread⟩

end Context.Swept

/-! ## The edits -/

namespace Edit

variable {ctx : Context} {b t s : ValueId} {i : InstId} {x : Instruction} {is js : List InstId}

/-- Each read that is replaced uses up one. -/
theorem uses_replaceOperands (h : Sound ctx) (hbody : ctx.body b = is ++ i :: js)
    (hlt : lastWrite s (ctx.codeOf is) < lastWrite t (ctx.codeOf is)) {ks : List Nat}
    (hnodup : ks.Nodup)
    (hks : ∀ x, ctx.inst? i = some x → ∀ k ∈ ks, x.operands[k]? = some t) :
    (replaceOperands i s ks).Ensures
      (fun _ c => Sound c ∧ Rewritten c ctx i ∧ c.copyReach b + ks.length ≤ ctx.copyReach b ∧
        (ks = [] → c = ctx)) (fun _ _ => True) ctx := by
  induction ks generalizing ctx with
  | nil => exact ⟨h, .refl ctx i, Nat.le_refl _, fun _ => rfl⟩
  | cons k ks ih =>
    obtain ⟨hk, hnodup⟩ := List.nodup_cons.1 hnodup
    rw [replaceOperands, ensures_bind]
    refine ensures_setOperand (fun _ => trivial) fun x howned hx hcheck => ?_
    have hrewritten : Rewritten (ctx.withOperand i k s) ctx i := .withOperand hx
    have hused := copyReach_withOperand h.threaded hbody hx (hks x hx k List.mem_cons_self) hlt
    refine (ih (h.step (.setOperand hx howned hcheck)) (by rw [hrewritten.body, hbody]) ?_ hnodup
      fun x' hx' k' hk' => ?_).imp (fun _ c hc => ?_) fun _ _ => id
    · rw [hrewritten.codeOf_eq (h.threaded.split hbody).1]
      exact hlt
    · -- The operands still to be replaced are others than this one.
      rw [inst?_withOperand hx, if_pos rfl] at hx'
      have hne : k ≠ k' := fun hkk => hk (hkk ▸ hk')
      rw [← Option.some.inj hx', Instruction.setOperand, List.getElem?_set_ne hne]
      exact hks x hx k' (List.mem_cons_of_mem k hk')
    · obtain ⟨hsound, hrewritten', hused', -⟩ := hc
      refine ⟨hsound, hrewritten'.trans hrewritten, ?_, fun hnil => ?_⟩
      · rw [List.length_cons]
        omega
      · exact absurd hnil (List.cons_ne_nil k ks)

/-- **A copy forwarded** uses up one for each read, and if it finds none, there
is none to find. -/
theorem uses_forwardCopy (h : Sound ctx) (hbody : ctx.body b = is ++ js)
    (hlt : lastWrite s (ctx.codeOf is) < lastWrite t (ctx.codeOf is)) :
    (forwardCopy t s js).Ensures
      (fun reads c => Sound c ∧ c.body = ctx.body ∧ c.copyReach b + reads ≤ ctx.copyReach b ∧
        (reads = 0 → c = ctx ∧ Unread t s (ctx.codeOf js))) (fun _ _ => True) ctx := by
  induction js generalizing ctx is with
  | nil => exact ⟨h, rfl, Nat.le_refl _, fun _ => ⟨rfl, unread_nil⟩⟩
  | cons i js ih =>
    rw [forwardCopy]
    refine .look (.check (fun _ => trivial) fun x hx => ?_)
    have hx := readInst_eq_ok.1 hx
    have hreads : ∀ x', ctx.inst? i = some x' → ∀ k ∈ x.positionsOf t,
        x'.operands[k]? = some t := by
      intro x' hx' k hk
      obtain rfl : x = x' := Option.some.inj (hx.symm.trans hx')
      exact Instruction.get_of_mem_positionsOf hk
    rw [ensures_bind]
    refine (uses_replaceOperands h hbody hlt (x.nodup_positionsOf t) hreads).imp
      (fun _ c hc => ?_) fun _ _ => id
    obtain ⟨hsound, hrewritten, hused, hsame⟩ := hc
    split
    · rename_i hwrites
      refine ⟨hsound, hrewritten.body, hused, fun hzero => ?_⟩
      have hnone := List.length_eq_zero_iff.1 hzero
      refine ⟨hsame hnone, ?_⟩
      rw [codeOf_cons hx]
      exact unread_cons (not_mem_operands_of_positionsOf hnone) fun ht hs =>
        absurd hwrites (not_or.2 ⟨ht, hs⟩)
    · rename_i hkeeps
      have hbody' : c.body b = (is ++ [i]) ++ js := by
        rw [hrewritten.body, hbody, List.append_assoc]
        rfl
      have hi : i ∈ c.body b := by
        rw [hbody']
        simp
      obtain ⟨x', hx', -⟩ := hsound.threaded.live hi
      obtain ⟨y, hy, hresults⟩ := hrewritten.results x' hx'
      obtain rfl : x = y := Option.some.inj (hx.symm.trans hy)
      obtain ⟨ht, hs⟩ := not_or.1 hkeeps
      -- Neither of the two is written here, so both places stay.
      have hlt' : lastWrite s (c.codeOf (is ++ [i])) < lastWrite t (c.codeOf (is ++ [i])) := by
        rw [codeOf_append, codeOf_singleton hx', hrewritten.codeOf_eq (h.threaded.split hbody).1,
          lastWrite_concat, lastWrite_concat, hresults, if_neg hs, if_neg ht]
        exact hlt
      simp only [ensures_bind, ensures_pure]
      refine (ih hsound hbody' hlt').imp (fun others c' hc' => ?_) fun _ _ => id
      obtain ⟨hsound', hbodies, hused', hquiet⟩ := hc'
      refine ⟨hsound', hbodies.trans hrewritten.body, by omega, fun hzero => ?_⟩
      obtain ⟨hnone, hothers⟩ := Nat.add_eq_zero_iff.1 hzero
      have hnone := List.length_eq_zero_iff.1 hnone
      obtain rfl := hsame hnone
      obtain ⟨hsame', hunread⟩ := hquiet hothers
      refine ⟨hsame', ?_⟩
      rw [codeOf_cons hx]
      exact unread_cons (not_mem_operands_of_positionsOf hnone) fun _ _ => hunread

/-- **A sweep**, instruction by instruction. -/
theorem swept_sweepCopies (h : Sound ctx) (hbody : ctx.body b = is ++ js) :
    (sweepCopies js).Ensures (fun tally c => Swept b js tally c ctx) (fun _ _ => True) ctx := by
  induction js generalizing ctx is with
  | nil => exact ⟨h, Nat.le_refl _, fun _ => ⟨rfl, stable_nil⟩⟩
  | cons i js ih =>
    have hnext : ctx.body b = (is ++ [i]) ++ js := by
      rw [hbody, List.append_assoc]
      rfl
    rw [sweepCopies]
    refine .look (.check (fun _ => trivial) fun x hx => ?_)
    have hx := readInst_eq_ok.1 hx
    have hcopy : ∀ {t s}, ctx.localCopy? x = some (t, s) ↔ ctx.Copies x t s :=
      (h.shaped.shaped hx).localCopy?_eq_some
    split
    · rename_i hnone
      refine (ih h hnext).imp (fun tally c hc => hc.skipped hx fun t s hts => ?_) fun _ _ => id
      rw [hcopy.2 hts] at hnone
      cases hnone
    · rename_i t s hsome
      have hts := hcopy.1 hsome
      split
      · simp only [ensures_bind, ensures_note, ensures_pure]
        refine ensures_eraseInst (fun _ => trivial) fun y c hy hc => ?_
        have hgone := h.threaded.without_erased hy hc
        have hbody' : ((ctx.unplaced i c).destroyed i).body b = is ++ js := by
          rw [hgone.body, h.threaded.filter_eq hbody, if_pos rfl]
        have hused := copyReach_without h.threaded hbody hx hgone
        exact (ih (h.erased hy hc) hbody').imp (fun _ _ hrest => hrest.erased hused) fun _ _ => id
      · rename_i hne
        have hlt : lastWrite s (ctx.codeOf (is ++ [i])) < lastWrite t (ctx.codeOf (is ++ [i])) := by
          rw [codeOf_append, codeOf_singleton hx]
          exact hts.lastWrite_lt hne
        simp only [ensures_bind, ensures_pure]
        refine (uses_forwardCopy h hnext hlt).imp (fun reads c hc => ?_) fun _ _ => id
        obtain ⟨hsound, hbodies, hused, hquiet⟩ := hc
        rw [ensures_noteForwarded]
        exact (ih hsound (by rw [hbodies, hnext])).imp
          (fun _ _ hrest => hrest.forwarded hused hquiet hx hts hne) fun _ _ => id

/-! ## The loop without a bound -/

/-- One sweep over a block as it is now. -/
def sweepBlock (block : ValueId) : Edit CopyTally := do
  let ctx ← context
  sweepCopies (← ctx.readBody block)

/-- **A sweep is a loop with a cursor**, from the first instruction of the block
on. -/
theorem loops_sweepBlock (h : Threaded ctx) (hb : ctx.kind? b = some .block) :
    Loops sweepTurn (ctx.firstInst? b) ctx ((sweepBlock b).run ctx) := by
  have hrun : (sweepBlock b).run ctx = (sweepCopies (ctx.body b)).run ctx :=
    run_read (readBody_eq_ok.2 ⟨hb, rfl⟩)
  rw [hrun, h.firstInst?_eq]
  exact loops_sweepCopies (.of_body h b)

/-- **Sweeping until a sweep does nothing**: from a context to what the sweeps
together leave. -/
inductive Repeats (block : ValueId) : Context → Step CopyTally → Prop
  /-- A sweep that fails or does nothing is the last. -/
  | stops {ctx : Context}
      (still : ∀ tally, ((sweepBlock block).run ctx).outcome = .ok tally → tally.isZero) :
      Repeats block ctx ((sweepBlock block).run ctx)
  /-- After any other there is another one, and what they did adds up. -/
  | again {ctx : Context} {tally : CopyTally} {last : Step CopyTally}
      (swept : ((sweepBlock block).run ctx).outcome = .ok tally) (changed : tally.isZero = false)
      (rest : Repeats block ((sweepBlock block).run ctx).context last) :
      Repeats block ctx ⟨last.outcome.map (tally + ·), last.context,
        ((sweepBlock block).run ctx).events ++ last.events⟩

theorem uses_sweepBlock (h : Sound ctx) (b : ValueId) :
    (sweepBlock b).Ensures
      (fun tally c => Sound c ∧ c.copyReach b + tally.total ≤ ctx.copyReach b ∧
        (tally.isZero → c.Stable (c.code b))) (fun _ _ => True) ctx := by
  unfold sweepBlock
  refine .look (.check (fun _ => trivial) fun is his => ?_)
  obtain ⟨-, rfl⟩ := readBody_eq_ok.1 his
  have hbody : ctx.body b = [] ++ ctx.body b := rfl
  refine (swept_sweepCopies h hbody).imp
    (fun tally c hswept => ⟨hswept.sound, hswept.used, fun hzero => ?_⟩) fun _ _ => id
  obtain ⟨rfl, hstable⟩ := hswept.stable hzero
  exact hstable

theorem settleCopies_succ (b : ValueId) (bound : Nat) :
    settleCopies b (bound + 1) = sweepBlock b >>= fun tally =>
      if tally.isZero then pure tally else (tally + ·) <$> settleCopies b bound := by
  simp only [settleCopies, sweepBlock, bind_assoc, bind_pure_comp]

/-- **The bounded loop is the unbounded one** if the bound exceeds what the block
has to use up. -/
theorem repeats_settleCopies (h : Sound ctx) {bound : Nat} (hbound : ctx.copyReach b < bound) :
    Repeats b ctx ((settleCopies b bound).run ctx) := by
  induction bound generalizing ctx with
  | zero => exact absurd hbound (Nat.not_lt_zero _)
  | succ bound ih =>
    rw [settleCopies_succ]
    cases hswept : ((sweepBlock b).run ctx).outcome with
    | error fault =>
      rw [run_bind_of_error hswept, ← hswept]
      refine .stops fun tally hok => ?_
      rw [hswept] at hok
      cases hok
    | ok tally =>
      obtain ⟨hsound, hused, -⟩ := (uses_sweepBlock h b).of_ok hswept
      rw [run_bind_of_ok hswept]
      cases hzero : tally.isZero with
      | true =>
        rw [if_pos rfl, run_pure, List.append_nil, ← hswept]
        refine .stops fun tally' hok => ?_
        rw [← Except.ok.inj (hswept.symm.trans hok)]
        exact hzero
      | false =>
        have hsome : tally.total ≠ 0 := by
          rw [Ne, ← CopyTally.isZero_iff, hzero]
          exact Bool.false_ne_true
        rw [if_neg Bool.false_ne_true, run_map]
        exact .again hswept hzero (ih hsound (by omega))

/-- **If the loop ends well, the block is stable.** -/
theorem Repeats.stable {last : Step CopyTally} (hrun : Repeats b ctx last) (h : Sound ctx)
    {tally : CopyTally} (hok : last.outcome = .ok tally) :
    Sound last.context ∧ last.context.Stable (last.context.code b) := by
  induction hrun generalizing tally with
  | stops still =>
    obtain ⟨hsound, -, hstable⟩ := (uses_sweepBlock h b).of_ok hok
    exact ⟨hsound, hstable (still tally hok)⟩
  | @again ctx first last swept changed rest ih =>
    obtain ⟨hsound, -⟩ := (uses_sweepBlock h b).of_ok swept
    cases hlast : last.outcome with
    | error fault =>
      rw [hlast] at hok
      cases hok
    | ok others => exact ih hsound hlast

end Edit

/-- An assignment has one result and one operand. -/
theorem Context.Shaped.of_assign {ctx : Context} {x : Instruction} (h : ctx.Shaped x)
    (hop : x.opcode = .assign) : ∃ t s, x.results = [t] ∧ x.operands = [s] := by
  have hresults := h.results
  have hoperands := h.operands
  rw [hop] at hresults hoperands
  obtain ⟨t, ht⟩ := List.length_eq_one_iff.1 (by simpa [Opcode.shape, Arity.accepts] using hresults)
  obtain ⟨s, hs⟩ :=
    List.length_eq_one_iff.1 (by simpa [Opcode.shape, Arity.accepts] using hoperands)
  exact ⟨t, s, ht, hs⟩

/-- **Copy propagation ends in a stable block.** Sweeping a block until a sweep
does nothing comes to an end, and propagation leaves what that leaves. If it
ends well, the block has no assignment of a value to itself; and behind an
assignment of one local to another no instruction reads the target, as long as
none between them writes the target or the source. -/
theorem propagateCopies_stable {ctx : Context} (reachable : Reachable ctx) (b : ValueId) :
    ∃ last, (Edit.propagateCopies b).run ctx = last ∧ Edit.Repeats b ctx last ∧
      ∀ tally, last.outcome = .ok tally →
        (∀ x ∈ last.context.code b, x.opcode = .assign → x.results ≠ x.operands) ∧
        (∀ pre x mid y post dst src, last.context.code b = pre ++ x :: (mid ++ y :: post) →
          x.opcode = .assign → x.results = [dst] → x.operands = [src] →
          last.context.isLocal src →
          (∀ z ∈ mid, dst ∉ z.results ∧ src ∉ z.results) → dst ∉ y.operands) := by
  have h := reachable.sound
  have hrepeats : Edit.Repeats b ctx ((Edit.propagateCopies b).run ctx) :=
    Edit.repeats_settleCopies h (Nat.lt_succ_of_le copyReach_le_copyBound)
  refine ⟨_, rfl, hrepeats, fun tally hok => ?_⟩
  obtain ⟨hsound, hstable⟩ := hrepeats.stable h hok
  generalize ((Edit.propagateCopies b).run ctx).context = after at hsound hstable
  refine ⟨fun x hmem hop hself => ?_,
    fun pre x mid y post dst src hcode hop hresults hoperands hsrc hkeeps => ?_⟩
  · obtain ⟨i, -, hx⟩ := List.mem_filterMap.1 hmem
    have hshaped := hsound.shaped.shaped hx
    obtain ⟨t, s, hresults, hoperands⟩ := hshaped.of_assign hop
    have hlocal := hshaped.locals t (by rw [hresults]; exact List.mem_cons_self)
    exact hstable.proper x hmem t ⟨hop, hresults, by rw [← hself, hresults], hlocal⟩
  · exact hstable.forwarded pre x _ hcode dst src ⟨hop, hresults, hoperands, hsrc⟩ mid y post rfl
      hkeeps

/-- A function with the argument `a`, the locals `b` and `c` and one block, which
copies `a` to `b`, `b` back to `a` and `b` to `c` and returns `c`. -/
def copiedBack : Context :=
  Operation.runAll
    [.createFunction true "" none, .createArgument "a" (some ⟨0, 0⟩),
      .createLocal "b" (some ⟨0, 0⟩), .createLocal "c" (some ⟨0, 0⟩),
      .createBlock "" (some ⟨0, 0⟩) none, .createForm (.assign ⟨0, 2⟩ ⟨0, 1⟩) (.atEnd ⟨0, 4⟩),
      .createForm (.assign ⟨0, 1⟩ ⟨0, 2⟩) (.atEnd ⟨0, 4⟩),
      .createForm (.assign ⟨0, 3⟩ ⟨0, 2⟩) (.atEnd ⟨0, 4⟩),
      .createForm (.ret [⟨0, 3⟩]) (.atEnd ⟨0, 4⟩)] { id := 0 }

/-- The copy back to `a` stops the first copy in the first sweep, and is erased
there. In the end all that was read is `a`. -/
theorem propagateCopies_stable_copiedBack :
    Reachable copiedBack ∧ ∃ last, (Edit.propagateCopies ⟨0, 4⟩).run copiedBack = last ∧
      Edit.Repeats ⟨0, 4⟩ copiedBack last ∧ last.outcome.toOption = some ⟨4, 1⟩ ∧
      (last.context.code ⟨0, 4⟩).map Instruction.operands = [[⟨0, 1⟩], [⟨0, 1⟩], [⟨0, 1⟩]] ∧
      ∀ x ∈ last.context.code ⟨0, 4⟩, x.opcode = .assign → x.results ≠ x.operands := by
  have hreachable : Reachable copiedBack := (Reachable.empty 0).runAll (by decide)
  have htally : ((Edit.propagateCopies ⟨0, 4⟩).run copiedBack).outcome.toOption = some ⟨4, 1⟩ := by
    decide +kernel
  have hcode : (((Edit.propagateCopies ⟨0, 4⟩).run copiedBack).context.code ⟨0, 4⟩).map
      Instruction.operands = [[⟨0, 1⟩], [⟨0, 1⟩], [⟨0, 1⟩]] := by
    decide +kernel
  obtain ⟨last, hlast, hrepeats, hstable⟩ := propagateCopies_stable hreachable ⟨0, 4⟩
  rw [hlast] at htally hcode
  cases hok : last.outcome with
  | error fault =>
    rw [hok] at htally
    cases htally
  | ok tally =>
    exact ⟨hreachable, last, hlast, hrepeats, hok ▸ htally, hcode, (hstable tally hok).1⟩

end ContractIR
