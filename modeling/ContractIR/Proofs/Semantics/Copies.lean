import ContractIR.Optimize.Copy
import ContractIR.Proofs.Semantics.Code
/-!
# Copy propagation keeps what a block does

Behind a copy, its target and its source hold the same value until one of
them is written. `Interpretation.Equates` says so of the code in front of an
instruction. An operand that is one of the two can then be replaced by the
other, and a copy of a local to itself can be left out; nothing else happens
in copy propagation.
-/

namespace ContractIR

universe u v

namespace Interpretation

variable {D : Type u} {E : Type v} {M : Interpretation D E} {x : Instruction}
variable {xs ys zs : List Instruction} {t s w : ValueId} {σ : ValueId → D} {e : E} {k : Nat}

/-- Code that goes on alike does alike. -/
theorem walk_append_congr
    (h : (M.walk xs σ e).departure = none →
      M.walk ys (M.walk xs σ e).store (M.walk xs σ e).outside =
        M.walk zs (M.walk xs σ e).store (M.walk xs σ e).outside) :
    M.walk (xs ++ ys) σ e = M.walk (xs ++ zs) σ e := by
  by_cases hfalls : (M.walk xs σ e).departure = none
  · rw [walk_append_of_falls hfalls, walk_append_of_falls hfalls, h hfalls]
  · rw [walk_append_of_leaves hfalls, walk_append_of_leaves hfalls]

/-- **Two locals hold the same behind some code.** -/
def Equates (M : Interpretation D E) (xs : List Instruction) (t s : ValueId) : Prop :=
  ∀ σ e, (M.walk xs σ e).departure = none → (M.walk xs σ e).store t = (M.walk xs σ e).store s

/-- Behind a copy, its target and its source hold the same. -/
theorem equates_copy (hop : x.opcode = .assign) (hresults : x.results = [t])
    (hoperands : x.operands = [s]) (hne : t ≠ s) : M.Equates (xs ++ [x]) t s := by
  intro σ e h
  obtain ⟨-, values, e', hreact, hstore⟩ := exists_react_of_falls h
  rw [react_copy hop hresults hoperands] at hreact
  obtain ⟨rfl, -⟩ := Reaction.next.inj hreact
  rw [hstore, hresults, write, write, Function.update_self, Function.update_of_ne hne.symm]

/-- They do until one of them is written. -/
theorem Equates.concat (h : M.Equates xs t s) (ht : t ∉ x.results) (hs : s ∉ x.results) :
    M.Equates (xs ++ [x]) t s := by
  intro σ e hfalls
  obtain ⟨hxs, values, e', -, hstore⟩ := exists_react_of_falls hfalls
  rw [hstore, write_of_not_mem ht, write_of_not_mem hs]
  exact h σ e hxs

/-- **Reading the source is reading the target.** -/
theorem Equates.walk_setOperand (h : M.Equates xs t s)
    (hk : x.operands[k]? = some t ∨ x.operands[k]? = some s)
    (hlast : x.opcode = .br → k + 1 ≠ x.operands.length) (σ : ValueId → D) (e : E) :
    M.walk (xs ++ x.setOperand k s :: ys) σ e = M.walk (xs ++ x :: ys) σ e := by
  refine walk_append_congr fun hfalls => ?_
  have hvalues : (x.setOperand k s).operands.map (M.walk xs σ e).store =
      x.operands.map (M.walk xs σ e).store := by
    have hget : (x.operands.map (M.walk xs σ e).store)[k]? = some ((M.walk xs σ e).store s) := by
      rw [List.getElem?_map]
      rcases hk with hk | hk
      · rw [hk, Option.map_some, h σ e hfalls]
      · rw [hk, Option.map_some]
    obtain ⟨hlt, hget⟩ := List.getElem?_eq_some_iff.1 hget
    rw [Instruction.setOperand, List.map_set, ← hget, List.set_getElem_self]
  have htarget : x.opcode = .br →
      (x.setOperand k s).operands.getLast? = x.operands.getLast? := by
    intro hop
    have hlt : k < x.operands.length :=
      hk.elim (fun h => (List.getElem?_eq_some_iff.1 h).1) fun h =>
        (List.getElem?_eq_some_iff.1 h).1
    -- A branch's target is no local, so it is never the operand replaced.
    have hne : k ≠ x.operands.length - 1 := by
      have := hlast hop
      omega
    rw [Instruction.setOperand, List.getLast?_eq_getElem?, List.getLast?_eq_getElem?,
      List.length_set, List.getElem?_set_ne hne]
  have hreact : ∀ values e, M.react (x.setOperand k s) values e = M.react x values e :=
    react_congr rfl rfl htarget
  rw [walk, walk, hvalues, hreact]
  rfl

/-- **A copy of a local to itself does nothing.** -/
theorem walk_selfCopy (hop : x.opcode = .assign) (hresults : x.results = [t])
    (hoperands : x.operands = [t]) (σ : ValueId → D) (e : E) :
    M.walk (xs ++ x :: ys) σ e = M.walk (xs ++ ys) σ e := by
  refine walk_append_congr fun _ => ?_
  have hquiet : x.isQuiet = true := by
    rw [Instruction.isQuiet, hop, hresults]
    rfl
  rw [walk_cons_of_next (react_copy hop hresults hoperands), notice, if_pos hquiet, hresults, write,
    write, Function.update_eq_self]
  rfl

end Interpretation

/-! ## The edits -/

open Context

variable {D : Type u} {E : Type v} {M : Interpretation D E} {ctx : Context} {b t s : ValueId}
variable {i : InstId} {x : Instruction} {is js : List InstId} {k : Nat}

/-- A local is no target of a branch. -/
theorem Context.Shaped.not_last_of_local (h : ctx.Shaped x) (hop : x.opcode = .br)
    (hk : x.operands[k]? = some t) (ht : ctx.isLocal t) : k + 1 ≠ x.operands.length := by
  intro hlast
  have hkind : ctx.kind? t = some .block := by
    refine h.target hop t ?_
    rw [List.getLast?_eq_getElem?, ← hlast, Nat.add_sub_cancel]
    exact hk
  rw [isLocal, hkind] at ht
  exact absurd ht (by decide)

/-- **A replaced operand** keeps what every block does, if target and source of
a copy hold the same where it stands. -/
theorem Sound.alike_withOperand (h : Sound ctx) (hbody : ctx.body b = is ++ i :: js)
    (heq : M.Equates (ctx.codeOf is) t s) (ht : ctx.isLocal t) (hs : ctx.isLocal s)
    (hx : ctx.inst? i = some x) (hk : x.operands[k]? = some t ∨ x.operands[k]? = some s) :
    M.Alike (ctx.withOperand i k s) ctx := by
  obtain ⟨hfront, hback, honly⟩ := h.threaded.split hbody
  have hrewritten : Rewritten (ctx.withOperand i k s) ctx i := .withOperand hx
  refine ⟨hrewritten.same.members, fun c σ e => ?_⟩
  rw [code, code, hrewritten.body]
  by_cases hc : c = b
  · subst hc
    have hnew : (ctx.withOperand i k s).inst? i = some (x.setOperand k s) := by
      rw [inst?_withOperand hx, if_pos rfl]
    rw [hbody, codeOf_split hnew, codeOf_split hx, hrewritten.codeOf_eq hfront,
      hrewritten.codeOf_eq hback]
    refine heq.walk_setOperand hk (fun hop => ?_) σ e
    rcases hk with hk | hk
    · exact (h.shaped.shaped hx).not_last_of_local hop hk ht
    · exact (h.shaped.shaped hx).not_last_of_local hop hk hs
  · rw [hrewritten.codeOf_eq fun hi => hc (honly c hi)]

/-- **An erased copy of a local to itself** keeps what every block does. -/
theorem Sound.alike_erased (h : Sound ctx) (hbody : ctx.body b = is ++ i :: js)
    (hx : ctx.inst? i = some x) (hop : x.opcode = .assign) (hresults : x.results = [t])
    (hoperands : x.operands = [t]) {ctx' : Context}
    (hgone : Without ctx' ctx fun j => decide (j = i)) : M.Alike ctx' ctx := by
  refine ⟨hgone.same.members, fun c σ e => ?_⟩
  rw [hgone.code_eq, code, h.threaded.filter_eq hbody]
  split
  · rename_i hc
    rw [hc, hbody, codeOf_split hx, codeOf_append]
    exact (Interpretation.walk_selfCopy hop hresults hoperands σ e).symm
  · rfl

theorem Instruction.get_of_mem_positionsOf (h : k ∈ x.positionsOf t) :
    x.operands[k]? = some t := by
  obtain ⟨p, hp, rfl⟩ := List.mem_map.1 h
  obtain ⟨hmem, heq⟩ := List.mem_filter.1 hp
  rw [← of_decide_eq_true heq]
  exact List.mem_zipIdx_iff_getElem?.1 hmem

/-- A copy in shape has one result and one operand. -/
theorem Context.Shaped.of_localCopy? (h : ctx.Shaped x) (hcopy : ctx.localCopy? x = some (t, s)) :
    x.opcode = .assign ∧ x.results = [t] ∧ x.operands = [s] ∧ ctx.isLocal s := by
  unfold localCopy? at hcopy
  split at hcopy
  · rename_i target targets source sources hop hresults hoperands
    split at hcopy
    · rename_i hlocal
      obtain ⟨rfl, rfl⟩ := Prod.mk.inj (Option.some.inj hcopy)
      have hres := h.results
      have hops := h.operands
      rw [hop, hresults] at hres
      rw [hop, hoperands] at hops
      have htargets : targets = [] := by simpa [Opcode.shape, Arity.accepts] using hres
      have hsources : sources = [] := by simpa [Opcode.shape, Arity.accepts] using hops
      exact ⟨hop, by rw [hresults, htargets], by rw [hoperands, hsources], hlocal⟩
    · cases hcopy
  · cases hcopy

namespace Edit

/-- Some operands replaced. -/
theorem ensures_replaceOperands (h : Sound ctx) (hbody : ctx.body b = is ++ i :: js)
    (heq : M.Equates (ctx.codeOf is) t s) (ht : ctx.isLocal t) (hs : ctx.isLocal s)
    {ks : List Nat}
    (hks : ∀ x, ctx.inst? i = some x → ∀ k ∈ ks,
      x.operands[k]? = some t ∨ x.operands[k]? = some s) :
    (replaceOperands i s ks).Ensures (fun _ c => Sound c ∧ Rewritten c ctx i ∧ M.Alike c ctx)
      (fun _ c => Sound c ∧ M.Alike c ctx) ctx := by
  induction ks generalizing ctx with
  | nil => exact ⟨h, .refl ctx i, .refl ctx⟩
  | cons k ks ih =>
    rw [replaceOperands, ensures_bind]
    refine ensures_setOperand (fun _ => ⟨h, .refl ctx⟩) fun x howned hx hcheck => ?_
    have hrewritten : Rewritten (ctx.withOperand i k s) ctx i := .withOperand hx
    have halike := h.alike_withOperand hbody heq ht hs hx (hks x hx k List.mem_cons_self)
    have hrest := ih (h.step (.setOperand hx howned hcheck)) (by rw [hrewritten.body, hbody])
      (by rw [hrewritten.codeOf_eq (h.threaded.split hbody).1]; exact heq)
      (by rw [isLocal, hrewritten.same.kind]; exact ht)
      (by rw [isLocal, hrewritten.same.kind]; exact hs) fun x' hx' k' hk' => ?_
    · refine hrest.imp (fun _ c hc => ?_) fun _ c hc => ⟨hc.1, hc.2.trans halike⟩
      exact ⟨hc.1, hc.2.1.trans hrewritten, hc.2.2.trans halike⟩
    · -- The operand just replaced is the source now; the others are as they were.
      rw [inst?_withOperand hx, if_pos rfl] at hx'
      rw [← Option.some.inj hx', Instruction.setOperand]
      by_cases hkk : k = k'
      · subst hkk
        obtain ⟨hindex, -⟩ := of_checkOperand hcheck
        exact .inr (by rw [List.getElem?_set_self hindex])
      · rw [List.getElem?_set_ne hkk]
        exact hks x hx k' (List.mem_cons_of_mem k hk')

/-- **A copy forwarded** to the instructions behind it. -/
theorem ensures_forwardCopy (h : Sound ctx) (hbody : ctx.body b = is ++ js)
    (heq : M.Equates (ctx.codeOf is) t s) (ht : ctx.isLocal t) (hs : ctx.isLocal s) :
    (forwardCopy t s js).Ensures (fun _ c => Sound c ∧ c.body = ctx.body ∧ M.Alike c ctx)
      (fun _ c => Sound c ∧ M.Alike c ctx) ctx := by
  induction js generalizing ctx is with
  | nil => exact ⟨h, rfl, .refl ctx⟩
  | cons i js ih =>
    rw [forwardCopy]
    refine .look (.check (fun _ => ⟨h, .refl ctx⟩) fun x hx => ?_)
    have hx := readInst_eq_ok.1 hx
    have hreads : ∀ x', ctx.inst? i = some x' → ∀ k ∈ x.positionsOf t,
        x'.operands[k]? = some t ∨ x'.operands[k]? = some s := by
      intro x' hx' k hk
      obtain rfl : x = x' := Option.some.inj (hx.symm.trans hx')
      exact .inl (Instruction.get_of_mem_positionsOf hk)
    rw [ensures_bind]
    refine (ensures_replaceOperands h hbody heq ht hs hreads).imp (fun _ c hc => ?_)
      fun _ _ hc => hc
    obtain ⟨hsound, hrewritten, halike⟩ := hc
    split
    · exact ⟨hsound, hrewritten.body, halike⟩
    · rename_i hkeeps
      -- Neither of the two is written here, so they still hold the same behind.
      have hbody' : c.body b = (is ++ [i]) ++ js := by
        rw [hrewritten.body, hbody, List.append_assoc]
        rfl
      have hi : i ∈ c.body b := by
        rw [hbody']
        simp
      obtain ⟨x', hx', -⟩ := hsound.threaded.live hi
      obtain ⟨y, hy, hresults⟩ := hrewritten.results x' hx'
      obtain rfl : x = y := Option.some.inj (hx.symm.trans hy)
      obtain ⟨htx, hsx⟩ := not_or.1 hkeeps
      have heq' : M.Equates (c.codeOf (is ++ [i])) t s := by
        rw [codeOf_append, codeOf_singleton hx', hrewritten.codeOf_eq (h.threaded.split hbody).1]
        exact heq.concat (by rw [hresults]; exact htx) (by rw [hresults]; exact hsx)
      simp only [ensures_bind, ensures_pure]
      refine (ih hsound hbody' heq' (by rw [isLocal, hrewritten.same.kind]; exact ht)
        (by rw [isLocal, hrewritten.same.kind]; exact hs)).imp (fun _ c' hc' => ?_)
          fun _ c' hc' => ⟨hc'.1, hc'.2.trans halike⟩
      exact ⟨hc'.1, hc'.2.1.trans hrewritten.body, hc'.2.2.trans halike⟩

@[simp] theorem ensures_noteForwarded {Q : Unit → Context → Prop} {F : Fault → Context → Prop}
    (reads : Nat) : (noteForwarded t s reads).Ensures Q F ctx ↔ Q () ctx := by
  unfold noteForwarded
  simp only [ensures_bind, ensures_context]
  split
  · exact ensures_pure ()
  · exact ensures_note _

/-- **An edit that keeps what every block does**, whether it fails or not. -/
def KeepsBlocks {α : Type} (M : Interpretation D E) (e : Edit α) (ctx : Context) : Prop :=
  e.Ensures (fun _ c => Sound c ∧ M.Alike c ctx) (fun _ c => Sound c ∧ M.Alike c ctx) ctx

/-- What keeps them in a context that runs like an earlier one keeps them since
the earlier one. -/
theorem KeepsBlocks.since {α : Type} {e : Edit α} {c : Context} (h : e.KeepsBlocks M c)
    (halike : M.Alike c ctx) :
    e.Ensures (fun _ c' => Sound c' ∧ M.Alike c' ctx) (fun _ c' => Sound c' ∧ M.Alike c' ctx) c :=
  h.imp (fun _ _ hc => ⟨hc.1, hc.2.trans halike⟩) fun _ _ hc => ⟨hc.1, hc.2.trans halike⟩

/-- **A sweep** over the rest of a block. -/
theorem keepsBlocks_sweepCopies (h : Sound ctx) (hbody : ctx.body b = is ++ js) :
    (sweepCopies js).KeepsBlocks M ctx := by
  induction js generalizing ctx is with
  | nil => exact ⟨h, .refl ctx⟩
  | cons i js ih =>
    have hnext : ctx.body b = (is ++ [i]) ++ js := by
      rw [hbody, List.append_assoc]
      rfl
    rw [sweepCopies]
    refine .look (.check (fun _ => ⟨h, .refl ctx⟩) fun x hx => ?_)
    have hx := readInst_eq_ok.1 hx
    split
    · exact ih h hnext
    · rename_i t s hcopy
      obtain ⟨hop, hresults, hoperands, hs⟩ := (h.shaped.shaped hx).of_localCopy? hcopy
      split
      · rename_i hself
        subst hself
        simp only [ensures_bind, ensures_note]
        refine ensures_eraseInst (fun _ => ⟨h, .refl ctx⟩) fun y c hy hc => ?_
        have hgone := h.threaded.without_erased hy hc
        have halike : M.Alike ((ctx.unplaced i c).destroyed i) ctx :=
          h.alike_erased hbody hx hop hresults hoperands hgone
        have hbody' : ((ctx.unplaced i c).destroyed i).body b = is ++ js := by
          rw [hgone.body, h.threaded.filter_eq hbody, if_pos rfl]
        simp only [ensures_pure]
        exact (ih (h.erased hy hc) hbody').since halike
      · rename_i hne
        have heq : M.Equates (ctx.codeOf (is ++ [i])) t s := by
          rw [codeOf_append, codeOf_singleton hx]
          exact Interpretation.equates_copy hop hresults hoperands hne
        have ht : ctx.isLocal t :=
          (h.shaped.shaped hx).locals t (by rw [hresults]; exact List.mem_cons_self)
        simp only [ensures_bind, ensures_pure]
        refine (ensures_forwardCopy h hnext heq ht hs).imp (fun reads c hc => ?_) fun _ _ hc => hc
        obtain ⟨hsound, hsame, halike⟩ := hc
        rw [ensures_noteForwarded]
        exact (ih hsound (by rw [hsame, hnext])).since halike

theorem keepsBlocks_settleCopies (h : Sound ctx) (b : ValueId) (bound : Nat) :
    (settleCopies b bound).KeepsBlocks M ctx := by
  induction bound generalizing ctx with
  | zero => exact ⟨h, .refl ctx⟩
  | succ bound ih =>
    rw [settleCopies]
    refine .look (.check (fun _ => ⟨h, .refl ctx⟩) fun is his => ?_)
    have hbody : ctx.body b = [] ++ is := (readBody_eq_ok.1 his).2
    rw [ensures_bind]
    refine (keepsBlocks_sweepCopies (M := M) h hbody).imp (fun _ c hc => ?_) fun _ _ hc => hc
    split
    · exact hc
    · simp only [ensures_bind, ensures_pure]
      exact (ih hc.1).since hc.2

theorem keepsBlocks_propagateCopies (h : Sound ctx) (b : ValueId) :
    (propagateCopies b).KeepsBlocks M ctx :=
  .look (keepsBlocks_settleCopies h b _)

/-- **Copy propagation keeps what every block does.** -/
theorem keepsBlocks_propagateAllCopies (h : Sound ctx) (blocks : List ValueId) :
    (propagateAllCopies blocks).KeepsBlocks M ctx := by
  induction blocks generalizing ctx with
  | nil => exact ⟨h, .refl ctx⟩
  | cons b blocks ih =>
    rw [propagateAllCopies]
    unfold KeepsBlocks
    simp only [ensures_bind, ensures_pure]
    refine (keepsBlocks_propagateCopies (M := M) h b).imp (fun _ c hc => ?_) fun _ _ hc => hc
    exact (ih hc.1).since hc.2

end Edit

/-- **Copy propagation preserves the meaning of blocks.** Whatever the opcodes
other than the assignment mean, every block of a reachable context does the
same before and after the copies of a block are propagated, from every store
and in every state of the outside: control leaves it at the same jump, return
or revert or falls out of its end, and leaves the same store and the same
state. So it is whether the propagation succeeds or fails part-way. -/
theorem propagateCopies_keeps_walk {ctx : Context} (reachable : Reachable ctx) (b c : ValueId)
    {D : Type u} {E : Type v} (M : Interpretation D E) (σ : ValueId → D) (e : E) :
    M.walk (((Edit.propagateCopies b).run ctx).context.code c) σ e = M.walk (ctx.code c) σ e :=
  (Edit.keepsBlocks_propagateCopies reachable.sound b).context_of.2.walk c σ e

/-- A function with locals `x`, `y`, `u` and `v` and one block, which copies
`x` to `y` and `u` to `v` and adds `v` to `y`. The local `u` was taken away from
the function afterwards. -/
def strandedCopy : Context :=
  Operation.runAll
    [.createFunction true "" none, .createLocal "" (some ⟨0, 0⟩), .createLocal "" (some ⟨0, 0⟩),
      .createLocal "" (some ⟨0, 0⟩), .createLocal "" (some ⟨0, 0⟩),
      .createBlock "" (some ⟨0, 0⟩) none, .createForm (.assign ⟨0, 2⟩ ⟨0, 1⟩) (.atEnd ⟨0, 5⟩),
      .createForm (.assign ⟨0, 4⟩ ⟨0, 3⟩) (.atEnd ⟨0, 5⟩),
      .createForm (.binary .add ⟨0, 2⟩ ⟨0, 2⟩ ⟨0, 4⟩) (.atEnd ⟨0, 5⟩), .detach ⟨0, 3⟩] { id := 0 }

/-- There the copy of `x` is forwarded, that of `u` is refused, and the block
still leaves the sum in `y`. -/
theorem propagateCopies_keeps_walk_strandedCopy :
    Reachable strandedCopy ∧
      ((Edit.propagateCopies ⟨0, 5⟩).run strandedCopy).outcome.toOption = none ∧
      (((Edit.propagateCopies ⟨0, 5⟩).run strandedCopy).context.inst? ⟨0, 2⟩).map
        Instruction.operands = some [⟨0, 1⟩, ⟨0, 4⟩] ∧
      (adder.walk (((Edit.propagateCopies ⟨0, 5⟩).run strandedCopy).context.code ⟨0, 5⟩)
        ValueId.index ()).store ⟨0, 2⟩ = 4 := by
  have hreachable : Reachable strandedCopy := (Reachable.empty 0).runAll (by decide)
  refine ⟨hreachable, by decide +kernel, by decide +kernel, ?_⟩
  rw [propagateCopies_keeps_walk hreachable]
  decide +kernel

end ContractIR
