import ContractIR.Proofs.Shapes
/-!
# Forms and the table of counts

How many results and operands an instruction has is written down twice: in the
table `Opcode.shape`, which creation from parts goes by, and in the layouts of
the forms. The two agree but for logs: the forms bound the topics, the table
does not (`Opcode.hasForm_iff`). So a log with too many topics is one that was
created from its parts. To say so, the instructions of a context are traced
back to the operations that made them: no other change to an instruction
touches its opcode or how many results and operands it has
(`Operation.exists_made_runAll`).
-/

namespace ContractIR

/-! ## Layouts -/

/-- **Whether there is a form with these counts**: one that passes its own
checks and is laid out with the opcode, `r` results and `o` operands. -/
def Opcode.HasForm (op : Opcode) (r o : Nat) : Prop :=
  ∃ (form : Form) (p : Parts), form.parts = .ok p ∧ p.opcode = op ∧ p.results.length = r ∧
    p.operands.length = o

/-- The counts that the forms of a family have. -/
def Family.shape : Family → Shape
  | unary => ⟨.exactly 1, .exactly 1⟩
  | binary => ⟨.exactly 1, .exactly 2⟩
  | ternary => ⟨.exactly 1, .exactly 3⟩
  | intrinsic => ⟨.atMost 1, .atLeast 0⟩

namespace Family

variable {family : Family} {op : Opcode}

/-- The table has the counts of the family for each of its opcodes. -/
theorem shape_eq (h : family.contains op) : op.shape = family.shape := by
  cases family <;> cases op <;> first | rfl | cases h

theorem ne_log (h : family.contains op) : op ≠ .log := by
  rintro rfl
  cases family <;> cases h

end Family

namespace Form

variable {p : Parts} {form : Form}

/-- **Every form that passes its own checks has the counts of the table**, and
a log has no more topics than it may have. -/
theorem accepts_of_parts (h : form.parts = .ok p) :
    p.opcode.shape.accepts p.results.length p.operands.length ∧
      (p.opcode = .log → p.operands.length ≤ maxLogTopics + 1) := by
  cases form with
  | unary op | binary op | ternary op =>
    obtain ⟨hop, rfl⟩ := ofFamily_eq_ok.1 h
    refine ⟨?_, fun hlog => absurd hlog (Family.ne_log hop)⟩
    rw [Family.shape_eq hop]
    rfl
  | intrinsic op result args =>
    obtain ⟨hop, rfl⟩ := ofFamily_eq_ok.1 h
    refine ⟨?_, fun hlog => absurd hlog (Family.ne_log hop)⟩
    rw [Family.shape_eq hop]
    cases result <;> simp [Shape.accepts, Family.shape, Arity.accepts]
  | log data topics =>
    simp only [parts] at h
    split at h
    · cases h
    · rename_i htopics
      obtain rfl := Except.ok.inj h
      refine ⟨by simp [Shape.accepts, Opcode.shape, Arity.accepts], fun _ => ?_⟩
      rw [List.length_cons]
      omega
  | accountCall isStatic status results callee address transfer gas args =>
    cases isStatic <;> cases transfer <;> cases h <;>
      simp [Shape.accepts, Opcode.shape, Arity.accepts]
  | create status account source transfer args =>
    cases source <;> cases h <;> simp [Shape.accepts, Opcode.shape, Arity.accepts]
  | _ =>
    cases h
    simp [Shape.accepts, Opcode.shape, Arity.accepts]

end Form

namespace Opcode

variable {op : Opcode} {r o : Nat}

/-- Some handle: which ones a form has does not matter for its counts. -/
def anyHandle : ValueId := ⟨0, 0⟩

/-- As many handles as asked for. -/
def anyHandles (n : Nat) : List ValueId := List.replicate n anyHandle

@[simp] theorem length_anyHandles (n : Nat) : (anyHandles n).length = n := List.length_replicate

theorem hasForm_of_family (family : Family) (hop : family.contains op)
    (h : op.shape.accepts r o) : op.HasForm r o := by
  have hparts : ∀ p, Form.ofFamily family op p = .ok p := fun p =>
    Form.ofFamily_eq_ok.2 ⟨hop, rfl⟩
  rw [Family.shape_eq hop, Shape.accepts, Bool.and_eq_true] at h
  cases family with
  | unary =>
    obtain ⟨rfl, rfl⟩ : r = 1 ∧ o = 1 := by simpa [Family.shape, Arity.accepts] using h
    exact ⟨.unary op anyHandle anyHandle, _, hparts _, rfl, rfl, rfl⟩
  | binary =>
    obtain ⟨rfl, rfl⟩ : r = 1 ∧ o = 2 := by simpa [Family.shape, Arity.accepts] using h
    exact ⟨.binary op anyHandle anyHandle anyHandle, _, hparts _, rfl, rfl, rfl⟩
  | ternary =>
    obtain ⟨rfl, rfl⟩ : r = 1 ∧ o = 3 := by simpa [Family.shape, Arity.accepts] using h
    exact ⟨.ternary op anyHandle anyHandle anyHandle anyHandle, _, hparts _, rfl, rfl, rfl⟩
  | intrinsic =>
    have hr : r = 0 ∨ r = 1 := Nat.le_one_iff_eq_zero_or_eq_one.1 (by
      simpa [Family.shape, Arity.accepts] using h)
    rcases hr with rfl | rfl
    · exact ⟨.intrinsic op none (anyHandles o), _, hparts _, rfl, rfl, length_anyHandles o⟩
    · exact ⟨.intrinsic op (some anyHandle) (anyHandles o), _, hparts _, rfl, rfl,
        length_anyHandles o⟩

/-- **Counts of the table are counts of a form**, unless it is a log with too
many topics. -/
theorem hasForm_of_accepts (h : op.shape.accepts r o) (hlog : op = .log → o ≤ maxLogTopics + 1) :
    op.HasForm r o := by
  have hcounts : op.shape.results.accepts r ∧ op.shape.operands.accepts o := by
    simpa [Shape.accepts] using h
  cases op with
  | isZero | not | log2 | sha3 => exact hasForm_of_family .unary rfl h
  | add | sub | mul | div | mod | exp | sext | twos | bswap | byte | shift | and | or | xor
  | cmpEq | cmpNe | cmpLt | cmpLe | cmpGt | cmpGe =>
    exact hasForm_of_family .binary rfl h
  | addMod | mulMod | expMod => exact hasForm_of_family .ternary rfl h
  | gas | gasPrice | gasLimit | beneficiary | timestamp | number | difficulty | address | origin
  | caller | callValue | msize | codeSize | blockHash | balance | extCodeSize =>
    exact hasForm_of_family .intrinsic rfl h
  | ret =>
    obtain rfl : r = 0 := by simpa [shape, Arity.accepts] using hcounts
    exact ⟨.ret (anyHandles o), _, rfl, rfl, rfl, length_anyHandles o⟩
  | revert =>
    obtain ⟨rfl, rfl⟩ : r = 0 ∧ o = 1 := by simpa [shape, Arity.accepts] using hcounts
    exact ⟨.revert anyHandle, _, rfl, rfl, rfl, rfl⟩
  | selfdestruct =>
    obtain ⟨rfl, rfl⟩ : r = 0 ∧ o = 1 := by simpa [shape, Arity.accepts] using hcounts
    exact ⟨.selfdestruct anyHandle, _, rfl, rfl, rfl, rfl⟩
  | br =>
    obtain ⟨rfl, rfl | rfl⟩ : r = 0 ∧ (o = 1 ∨ o = 2) := by
      simpa [shape, Arity.accepts] using hcounts
    · exact ⟨.jump anyHandle, _, rfl, rfl, rfl, rfl⟩
    · exact ⟨.branch anyHandle anyHandle, _, rfl, rfl, rfl, rfl⟩
  | assign =>
    obtain ⟨rfl, rfl⟩ : r = 1 ∧ o = 1 := by simpa [shape, Arity.accepts] using hcounts
    exact ⟨.assign anyHandle anyHandle, _, rfl, rfl, rfl, rfl⟩
  | sload =>
    obtain ⟨rfl, rfl⟩ : r = 1 ∧ o = 1 := by simpa [shape, Arity.accepts] using hcounts
    exact ⟨.sload anyHandle anyHandle, _, rfl, rfl, rfl, rfl⟩
  | load =>
    obtain ⟨rfl, rfl | rfl⟩ : r = 1 ∧ (o = 1 ∨ o = 3) := by
      simpa [shape, Arity.accepts] using hcounts
    · exact ⟨.load anyHandle anyHandle, _, rfl, rfl, rfl, rfl⟩
    · exact ⟨.loadSlice anyHandle anyHandle anyHandle anyHandle, _, rfl, rfl, rfl, rfl⟩
  | store =>
    obtain ⟨rfl, rfl | rfl⟩ : r = 0 ∧ (o = 2 ∨ o = 4) := by
      simpa [shape, Arity.accepts] using hcounts
    · exact ⟨.store anyHandle anyHandle, _, rfl, rfl, rfl, rfl⟩
    · exact ⟨.storeSlice anyHandle anyHandle anyHandle anyHandle, _, rfl, rfl, rfl, rfl⟩
  | sstore =>
    obtain ⟨rfl, rfl⟩ : r = 0 ∧ o = 2 := by simpa [shape, Arity.accepts] using hcounts
    exact ⟨.sstore anyHandle anyHandle, _, rfl, rfl, rfl, rfl⟩
  | log =>
    obtain ⟨rfl, ho⟩ : r = 0 ∧ 1 ≤ o := by simpa [shape, Arity.accepts] using hcounts
    obtain ⟨n, rfl⟩ := Nat.exists_eq_add_of_le' ho
    have hn : ¬maxLogTopics < (anyHandles n).length := by
      rw [length_anyHandles]
      have := hlog rfl
      omega
    exact ⟨.log anyHandle (anyHandles n), _, if_neg hn, rfl, rfl, by simp⟩
  | call =>
    have ho : 1 ≤ o := by simpa [shape, Arity.accepts] using hcounts
    obtain ⟨n, rfl⟩ := Nat.exists_eq_add_of_le' ho
    exact ⟨.call (anyHandles r) anyHandle (anyHandles n), _, rfl, rfl, by simp, by simp⟩
  | callAt =>
    obtain ⟨hr, ho⟩ : 1 ≤ r ∧ 4 ≤ o := by simpa [shape, Arity.accepts] using hcounts
    obtain ⟨m, rfl⟩ := Nat.exists_eq_add_of_le' hr
    obtain ⟨n, rfl⟩ := Nat.exists_eq_add_of_le' ho
    exact ⟨.accountCall false anyHandle (anyHandles m) anyHandle anyHandle (some anyHandle)
      anyHandle (anyHandles n), _, rfl, rfl, by simp, by simp⟩
  | staticCallAt =>
    obtain ⟨hr, ho⟩ : 1 ≤ r ∧ 3 ≤ o := by simpa [shape, Arity.accepts] using hcounts
    obtain ⟨m, rfl⟩ := Nat.exists_eq_add_of_le' hr
    obtain ⟨n, rfl⟩ := Nat.exists_eq_add_of_le' ho
    exact ⟨.accountCall true anyHandle (anyHandles m) anyHandle anyHandle none anyHandle
      (anyHandles n), _, rfl, rfl, by simp, by simp⟩
  | callAddress =>
    obtain ⟨rfl, rfl⟩ : r = 1 ∧ o = 2 := by simpa [shape, Arity.accepts] using hcounts
    exact ⟨.callAddress anyHandle anyHandle anyHandle, _, rfl, rfl, rfl, rfl⟩
  | create =>
    obtain ⟨rfl, ho⟩ : r = 2 ∧ 2 ≤ o := by simpa [shape, Arity.accepts] using hcounts
    obtain ⟨n, rfl⟩ := Nat.exists_eq_add_of_le' ho
    exact ⟨.create anyHandle anyHandle (.contract anyHandle) anyHandle (anyHandles n), _, rfl, rfl,
      rfl, by simp⟩
  | copyCreate =>
    obtain ⟨rfl, ho⟩ : r = 2 ∧ 2 ≤ o := by simpa [shape, Arity.accepts] using hcounts
    obtain ⟨n, rfl⟩ := Nat.exists_eq_add_of_le' ho
    exact ⟨.create anyHandle anyHandle (.copy anyHandle) anyHandle (anyHandles n), _, rfl, rfl,
      rfl, by simp⟩

/-- **The forms and the table agree but for logs**, whose topics only the forms
bound. -/
theorem hasForm_iff :
    op.HasForm r o ↔ op.shape.accepts r o ∧ (op = .log → o ≤ maxLogTopics + 1) := by
  constructor
  · rintro ⟨form, p, hparts, rfl, rfl, rfl⟩
    exact Form.accepts_of_parts hparts
  · rintro ⟨h, hlog⟩
    exact hasForm_of_accepts h hlog

end Opcode

namespace Context

variable {ctx : Context}

theorem checkShape_eq_ok {op : Opcode} {results operands : List ValueId}
    (counts : op.shape.accepts results.length operands.length)
    (target : op = .br → ∀ v, operands.getLast? = some v → ctx.kind? v = some .block) :
    ctx.checkShape op results operands = .ok () := by
  obtain ⟨hresults, hoperands⟩ := Bool.and_eq_true_iff.1 counts
  have htarget : ¬(op = .br ∧ operands.getLast?.any fun v => ctx.kind? v ≠ some .block) := by
    rintro ⟨hop, hany⟩
    obtain ⟨v, hv, hkind⟩ := (Option.any_eq_true _ _).1 hany
    exact of_decide_eq_true hkind (target hop v hv)
  rw [checkShape, hresults, hoperands, if_neg (by decide), if_neg (by decide), if_neg htarget]
  rfl

/-- **The check of counts passes every form** that passes its own checks, if
its handles are of the context and fit for their roles. -/
theorem checkShape_of_parts {form : Form} {p : Parts} (h : form.parts = .ok p)
    (fit : ∀ u ∈ form.uses, ctx.fits u.1 u.2) (owned : ∀ u ∈ form.uses, ctx.ownsValue u.2) :
    ctx.checkShape p.opcode p.results p.operands = .ok () := by
  refine checkShape_eq_ok (Form.accepts_of_parts h).1 fun hop v hv => ?_
  have hblock : (Role.block, v) ∈ form.uses → ctx.kind? v = some .block := by
    intro hu
    obtain ⟨k, hk⟩ := exists_kind?_of_ownsValue (owned _ hu)
    have hfits := fit _ hu
    rw [fits, hk, Option.all_some] at hfits
    rw [hk, eq_of_beq hfits]
  -- Only two forms are laid out as branches, and both have their target last.
  cases form with
  | jump | branch =>
    obtain rfl := Except.ok.inj h
    obtain rfl := Option.some.inj hv
    exact hblock (by simp [Form.uses])
  | unary | binary | ternary | intrinsic =>
    obtain ⟨hfamily, rfl⟩ := Form.ofFamily_eq_ok.1 h
    obtain rfl := hop
    cases hfamily
  | log data topics =>
    simp only [Form.parts] at h
    split at h <;> cases h
    cases hop
  | accountCall isStatic status results callee address transfer gas args =>
    cases isStatic <;> cases transfer <;> cases h <;> cases hop
  | create status account source transfer args => cases source <;> cases h <;> cases hop
  | _ => cases h; cases hop

end Context

/-! ## Where instructions come from -/

/-- The opcode of an instruction with how many results and operands it has. -/
def Instruction.counts (x : Instruction) : Opcode × Nat × Nat :=
  (x.opcode, x.results.length, x.operands.length)

/-- The same of a layout. -/
def Parts.counts (p : Parts) : Opcode × Nat × Nat :=
  (p.opcode, p.results.length, p.operands.length)

namespace Context

/-- The instructions of one context, as far as their counts go, are among those
of another. -/
def CountsFrom (ctx' ctx : Context) : Prop :=
  ∀ i x', ctx'.inst? i = some x' → ∃ x, ctx.inst? i = some x ∧ x'.counts = x.counts

variable {ctx ctx' ctx'' : Context}

namespace CountsFrom

theorem refl (ctx : Context) : CountsFrom ctx ctx := fun _ x hx => ⟨x, hx, rfl⟩

theorem of_inst? (h : ctx'.inst? = ctx.inst?) : CountsFrom ctx' ctx := fun _ x hx =>
  ⟨x, h ▸ hx, rfl⟩

/-- One instruction may be replaced by one with the same counts, or go. -/
theorem of_one {i : InstId} {x : Instruction} {y : Option Instruction} (hx : ctx.inst? i = some x)
    (h : ∀ j, ctx'.inst? j = if j = i then y else ctx.inst? j)
    (hy : ∀ x', y = some x' → x'.counts = x.counts) : CountsFrom ctx' ctx := by
  intro j x' hx'
  rw [h] at hx'
  split at hx'
  · rename_i hj
    exact ⟨x, hj ▸ hx, hy x' hx'⟩
  · exact ⟨x', hx', rfl⟩

end CountsFrom

end Context

open Context

/-- **What a change does to the counts of instructions**: nothing, unless it
takes the number of a new one. -/
theorem Change.countsFrom {ctx ctx' : Context} {taken : List ValueId}
    (hc : Change ctx taken ctx') :
    (ctx'.nextInst = ctx.nextInst ∧ CountsFrom ctx' ctx) ∨ ∃ x, ctx' = ctx.pushInst x := by
  cases hc with
  | intern n hex =>
    refine .inl ⟨nextInst_intern, .of_inst? ?_⟩
    unfold Context.intern
    split <;> rfl
  | push | enlist => exact .inl ⟨rfl, .refl ctx⟩
  | rename => exact .inl ⟨Untouched.nextInst.renamed, .of_inst? OffValues.inst?.renamed⟩
  | attach => exact .inl ⟨Untouched.nextInst.attached, .of_inst? OffValues.inst?.attached⟩
  | detach => exact .inl ⟨Untouched.nextInst.detached, .of_inst? OffValues.inst?.detached⟩
  | transfer => exact .inl ⟨Untouched.nextInst.transferred, .of_inst? OffValues.inst?.transferred⟩
  | annotate =>
    exact .inl ⟨Untouched.nextInst.update, .of_inst? (funext fun _ => inst?_update)⟩
  | waste => exact .inr ⟨none, rfl⟩
  | create => exact .inr ⟨_, rfl⟩
  | place hx =>
    refine .inl ⟨Untouched.nextInst.placed, .of_one hx (fun j => inst?_placed hx) ?_⟩
    rintro x' ⟨⟩
    rfl
  | move hx =>
    refine .inl ⟨Untouched.nextInst.placed.trans Untouched.nextInst.unplaced,
      .of_one hx (fun j => inst?_moved hx) ?_⟩
    rintro x' ⟨⟩
    rfl
  | unplace hx =>
    refine .inl ⟨Untouched.nextInst.unplaced, .of_one hx (fun j => inst?_unplaced hx) ?_⟩
    rintro x' ⟨⟩
    rfl
  | destroy hx =>
    exact .inl ⟨Untouched.nextInst.destroyed, .of_one hx (fun j => inst?_destroyed) nofun⟩
  | setOperand hx =>
    refine .inl ⟨Untouched.nextInst.withOperand, .of_one hx (fun j => inst?_withOperand hx) ?_⟩
    rintro x' ⟨⟩
    simp [Instruction.counts, Instruction.setOperand]

/-- An instruction's number is taken. -/
theorem Context.index_lt_nextInst {ctx : Context} {i : InstId} {x : Instruction}
    (h : ctx.inst? i = some x) : i.index < ctx.nextInst.index := by
  obtain ⟨c, hc, -⟩ := Option.map_eq_some_iff.1 h
  unfold cell? at hc
  split at hc
  · exact (Array.getElem?_eq_some_iff.1 (Option.join_eq_some_iff.1 hc)).1
  · cases hc

/-- Changes touch no counts of instructions whose numbers were taken before. -/
theorem Evolves.counts_of_lt {ctx ctx' : Context} (h : Evolves ctx ctx') :
    ctx.nextInst.index ≤ ctx'.nextInst.index ∧
      ∀ i x', ctx'.inst? i = some x' → i.index < ctx.nextInst.index →
        ∃ x, ctx.inst? i = some x ∧ x'.counts = x.counts := by
  refine h.keeps (P := fun c => ctx.nextInst.index ≤ c.nextInst.index ∧
    ∀ i x', c.inst? i = some x' → i.index < ctx.nextInst.index →
      ∃ x, ctx.inst? i = some x ∧ x'.counts = x.counts) ?_ ⟨Nat.le_refl _, fun _ x hx _ => ⟨x, hx, rfl⟩⟩
  rintro c c' ⟨hle, hold⟩ hc
  rcases hc.countsFrom with ⟨hnext, hcounts⟩ | ⟨y, rfl⟩
  · refine ⟨hnext ▸ hle, fun i x' hx' hi => ?_⟩
    obtain ⟨x, hx, heq⟩ := hcounts i x' hx'
    obtain ⟨x₀, hx₀, heq₀⟩ := hold i x hx hi
    exact ⟨x₀, hx₀, heq.trans heq₀⟩
  · have hnext : (c.pushInst y).nextInst.index = c.nextInst.index + 1 := by
      simp [pushInst, nextInst]
    refine ⟨by omega, fun i x' hx' hi => ?_⟩
    rw [inst?_pushInst, if_neg] at hx'
    · exact hold i x' hx' hi
    · rintro rfl
      omega

/-- The instruction that an operation makes if it does not fail, laid out. -/
def Operation.made? : Operation → Option Parts
  | createInst op results operands _ => some ⟨op, results, operands⟩
  | createForm form _ => form.parts.toOption
  | _ => none

/-- Creation from parts makes no instruction but the one it is asked for. -/
theorem Edit.counts_createInst {ctx : Context} {op : Opcode} {results operands : List ValueId}
    {point : Point} {i : InstId} {x' : Instruction}
    (hx' : ((createInst op results operands point).run ctx).context.inst? i = some x') :
    (∃ x, ctx.inst? i = some x ∧ x'.counts = x.counts) ∨
      x'.counts = Parts.counts ⟨op, results, operands⟩ := by
  revert hx'
  refine Ensures.context_of (P := fun c => c.inst? i = some x' → _) ?_
  have hpushed : ∀ y : Option Instruction, (∀ x, y = some x → x = { opcode := op, results, operands }) →
      (ctx.pushInst y).inst? i = some x' → (∃ x, ctx.inst? i = some x ∧ x'.counts = x.counts) ∨
        x'.counts = Parts.counts ⟨op, results, operands⟩ := by
    intro y hy hx'
    rw [inst?_pushInst] at hx'
    split at hx'
    · rw [hy x' hx']
      exact .inr rfl
    · exact .inl ⟨x', hx', rfl⟩
  refine ensures_createInst (fun _ hx' => .inl ⟨x', hx', rfl⟩) (fun _ => hpushed none nofun)
    (fun _ _ _ => hpushed _ fun x hx => (Option.some.inj hx).symm) fun b k _ _ _ _ _ _ hx' => ?_
  have hlive : (ctx.pushInst (some { opcode := op, results, operands })).inst? ctx.nextInst =
      some { opcode := op, results, operands } := by
    rw [inst?_pushInst, if_pos rfl]
  rw [inst?_placed hlive] at hx'
  split at hx'
  · rw [← Option.some.inj hx']
    exact .inr rfl
  · exact hpushed _ (fun x hx => (Option.some.inj hx).symm) hx'

namespace Operation

variable {ctx : Context} {operation : Operation} {operations : List Operation} {i : InstId}
variable {x' : Instruction}

/-- **An instruction was there before an operation or is the one it makes**, as
far as its counts go. -/
theorem counts_perform (owned : ∀ p l, ∀ v ∈ ctx.members p l, ctx.ownsValue v)
    (fit : operation.typed ctx)
    (hx' : (operation.perform.run ctx).context.inst? i = some x') :
    (∃ x, ctx.inst? i = some x ∧ x'.counts = x.counts) ∨
      ∃ p ∈ operation.made?, x'.counts = p.counts := by
  have hother : operation.makesInst = false → ∃ x, ctx.inst? i = some x ∧ x'.counts = x.counts := by
    intro hother
    have hnext := nextInst_perform owned fit hother
    cases effect_perform owned fit with
    | evolves hevolves =>
      refine hevolves.counts_of_lt.2 i x' hx' ?_
      rw [← hnext]
      exact index_lt_nextInst hx'
    | changes hchange =>
      rcases hchange.countsFrom with ⟨-, hcounts⟩ | ⟨y, hy⟩
      · exact hcounts i x' hx'
      · rw [hy] at hnext
        simp [pushInst, nextInst] at hnext
  cases operation with
  | createInst op results operands point =>
    rw [perform, Edit.run_map] at hx'
    exact (Edit.counts_createInst hx').imp_right fun hcounts => ⟨_, rfl, hcounts⟩
  | createForm form point =>
    rw [perform, Edit.run_map] at hx'
    cases hparts : form.parts with
    | error fault =>
      have hsame : ((Edit.createForm form point).run ctx).context = ctx := by
        rw [Edit.createForm, hparts]
        rfl
      exact .inl ⟨x', hsame ▸ hx', rfl⟩
    | ok p =>
      have hcreate : Edit.createForm form point =
          Edit.createInst p.opcode p.results p.operands point := by
        rw [Edit.createForm, hparts]
        rfl
      rw [hcreate] at hx'
      refine (Edit.counts_createInst hx').imp_right fun hcounts => ⟨p, ?_, hcounts⟩
      rw [made?, hparts]
      rfl
  | _ => exact .inl (hother rfl)

/-- **Every instruction was made by one of the operations**, as far as its
counts go, unless it was there before them. -/
theorem exists_made_runAll (reachable : Reachable ctx) (fit : allTyped operations ctx)
    (hx' : (runAll operations ctx).inst? i = some x') :
    (∃ x, ctx.inst? i = some x ∧ x'.counts = x.counts) ∨
      ∃ operation ∈ operations, ∃ p ∈ operation.made?, x'.counts = p.counts := by
  induction operations generalizing ctx with
  | nil => exact .inl ⟨x', hx', rfl⟩
  | cons operation operations ih =>
    obtain ⟨hfit, hrest⟩ := Bool.and_eq_true_iff.1 fit
    rcases ih (reachable.step operation hfit) hrest hx' with ⟨x, hx, hcounts⟩ | ⟨later, hlater, hmade⟩
    · rcases counts_perform (fun _ _ _ hv => reachable.membered.owned hv) hfit hx with
        ⟨x₀, hx₀, hcounts₀⟩ | ⟨p, hp, hcounts₀⟩
      · exact .inl ⟨x₀, hx₀, hcounts.trans hcounts₀⟩
      · exact .inr ⟨operation, List.mem_cons_self, p, hp, hcounts.trans hcounts₀⟩
    · exact .inr ⟨later, List.mem_cons_of_mem operation hlater, hmade⟩

end Operation

/-- **Forms and counts agree but for logs with too many topics.** There is a
form of an opcode with some counts exactly if the table accepts them and, for a
log, the topics are not too many. No form that passes its own checks is refused
for its counts. And there is a form for each instruction, for a log provided
that none was created from its parts with too many topics; so no log has too
many topics then. -/
theorem forms_agree_with_shapes (op : Opcode) :
    (∀ r o : Nat, op.HasForm r o ↔
      op.shape.accepts r o ∧ (op = .log → o ≤ maxLogTopics + 1)) ∧
    (∀ (ctx : Context) (form : Form) (p : Parts), form.parts = .ok p → p.opcode = op →
      (∀ u ∈ form.uses, ctx.fits u.1 u.2 ∧ ctx.ownsValue u.2) →
      ctx.checkShape op p.results p.operands = .ok ()) ∧
    ∀ (id : ContextId) (operations : List Operation), Operation.allTyped operations { id } →
      (op = .log → ∀ results operands point, .createInst op results operands point ∈ operations →
        operands.length ≤ maxLogTopics + 1) →
      ∀ i x, (Operation.runAll operations { id }).inst? i = some x → x.opcode = op →
        op.HasForm x.results.length x.operands.length ∧
        (op = .log → x.operands.length ≤ maxLogTopics + 1) := by
  refine ⟨fun _ _ => Opcode.hasForm_iff, fun ctx form p hparts hop hfit => ?_,
    fun id operations fit short i x hx hop => ?_⟩
  · rw [← hop]
    exact checkShape_of_parts hparts (fun u hu => (hfit u hu).1) fun u hu => (hfit u hu).2
  · have hreachable := (Reachable.empty id).runAll fit
    have hshaped := hreachable.sound.shaped.shaped hx
    have hlog : op = .log → x.operands.length ≤ maxLogTopics + 1 := by
      intro hisLog
      rcases Operation.exists_made_runAll (.empty id) fit hx with
        ⟨y, hy, -⟩ | ⟨operation, hmem, p, hp, hcounts⟩
      · simp at hy
      · obtain ⟨hopcode, hlengths⟩ := Prod.mk.inj hcounts
        rw [(Prod.mk.inj hlengths).2]
        have hmade : p.opcode = op := hopcode.symm.trans hop
        cases operation with
        | createInst made results operands point =>
          obtain rfl := Option.some.inj hp
          obtain rfl : made = op := hmade
          exact short hisLog results operands point hmem
        | createForm form point =>
          cases hparts : form.parts with
          | error fault =>
            rw [Operation.made?, hparts] at hp
            cases hp
          | ok q =>
            rw [Operation.made?, hparts] at hp
            obtain rfl := Option.some.inj hp
            exact (Form.accepts_of_parts hparts).2 (hmade.trans hisLog)
        | _ => cases hp
    have hcounts : op.shape.accepts x.results.length x.operands.length := by
      rw [← hop]
      exact Bool.and_eq_true_iff.2 ⟨hshaped.results, hshaped.operands⟩
    exact ⟨Opcode.hasForm_iff.2 ⟨hcounts, hlog⟩, hlog⟩

/-- Operations that create a log of one topic from its parts, and one of four
topics by its form. -/
def twoLogs : List Operation :=
  [.createFunction true "" none, .createArgument "" (some ⟨0, 0⟩),
    .createBlock "" (some ⟨0, 0⟩) none,
    .createInst .log [] [⟨0, 1⟩, ⟨0, 1⟩] (.atEnd ⟨0, 2⟩),
    .createForm (.log ⟨0, 1⟩ [⟨0, 1⟩, ⟨0, 1⟩, ⟨0, 1⟩, ⟨0, 1⟩]) (.atEnd ⟨0, 2⟩)]

/-- The second has as many topics as a log may have. Its form passes the check
of counts, and there are forms with a log's counts up to here. -/
theorem forms_agree_with_shapes_twoLogs :
    Operation.allTyped twoLogs { id := 0 } ∧
    (∃ x, (Operation.runAll twoLogs { id := 0 }).inst? ⟨0, 1⟩ = some x ∧ x.opcode = .log ∧
      x.operands.length = maxLogTopics + 1 ∧ Opcode.log.HasForm 0 (maxLogTopics + 1)) ∧
    (Operation.runAll twoLogs { id := 0 }).checkShape .log []
      [⟨0, 1⟩, ⟨0, 1⟩, ⟨0, 1⟩, ⟨0, 1⟩, ⟨0, 1⟩] = .ok () := by
  obtain ⟨-, hpasses, hlogs⟩ := forms_agree_with_shapes .log
  have hfit : Operation.allTyped twoLogs { id := 0 } := by decide
  have hshort : Opcode.log = .log → ∀ results operands point,
      Operation.createInst .log results operands point ∈ twoLogs →
        operands.length ≤ maxLogTopics + 1 := by
    intro _ results operands point hmem
    simp only [twoLogs, List.mem_cons, Operation.createInst.injEq, reduceCtorEq, false_or,
      or_false, List.not_mem_nil] at hmem
    rw [hmem.2.2.1]
    decide
  obtain ⟨hform, -⟩ := hlogs 0 twoLogs hfit hshort ⟨0, 1⟩ _ rfl rfl
  refine ⟨hfit, ⟨_, rfl, rfl, rfl, hform⟩, ?_⟩
  exact hpasses _ (.log ⟨0, 1⟩ [⟨0, 1⟩, ⟨0, 1⟩, ⟨0, 1⟩, ⟨0, 1⟩]) _ rfl rfl (by decide)

/-- A log of five topics, created from its parts. -/
def fiveTopics : Context :=
  Operation.runAll
    [.createFunction true "" none, .createArgument "" (some ⟨0, 0⟩),
      .createBlock "" (some ⟨0, 0⟩) none,
      .createInst .log [] (List.replicate 6 ⟨0, 1⟩) (.atEnd ⟨0, 2⟩)] { id := 0 }

/-- It is there, and no form has its counts. -/
theorem fiveTopics_has_no_form :
    Reachable fiveTopics ∧
    (∃ x, fiveTopics.inst? ⟨0, 0⟩ = some x ∧ x.opcode = .log ∧
      x.operands.length = maxLogTopics + 2) ∧
    Opcode.log.shape.accepts 0 (maxLogTopics + 2) ∧ ¬Opcode.log.HasForm 0 (maxLogTopics + 2) := by
  refine ⟨(Reachable.empty 0).runAll (by decide), ⟨_, rfl, rfl, rfl⟩, by decide, fun hform => ?_⟩
  exact absurd ((Opcode.hasForm_iff.1 hform).2 rfl) (by decide)

end ContractIR
