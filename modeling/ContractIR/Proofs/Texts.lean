import ContractIR.Assembly
import ContractIR.Proofs.Attributes
import ContractIR.Proofs.Shapes
/-!
# What is held has a text

Writing a value out asks for everything it refers to, and to ask for something
the context does not hold is a misuse. In a reachable context this never
happens. Instructions refer to values of the context and have the operands
their opcode needs; members are values of the context; and so is the constant
a storage slot is stored at (`Addressed`), since it is checked when it is set
and nothing is ever taken out of a context. So every value, instruction, block,
function and storage slot has a text.
-/

namespace ContractIR

section Mapping

variable {ε α β : Type} {f g : α → Except ε β} {l : List α}

/-- Elements that all have a result have one together. -/
theorem exists_mapM_eq_ok (h : ∀ a ∈ l, ∃ b, f a = .ok b) :
    ∃ bs, l.mapM f = .ok bs ∧ bs.length = l.length := by
  induction l with
  | nil => exact ⟨[], rfl, rfl⟩
  | cons a l ih =>
    obtain ⟨b, hb⟩ := h a List.mem_cons_self
    obtain ⟨bs, hbs, hlength⟩ := ih fun c hc => h c (List.mem_cons_of_mem a hc)
    refine ⟨b :: bs, ?_, congrArg Nat.succ hlength⟩
    rw [List.mapM_cons, hb, hbs]
    rfl

/-- They keep it if each of them keeps its own. -/
theorem mapM_mono {bs : List β} (hfg : ∀ a ∈ l, ∀ b, f a = .ok b → g a = .ok b)
    (h : l.mapM f = .ok bs) : l.mapM g = .ok bs := by
  induction l generalizing bs with
  | nil => exact h
  | cons a l ih =>
    rw [List.mapM_cons, bind_eq_ok] at h ⊢
    obtain ⟨b, hb, h⟩ := h
    obtain ⟨bs', hbs', h⟩ := bind_eq_ok.1 h
    refine ⟨b, hfg a List.mem_cons_self b hb, bind_eq_ok.2 ⟨bs', ?_, h⟩⟩
    exact ih (fun c hc => hfg c (List.mem_cons_of_mem a hc)) hbs'

end Mapping

/-! ## The addresses of storage slots -/

theorem Value.attribute_address? : Value.Attribute Value.address? := by
  refine ⟨fun _ _ => rfl, fun _ _ => rfl, ?_, ?_, ?_⟩
  · rintro ⟨payload, name, parent⟩ f
    cases payload <;> rfl
  · rintro ⟨payload, name, parent⟩ list vs
    cases payload <;> cases list <;> rfl
  · rintro ⟨payload, name, parent⟩ is
    cases payload <;> rfl

namespace Context

variable {ctx : Context} {v w : ValueId}

theorem storageAddress?_eq : ctx.storageAddress? v = (ctx.value? v).bind Value.address? := by
  unfold storageAddress?
  cases ctx.value? v with
  | none => rfl
  | some x => cases hx : x.payload <;> simp [Value.address?, hx]

theorem storageAddress?_eq_join :
    ctx.storageAddress? v = (ctx.attribute? Value.address? v).join := by
  rw [storageAddress?_eq, attribute?]
  cases ctx.value? v <;> rfl

theorem storageAddress?_update {f : Value → Value} :
    (ctx.update v f).storageAddress? w =
      if w = v then (ctx.value? w).bind fun x => (f x).address? else ctx.storageAddress? w := by
  simp only [storageAddress?_eq, value?_update]
  split
  · rw [Option.bind_map]
    rfl
  · rfl

end Context

/-- **The addresses of storage slots are values of the context.** -/
structure Addressed (ctx : Context) : Prop where
  owned : ∀ {v a}, ctx.storageAddress? v = some a → ctx.ownsValue a

namespace Addressed

open Context

variable {ctx ctx' : Context}

/-- **No change breaks an address.** -/
theorem step (h : Addressed ctx) {taken : List ValueId} (hc : Change ctx taken ctx') :
    Addressed ctx' := by
  have howns : ∀ {v}, ctx.ownsValue v → ctx'.ownsValue v := by
    intro v hv
    obtain ⟨k, hk⟩ := exists_kind?_of_ownsValue hv
    exact ownsValue_of_kind? (hc.kind?_of_kind? hk)
  have hpush : ∀ {payload : Payload}, ({ payload } : Value).address? = none →
      ∀ {v a}, (ctx.push payload).storageAddress? v = some a → ctx.ownsValue a := by
    intro payload hnone v a ha
    rw [storageAddress?_eq_join, attribute?_push] at ha
    split at ha
    · rw [hnone] at ha
      cases ha
    · exact h.owned (storageAddress?_eq_join.trans ha)
  refine ⟨fun {v a} ha => howns ?_⟩
  cases hc.attribute_cases Value.attribute_address? with
  | same hsame =>
    rw [storageAddress?_eq_join, hsame, ← storageAddress?_eq_join] at ha
    exact h.owned ha
  | push fresh heq =>
    subst heq
    exact hpush (by cases fresh <;> rfl) ha
  | intern n hex heq =>
    subst heq
    unfold Context.intern at ha
    split at ha
    · exact h.owned ha
    · exact hpush rfl ha
  | annotate _ addresses heq =>
    -- The one change that sets an address has checked it.
    subst heq
    rw [storageAddress?_update] at ha
    split at ha
    · obtain ⟨x, hx, ha⟩ := Option.bind_eq_some_iff.1 ha
      rcases addresses x a ha with hold | hnew
      · refine h.owned (v := v) ?_
        rw [storageAddress?_eq, hx]
        exact hold
      · exact hnew
    · exact h.owned ha

theorem empty (id : ContextId) : Addressed { id } := by
  refine ⟨fun {v a} ha => ?_⟩
  simp [storageAddress?_eq, value?] at ha

end Addressed

theorem Reachable.addressed {ctx : Context} (h : Reachable ctx) : Addressed ctx :=
  h.keeps .empty fun _ haddressed hc => haddressed.step hc

/-! ## Texts -/

/-- An instruction with the operands its opcode needs has a text. -/
theorem Assembly.exists_instructionText {op : Opcode} (results : List String)
    {operands : List String} (h : op.shape.operands.accepts operands.length) :
    ∃ text, instructionText op results operands = some text := by
  cases op with
  | ret => cases operands <;> exact ⟨_, rfl⟩
  | assign | call =>
    match operands, h with
    | _ :: _, _ => exact ⟨_, rfl⟩
  | callAddress | create | copyCreate =>
    match operands, h with
    | _ :: _ :: _, _ => exact ⟨_, rfl⟩
  | staticCallAt =>
    match operands, h with
    | _ :: _ :: _ :: _, _ => exact ⟨_, rfl⟩
  | callAt =>
    match operands, h with
    | _ :: _ :: _ :: _ :: _, _ => exact ⟨_, rfl⟩
  | _ => exact ⟨_, rfl⟩

namespace Context

variable {ctx : Context} {b f v : ValueId} {i : InstId} {x : Instruction}

theorem exists_valueText (h : ctx.ownsValue v) : ∃ text, ctx.valueText v = .ok text := by
  obtain ⟨x, hx⟩ := Option.isSome_iff_exists.1 h
  exact ⟨_, by rw [valueText, read_eq_ok.2 hx]; rfl⟩

/-- An instruction in shape has a text. -/
theorem exists_instText (hs : WellShaped ctx) (hx : ctx.inst? i = some x) :
    ∃ text, ctx.instText i = .ok text := by
  have hshaped := hs.shaped hx
  obtain ⟨results, hresults, -⟩ := exists_mapM_eq_ok fun v hv =>
    exists_valueText (hshaped.owned v (List.mem_append_left x.operands hv))
  obtain ⟨operands, hoperands, hlength⟩ := exists_mapM_eq_ok fun v hv =>
    exists_valueText (hshaped.owned v (List.mem_append_right x.results hv))
  have hcount := hshaped.operands
  rw [← hlength] at hcount
  obtain ⟨text, htext⟩ := Assembly.exists_instructionText results hcount
  refine ⟨text, ?_⟩
  simp only [instText, readInst_eq_ok.2 hx, ok_bind, hresults, hoperands, htext]

/-- A block has a text. -/
theorem exists_blockText (h : Sound ctx) (hb : ctx.kind? b = some .block) :
    ∃ text, ctx.blockText b = .ok text := by
  obtain ⟨x, hx⟩ := Option.isSome_iff_exists.1 (ownsValue_of_kind? hb)
  have hinst : ∀ i ∈ ctx.body b, ∃ text, ctx.instText i = .ok text := by
    intro i hi
    obtain ⟨y, hy, -⟩ := h.threaded.live hi
    exact exists_instText h.shaped hy
  obtain ⟨lines, hlines, -⟩ := exists_mapM_eq_ok hinst
  simp only [blockText, read_eq_ok.2 hx, readBody_eq_ok.2 ⟨hb, rfl⟩, ok_bind, hlines]
  exact ⟨_, rfl⟩

/-- A function has a text. -/
theorem exists_functionText (h : Sound ctx) (hf : ctx.ownsValue f) :
    ∃ text, ctx.functionText f = .ok text := by
  obtain ⟨x, hx⟩ := Option.isSome_iff_exists.1 hf
  have hmembers := fun list => (members_of_value? hx list).symm
  have harg : ∀ v ∈ ctx.members f .arguments, ∃ text, ctx.valueText v = .ok text :=
    fun v hv => exists_valueText (h.membered.owned hv)
  have hblock : ∀ b ∈ ctx.members f .blocks, ∃ text, ctx.blockText b = .ok text :=
    fun b hb => exists_blockText h (h.membered.kind hb)
  obtain ⟨args, hargs, -⟩ := exists_mapM_eq_ok harg
  obtain ⟨blocks, hblocks, -⟩ := exists_mapM_eq_ok hblock
  simp only [functionText, read_eq_ok.2 hx, ok_bind, hmembers, hargs, hblocks]
  exact ⟨_, rfl⟩

/-- A storage slot has a text. -/
theorem exists_globalText (h : Addressed ctx) (hv : ctx.ownsValue v) :
    ∃ text, ctx.globalText v = .ok text := by
  obtain ⟨name, hname⟩ := exists_valueText hv
  simp only [globalText, hname, ok_bind]
  cases ha : ctx.storageAddress? v with
  | none => exact ⟨_, rfl⟩
  | some a =>
    obtain ⟨address, haddress⟩ := exists_valueText (h.owned ha)
    simp only [haddress, ok_bind]
    exact ⟨_, rfl⟩

end Context

end ContractIR
