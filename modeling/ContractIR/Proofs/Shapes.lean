import ContractIR.Proofs.Bodies
/-!
# Shapes of instructions

Creation checks that an instruction has the counts its opcode asks for, that
it refers to values of the context, writes locals only, and, if it is a
branch, ends in a block. Later edits replace operands one by one, under a
check of their own. So every instruction of a reachable context is shaped as
creation lets it through.
-/

namespace ContractIR

namespace Context

variable {ctx ctx' : Context} {x y : Instruction} {v : ValueId} {k : Kind}

/-- The shape of an instruction does not depend on where it is placed. -/
theorem Shaped.of_parts (h : ctx.Shaped x) (hop : y.opcode = x.opcode)
    (hresults : y.results = x.results) (hoperands : y.operands = x.operands) : ctx.Shaped y := by
  constructor
  · rw [hop, hresults]; exact h.results
  · rw [hop, hoperands]; exact h.operands
  · rw [Instruction.references, hresults, hoperands]; exact h.owned
  · rw [hresults]; exact h.locals
  · rw [hop, hoperands]; exact h.target

theorem exists_kind?_of_ownsValue (h : ctx.ownsValue v) : ∃ k, ctx.kind? v = some k := by
  obtain ⟨x, hx⟩ := Option.isSome_iff_exists.1 h
  exact ⟨x.kind, kind?_of_value? hx⟩

/-- Kinds that stay keep an instruction in shape. -/
theorem Shaped.mono (h : ctx.Shaped x)
    (hkind : ∀ {v k}, ctx.kind? v = some k → ctx'.kind? v = some k) : ctx'.Shaped x := by
  refine ⟨h.results, h.operands, fun v hv => ?_, fun v hv => ?_, fun hop v hv => ?_⟩
  · obtain ⟨k, hk⟩ := exists_kind?_of_ownsValue (h.owned v hv)
    exact ownsValue_of_kind? (hkind hk)
  · have hlocal := h.locals v hv
    obtain ⟨k, hk, hlocal⟩ := (Option.any_eq_true _ _).1 hlocal
    rw [isLocal, hkind hk]
    exact hlocal
  · exact hkind (h.target hop v hv)

/-- A new operand is the one new thing that an instruction refers to. -/
theorem mem_references_setOperand {index : Nat} {w : ValueId}
    (h : w ∈ (x.setOperand index v).references) : w ∈ x.references ∨ w = v := by
  rcases List.mem_append.1 h with hw | hw
  · exact .inl (List.mem_append_left _ hw)
  · rcases List.mem_or_eq_of_mem_set hw with hw | hw
    · exact .inl (List.mem_append_right _ hw)
    · exact .inr hw

/-- A checked operand keeps an instruction in shape. -/
theorem Shaped.setOperand (h : ctx.Shaped x) {index : Nat} (howned : ctx.ownsValue v)
    (hcheck : ctx.checkOperand x index v = .ok ()) : ctx.Shaped (x.setOperand index v) := by
  obtain ⟨hindex, hlast⟩ := of_checkOperand hcheck
  refine ⟨h.results, ?_, fun w hw => ?_, h.locals, fun hop w hw => ?_⟩
  · simp only [Instruction.setOperand, List.length_set]
    exact h.operands
  · rcases mem_references_setOperand hw with hw | rfl
    · exact h.owned w hw
    · exact howned
  · simp only [Instruction.setOperand] at hop hw
    rw [List.getLast?_eq_getElem?, List.length_set, List.getElem?_set] at hw
    split at hw
    · rw [← Option.some.inj hw]
      exact hlast hop (by omega)
    · rw [← List.getLast?_eq_getElem?] at hw
      exact h.target hop w hw

end Context

/-- No change gives a value another kind. -/
theorem Change.kind?_of_kind? {ctx ctx' : Context} {taken : List ValueId}
    (hc : Change ctx taken ctx') {v : ValueId} {k : Kind} (h : ctx.kind? v = some k) :
    ctx'.kind? v = some k := by
  have hpush : ∀ {payload : Payload}, (ctx.push payload).kind? v = some k :=
    Context.kind?_push_of_kind? h
  cases hc with
  | intern n hex =>
    unfold Context.intern
    split
    · exact h
    · exact hpush
  | push => exact hpush
  | enlist => exact h
  | rename => rw [Context.kind?_congr Context.skeleton?_renamed]; exact h
  | attach => rw [Context.kind?_attached]; exact h
  | detach => rw [Context.kind?_detached]; exact h
  | transfer => rw [Context.kind?_transferred]; exact h
  | annotate only =>
    rw [Context.kind?_congr (Context.skeleton?_update_of_keeps only.skeleton)]
    exact h
  | waste => exact h
  | create => exact h
  | place => rw [Context.SameMembers.placed.kind]; exact h
  | move => rw [(Context.SameMembers.placed.trans .unplaced).kind]; exact h
  | unplace => rw [Context.SameMembers.unplaced.kind]; exact h
  | destroy => rw [Context.SameMembers.destroyed.kind]; exact h
  | setOperand => rw [Context.SameMembers.withOperand.kind]; exact h

/-- **Every instruction is in shape.** -/
structure WellShaped (ctx : Context) : Prop where
  shaped : ∀ {i x}, ctx.inst? i = some x → ctx.Shaped x

namespace WellShaped

open Context

variable {ctx ctx' : Context}

/-- **No change breaks a shape.** -/
theorem step (h : WellShaped ctx) {taken : List ValueId} (hc : Change ctx taken ctx') :
    WellShaped ctx' := by
  have hkind : ∀ {v k}, ctx.kind? v = some k → ctx'.kind? v = some k := hc.kind?_of_kind?
  have hsame : ctx'.inst? = ctx.inst? → WellShaped ctx' := by
    refine fun hinst => ⟨fun {i x} hx => ?_⟩
    rw [hinst] at hx
    exact (h.shaped hx).mono hkind
  -- One place of the instructions may change, and what stands there then is in shape.
  have hone : ∀ {i : InstId} {y : Option Instruction},
      (∀ j, ctx'.inst? j = if j = i then y else ctx.inst? j) → (∀ x, y = some x → ctx.Shaped x) →
      WellShaped ctx' := by
    refine fun {i y} hinst hy => ⟨fun {j x} hx => ?_⟩
    rw [hinst] at hx
    split at hx
    · exact (hy x hx).mono hkind
    · exact (h.shaped hx).mono hkind
  cases hc with
  | intern n hex =>
    refine hsame ?_
    unfold Context.intern
    split <;> rfl
  | push => exact hsame rfl
  | enlist => exact hsame rfl
  | rename => exact hsame OffValues.inst?.renamed
  | attach => exact hsame OffValues.inst?.attached
  | detach => exact hsame OffValues.inst?.detached
  | transfer => exact hsame OffValues.inst?.transferred
  | annotate => exact hsame (funext fun _ => inst?_update)
  | waste => exact hone (fun j => inst?_pushInst) nofun
  | create shaped =>
    refine hone (fun j => inst?_pushInst) fun x hx => ?_
    rw [← Option.some.inj hx]
    exact shaped
  | place hx =>
    refine hone (fun j => inst?_placed hx) fun x' hx' => ?_
    rw [← Option.some.inj hx']
    exact (h.shaped hx).of_parts rfl rfl rfl
  | move hx =>
    refine hone (fun j => inst?_moved hx) fun x' hx' => ?_
    rw [← Option.some.inj hx']
    exact (h.shaped hx).of_parts rfl rfl rfl
  | unplace hx =>
    refine hone (fun j => inst?_unplaced hx) fun x' hx' => ?_
    rw [← Option.some.inj hx']
    exact (h.shaped hx).of_parts rfl rfl rfl
  | destroy hx => exact hone (fun j => inst?_destroyed) nofun
  | setOperand hx howned hcheck =>
    refine hone (fun j => inst?_withOperand hx) fun x' hx' => ?_
    rw [← Option.some.inj hx']
    exact (h.shaped hx).setOperand howned hcheck

theorem empty (id : ContextId) : WellShaped { id } := by
  refine ⟨fun {i x} hx => ?_⟩
  simp at hx

end WellShaped

/-- **What holds of every reachable context**: lists and parents agree, bodies
and blocks agree, and every instruction is in shape. -/
structure Sound (ctx : Context) : Prop where
  membered : Membered ctx
  threaded : Threaded ctx
  shaped : WellShaped ctx

theorem Sound.step {ctx ctx' : Context} (h : Sound ctx) {taken : List ValueId}
    (hc : Change ctx taken ctx') : Sound ctx' :=
  ⟨h.membered.step hc, h.threaded.step hc, h.shaped.step hc⟩

theorem Reachable.sound {ctx : Context} (h : Reachable ctx) : Sound ctx :=
  h.keeps (fun id => ⟨.empty id, .empty id, .empty id⟩) fun _ hs hc => hs.step hc

end ContractIR
