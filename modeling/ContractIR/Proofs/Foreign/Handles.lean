import ContractIR.Proofs.Foreign.Checks
/-!
# Operations given handles of other contexts

Some of the handles an operation is given may not be of the context. Here each
edit is followed to the first check that notices one of them, and
`foreign_handles_refused` draws the line: every operation that can be refused is
refused then, unless a new member is to be put before a foreign one or a foreign
storage slot is to get an address, and there is nothing else to object to.
-/

namespace ContractIR

/-! ## Operations with stray handles -/

/-- Whether one of some handles is not of the context: a value of another one,
or an instruction of another one or an erased one. -/
def Context.strays (ctx : Context) (us : List Use) (is : List InstId) : Bool :=
  us.any (fun u => ctx.isForeign u.2) || is.any fun i => !ctx.ownsInst i

namespace Operation

/-- The handles of an operation that are instructions. -/
def insts : Operation → List InstId
  | createInst _ _ _ point | createForm _ point | transferInsts _ _ _ point =>
    point.follower?.toList
  | insertInst i point => i :: point.follower?.toList
  | removeInst i | eraseInst i | setOperand i _ _ => [i]
  | _ => []

/-- **Handles as a program has them**: each is of a value of the context that is
fit for its role, or of another context. -/
def genuine (ctx : Context) (operation : Operation) : Bool :=
  operation.uses.all fun u => ctx.isForeign u.2 || (ctx.kind? u.2).any u.1.admits

/-- Whether an operation answers a misplaced handle with a refusal. Attributes
are set and optimizations run only on what is known to be there. -/
def isFallible : Operation → Bool
  | constant .. | setFlag .. | setMetadata .. | propagateCopies _ | eliminateDeadCode ..
  | optimizeFunction .. | optimizeContract .. => false
  | _ => true

/-- The checks that an operation may make before it looks at a handle: of a
name, of an opcode's family, of a shape, or of how its arguments go together. -/
def ownCheck (ctx : Context) : Operation → Except Fault Unit
  | createGlobal name _ | createFunction _ name _ | createBlock name _ _ | createArgument name _
  | createLocal name _ => Context.checkName name
  | insert list owner member _ => ctx.checkKinds list owner member
  | transfer _ source target _ _ _ => if source = target then refuse .sameList else .ok ()
  | createInst opcode results operands _ => ctx.checkShape opcode results operands
  | createForm form _ => do
    let p ← form.parts
    ctx.checkShape p.opcode p.results p.operands
  | _ => .ok ()

/-- The member before which an operation is to put others. -/
def place? : Operation → Option ValueId
  | createBlock _ (some _) before | insert _ _ _ before | transfer _ _ _ _ _ before => before
  | _ => none

/-- The operation without a place: what it puts somewhere goes to the end. -/
def atEnd : Operation → Operation
  | createBlock name function _ => createBlock name function none
  | insert list owner member _ => insert list owner member none
  | transfer list source target start stop _ => transfer list source target start stop none
  | operation => operation

/-- **What no check guards.** -/
inductive Unguarded (ctx : Context) : Operation → Prop
  /-- A place before a foreign member, where all else is as it should be. -/
  | place {operation : Operation} {b : ValueId} {answer : Answer} :
      operation.place? = some b → ctx.isForeign b →
      (operation.atEnd.perform.run ctx).outcome = .ok answer → Unguarded ctx operation
  /-- A foreign storage slot, if its address is of the context. -/
  | slot {slot address : ValueId} :
      ctx.isForeign slot → ¬ctx.isForeign address → Unguarded ctx (setStorageAddress slot address)

end Operation

/-- The handles of a form are what its instruction is laid out from. -/
theorem Form.handles_eq {form : Form} {p : Parts} (h : form.parts = .ok p) :
    form.uses.map Prod.snd = p.results ++ p.operands := by
  cases form with
  | unary | binary | ternary | intrinsic =>
    obtain ⟨-, rfl⟩ := ofFamily_eq_ok.1 h
    simp [uses, targets, values, Function.comp_def]
  | log data topics =>
    simp only [parts] at h
    split at h
    · cases h
    · cases h
      simp [uses, values, Function.comp_def]
  | accountCall isStatic status results callee address transfer gas args =>
    cases isStatic <;> cases transfer <;> cases h <;>
      simp [uses, targets, values, Function.comp_def]
  | create status account source transfer args =>
    cases source <;> cases h <;> simp [uses, targets, values, Function.comp_def]
  | _ =>
    cases h
    simp [uses, targets, values, Function.comp_def]

theorem MemberList.eq_ownerKind_of_admits {list : MemberList} {k : Kind}
    (h : list.ownerRole.admits k) : k = list.ownerKind := by
  cases list <;> exact eq_of_beq h

namespace Context

variable {ctx : Context} {b v : ValueId}

theorem ownsInst_of_ownInst {i : InstId} {x : Instruction} (h : ctx.ownInst i = .ok x) :
    ctx.ownsInst i := by
  rw [ownsInst, ownInst_eq_ok.1 h]
  rfl

@[simp] theorem strays_nil : ctx.strays [] [] = false := rfl

@[simp] theorem strays_cons_use {role : Role} {us : List Use} {is : List InstId} :
    ctx.strays ((role, v) :: us) is ↔ ctx.isForeign v ∨ ctx.strays us is := by
  simp only [strays, List.any_cons, Bool.or_eq_true, or_assoc]

@[simp] theorem strays_cons_inst {us : List Use} {i : InstId} {is : List InstId} :
    ctx.strays us (i :: is) ↔ ¬ctx.ownsInst i ∨ ctx.strays us is := by
  simp only [strays, List.any_cons, Bool.or_eq_true, Bool.not_eq_true, Bool.not_eq_true']
  exact or_left_comm

theorem strays_append {us ws : List Use} {is : List InstId} :
    ctx.strays (us ++ ws) is ↔ (∃ u ∈ us, ctx.isForeign u.2) ∨ ctx.strays ws is := by
  simp only [strays, List.any_append, Bool.or_eq_true, List.any_eq_true, or_assoc]

/-- An insertion point whose block is found has no stray handle. -/
theorem not_strays_of_pointBlock {point : Point} (h : ctx.pointBlock point = .ok b) :
    ctx.strays point.uses point.follower?.toList = false := by
  cases point with
  | atEnd c =>
    obtain ⟨x, hx, -⟩ := bind_eq_ok.1 h
    simp [strays, Point.uses, Point.follower?, not_isForeign_of_own hx]
  | before i =>
    obtain ⟨x, hx, -⟩ := bind_eq_ok.1 h
    simp [strays, Point.uses, Point.follower?, ownsInst_of_ownInst hx]

end Context

namespace Edit

open Context

variable {α : Type} {ctx : Context} {v owner member source target : ValueId} {i : InstId}
variable {list : MemberList} {before : Option ValueId} {name : String} {payload : Payload}
variable {point : Point} {own : Except Fault Unit}

/-- **An edit that is refused** in the proper way. -/
def Refuses (e : Edit α) (own : Except Fault Unit) (ctx : Context) : Prop :=
  e.Ensures (fun _ _ => False) (fun fault _ => fault.Proper own) ctx

theorem Refuses.exists_cause {e : Edit α} (h : e.Refuses own ctx) :
    ∃ cause, (e.run ctx).outcome = .error (.refused cause) ∧
      (cause.kind = .ownershipViolation ∨ own = .error (.refused cause)) := by
  unfold Refuses Ensures at h
  split at h
  · exact h.elim
  · obtain ⟨cause, rfl, hcause⟩ := h
    exact ⟨cause, ‹_›, hcause⟩

/-- An edit that starts with a foreign handle. -/
theorem refuses_own {f : Context → Value → Edit α} (h : ctx.isForeign v) :
    (context >>= fun c => liftM (c.own v) >>= f c).Refuses own ctx := by
  refine .look (.inspect (fun _ => proper_own) fun x hx => ?_)
  exact absurd h (not_isForeign_of_value? (own_eq_ok.1 hx))

theorem refuses_insertMember (h : ctx.isForeign owner ∨ ctx.isForeign member) :
    (insertMember owner list member before).Refuses own ctx := by
  obtain ⟨w, hw⟩ : ∃ w, ctx.checkPair owner list member = .error (.refused (.foreignValue w)) :=
    exists_checkPair_of_isForeign h
  unfold insertMember
  refine .look (.inspect (fun fault hfault => ?_) fun _ hok => ?_)
  · rw [hw] at hfault
    cases hfault
    exact .ownership rfl
  · rw [hw] at hok
    cases hok

/-- The owner of a new member is looked at once the name was found in order. -/
theorem refuses_createMember {owner : Option ValueId}
    (h : (insertInto owner list ctx.nextValue before).Refuses (checkName name)
      (ctx.push payload)) :
    (createMember payload list name owner before).Refuses (checkName name) ctx := by
  unfold createMember
  refine .inspect (fun fault hname => .first hname fun hmisuse => ?_) fun _ _ => ?_
  · exact checkName_ne_misuse (hmisuse ▸ hname)
  · simp only [ensures_bind, ensures_newValue]
    exact h.imp (fun _ _ => False.elim) fun _ _ => id

theorem refuses_transferMembers {start stop : Nat}
    (h : ctx.isForeign source ∨ ctx.isForeign target) :
    (transferMembers list source target start stop before).Refuses own ctx := by
  unfold transferMembers
  refine .look (.inspect (fun _ => proper_own) fun s hs => .inspect (fun _ => proper_own) ?_)
  intro t ht
  simp [not_isForeign_of_own hs, not_isForeign_of_own ht] at h

/-- The parts of a new instruction are looked at before its shape, and its shape
before the insertion point. -/
theorem refuses_createInst {op : Opcode} {results operands : List ValueId}
    (h : (∃ v ∈ results ++ operands, ctx.isForeign v) ∨
      ctx.strays point.uses point.follower?.toList) :
    (createInst op results operands point).Refuses (ctx.checkShape op results operands) ctx := by
  unfold createInst
  refine .look (.inspect (fun _ => proper_checkOwned) fun _ howned => ?_)
  refine .inspect (fun fault hshape => .first hshape fun hmisuse => ?_) fun _ _ => ?_
  · exact checkShape_ne_misuse (hmisuse ▸ hshape)
  -- All parts were found to be of the context, so the stray handle is the point's.
  have hpoint : ctx.strays point.uses point.follower?.toList := by
    refine h.resolve_left ?_
    rintro ⟨v, hv, hforeign⟩
    obtain ⟨x, hx⟩ := Option.isSome_iff_exists.1 (ownsValue_of_checkOwned howned v hv)
    exact not_isForeign_of_value? hx hforeign
  cases hblock : ctx.pointBlock point with
  | ok b =>
    rw [not_strays_of_pointBlock hblock] at hpoint
    cases hpoint
  | error fault =>
    simp only [show (Except.error fault >>= ctx.checkEntry _ : Except Fault Unit) = .error fault
      from rfl, ensures_bind, ensures_modify, ensures_throw]
    exact proper_pointBlock hblock

theorem refuses_createForm {form : Form}
    (h : ctx.strays (form.uses ++ point.uses) point.follower?.toList) :
    (createForm form point).Refuses (form.parts >>= fun p =>
      ctx.checkShape p.opcode p.results p.operands) ctx := by
  unfold createForm
  refine .inspect (fun fault hparts => ?_) fun p hp => ?_
  · refine .first (bind_eq_error.2 (.inl hparts)) fun hmisuse => ?_
    exact form.parts_ne_misuse (hmisuse ▸ hparts)
  · rw [hp, ok_bind]
    refine refuses_createInst ((strays_append.1 h).imp_left ?_)
    rintro ⟨u, hu, hforeign⟩
    exact ⟨u.2, Form.handles_eq hp ▸ List.mem_map_of_mem hu, hforeign⟩

theorem refuses_insertInst (h : ctx.strays point.uses (i :: point.follower?.toList)) :
    (insertInst i point).Refuses own ctx := by
  unfold insertInst
  refine .look (.inspect (fun _ => proper_pointBlock) fun b hb => ?_)
  refine .inspect (fun _ => proper_ownInst) fun x hx => ?_
  rcases strays_cons_inst.1 h with hi | hpoint
  · exact absurd (ownsInst_of_ownInst hx) hi
  · rw [not_strays_of_pointBlock hb] at hpoint
    cases hpoint

theorem refuses_unplace (h : ¬ctx.ownsInst i) : (unplace i).Refuses own ctx := by
  unfold unplace
  refine .look (.inspect (fun _ => proper_ownInst) fun x hx => ?_)
  exact absurd (ownsInst_of_ownInst hx) h

theorem refuses_setOperand {index : Nat} (h : ctx.isForeign v ∨ ¬ctx.ownsInst i) :
    (setOperand i index v).Refuses own ctx := by
  unfold setOperand
  refine .look (.inspect (fun _ => proper_own) fun x hx => .inspect (fun _ => proper_ownInst) ?_)
  intro y hy
  simp [not_isForeign_of_own hx, ownsInst_of_ownInst hy] at h

theorem refuses_transferInsts {start stop : Nat}
    (h : ctx.isForeign source ∨ ctx.strays point.uses point.follower?.toList) :
    (transferInsts source start stop point).Refuses own ctx := by
  unfold transferInsts
  refine .look (.inspect (fun _ => proper_own) fun x hx => .inspect (fun _ => proper_pointBlock) ?_)
  intro b hb
  simp [not_isForeign_of_own hx, not_strays_of_pointBlock hb] at h

end Edit

namespace Operation

open Context Edit

variable {ctx : Context} {b : ValueId} {operation : Operation}

theorem carriedOut_refuses {e : Edit Unit} {own : Except Fault Unit} (h : e.Refuses own ctx) :
    (carriedOut e).Refuses own ctx :=
  (ensures_map _ _).2 h

/-- **A place before a foreign member** stops an operation that would go through
without the place, and no other. -/
theorem outcome_of_isForeign (sound : Sound ctx) (hplace : operation.place? = some b)
    (hb : ctx.isForeign b) :
    (operation.perform.run ctx).outcome =
      ((operation.atEnd.perform.run ctx).outcome >>= fun _ => .error .misuse) := by
  cases operation with
  | insert list owner member before =>
    obtain rfl : before = some b := hplace
    simp only [perform, atEnd, carriedOut, run_map, outcome_insertMember,
      checkInsertion_of_isForeign sound.membered hb]
    cases ctx.checkInsertion owner list member none <;> rfl
  | transfer list source target start stop before =>
    obtain rfl : before = some b := hplace
    simp only [perform, atEnd, carriedOut, run_map, outcome_transferMembers sound.membered,
      checkTransfer_of_isForeign sound.membered hb]
    cases ctx.checkTransfer list.list source target start stop none <;> rfl
  | createBlock name function before =>
    cases function with
    | none => cases hplace
    | some f =>
      obtain rfl : before = some b := hplace
      have hpush : Membered (ctx.push (.block {})) := by
        refine sound.membered.push fun l => ?_
        cases l <;> rfl
      simp only [perform, atEnd, run_map, outcome_createBlock,
        checkInsertion_of_isForeign hpush hb]
      cases checkName name with
      | error _ => rfl
      | ok _ =>
        cases (ctx.push (.block {})).checkInsertion f .blocks ctx.nextValue none <;> rfl
  | _ => cases hplace

/-- A genuine handle that is not foreign is of a value fit for the role. -/
theorem exists_of_genuine {role : Role} {v : ValueId} (h : operation.genuine ctx)
    (hv : (role, v) ∈ operation.uses) (hown : ¬ctx.isForeign v) :
    ∃ x, ctx.value? v = some x ∧ role.admits x.kind := by
  have hrole := Bool.or_eq_true_iff.1 (List.all_eq_true.1 h _ hv)
  obtain ⟨k, hk, hadmits⟩ := (Option.any_eq_true _ _).1 (hrole.resolve_left hown)
  obtain ⟨x, hx, rfl⟩ := Option.map_eq_some_iff.1 hk
  exact ⟨x, hx, hadmits⟩

/-- A new block can be put at the end of every function. -/
theorem checkInsertion_push {f : ValueId} {x : Value} (hf : ctx.value? f = some x)
    (hk : x.kind = .function) :
    (ctx.push (.block {})).checkInsertion f .blocks ctx.nextValue none = .ok () := by
  have hnew : (ctx.push (.block {})).value? ctx.nextValue = some { payload := .block {} } := by
    rw [value?_push, if_pos rfl]
  have howner : (ctx.push (.block {})).kind? f = some .function := by
    rw [← hk]
    exact kind?_push_of_kind? (kind?_of_value? hf)
  exact checkInsertion_of_fresh .block rfl (by decide) howner hnew rfl rfl

/-- Without a foreign place, an operation that has a place is refused if it
fails. -/
theorem proper_of_atEnd (sound : Sound ctx) (genuine : operation.genuine ctx)
    (hplace : operation.place? = some b) {fault : Fault}
    (h : (operation.atEnd.perform.run ctx).outcome = .error fault) :
    fault.Proper (operation.ownCheck ctx) := by
  cases operation with
  | insert list owner member before =>
    simp only [perform, atEnd, carriedOut, run_map, outcome_insertMember, map_eq_error] at h
    exact proper_checkInsertion sound h
  | transfer list source target start stop before =>
    simp only [perform, atEnd, carriedOut, run_map, outcome_transferMembers sound.membered,
      map_eq_error] at h
    have hkind : ∀ {v : ValueId}, (list.list.ownerRole, v) ∈
        (transfer list source target start stop before).uses → ∀ x, ctx.value? v = some x →
        x.kind = list.list.ownerKind := by
      intro v hv x hx
      obtain ⟨y, hy, hadmits⟩ := exists_of_genuine genuine hv (not_isForeign_of_value? hx)
      obtain rfl := Option.some.inj (hy.symm.trans hx)
      exact MemberList.eq_ownerKind_of_admits hadmits
    exact proper_checkTransfer sound (hkind (by simp [uses])) (hkind (by simp [uses])) h
  | createBlock name function before =>
    cases function with
    | none => cases hplace
    | some f =>
      simp only [perform, atEnd, run_map, map_eq_error] at h
      by_cases hf : ctx.isForeign f
      · have hcreate : (Edit.createBlock name (some f) none).Refuses (checkName name) ctx :=
          refuses_createMember (refuses_insertMember (.inl hf))
        obtain ⟨cause, hout, hcause⟩ := hcreate.exists_cause
        exact ⟨cause, Except.error.inj (h.symm.trans hout), hcause⟩
      -- A function of the context takes every new block, so only the name can be wrong.
      obtain ⟨x, hx, hadmits⟩ :=
        exists_of_genuine genuine (List.mem_append_left _ (List.mem_singleton_self _)) hf
      rw [outcome_createBlock, checkInsertion_push hx (eq_of_beq hadmits)] at h
      rcases bind_eq_error.1 h with h | ⟨_, -, h⟩
      · exact .first h fun hmisuse => checkName_ne_misuse (hmisuse ▸ h)
      · cases h
  | _ => cases hplace

theorem not_strays_given {role : Role} {v : Option ValueId}
    (h : ∀ b, v = some b → ¬ctx.isForeign b) : ¬ctx.strays (given role v) [] := by
  cases v with
  | none => exact Bool.false_ne_true
  | some b => simpa [given] using h b rfl

/-- **Stray handles are refused** where no place is foreign and no slot is. -/
theorem refuses_of_strays (fallible : operation.isFallible)
    (strays : ctx.strays operation.uses operation.insts)
    (hplace : ∀ b, operation.place? = some b → ¬ctx.isForeign b)
    (hslot : ∀ slot address, operation = setStorageAddress slot address → ctx.isForeign slot →
      ctx.isForeign address) :
    operation.perform.Refuses (operation.ownCheck ctx) ctx := by
  cases operation with
  | constant | setFlag | setMetadata | propagateCopies | eliminateDeadCode | optimizeFunction
  | optimizeContract => cases fallible
  | createContract => cases strays
  | createSubcontract name parent =>
    exact (ensures_map _ _).2 (refuses_own (by simpa [uses, insts] using strays))
  | createGlobal _ owner | createFunction _ _ owner | createInitFunction owner
  | createDepositFunction _ owner | createArgument _ owner | createLocal _ owner =>
    cases owner with
    | none => cases strays
    | some owner =>
      have howner : ctx.isForeign owner := by simpa [uses, insts, given] using strays
      exact (ensures_map _ _).2 (refuses_createMember (refuses_insertMember (.inl howner)))
  | createBlock name function before =>
    refine (ensures_map _ _).2 (refuses_createMember ?_)
    cases function with
    | some f =>
      have hbefore : ¬ctx.strays (given .block before) [] := not_strays_given hplace
      have hf : ctx.isForeign f := (strays_cons_use.1 strays).resolve_right hbefore
      exact refuses_insertMember (.inl hf)
    | none =>
      cases before with
      | none => cases strays
      | some b => exact (ensures_refuse _).2 (.ownership rfl)
  | insert list owner member before =>
    have hbefore : ¬ctx.strays (given list.memberRole before) [] := not_strays_given hplace
    refine carriedOut_refuses (refuses_insertMember ?_)
    simpa [uses, insts, hbefore] using strays
  | transfer list source target start stop before =>
    have hbefore : ¬ctx.strays (given list.list.memberRole before) [] := not_strays_given hplace
    refine carriedOut_refuses (refuses_transferMembers ?_)
    simpa [uses, insts, hbefore] using strays
  | detach v | setName v =>
    exact carriedOut_refuses (refuses_own (by simpa [uses, insts] using strays))
  | setStorageAddress slot address =>
    have hhandles : ctx.isForeign slot ∨ ctx.isForeign address := by
      simpa [uses, insts] using strays
    exact carriedOut_refuses (refuses_own (hhandles.elim (hslot slot address rfl) id))
  | createInst op results operands point =>
    refine (ensures_map _ _).2 (refuses_createInst ((strays_append.1 strays).imp_left ?_))
    rintro ⟨u, hu, hforeign⟩
    have hparts : (Form.targets results ++ Form.values operands).map Prod.snd =
        results ++ operands := by
      simp [Form.targets, Form.values, Function.comp_def]
    exact ⟨u.2, hparts ▸ List.mem_map_of_mem hu, hforeign⟩
  | createForm form point => exact (ensures_map _ _).2 (refuses_createForm strays)
  | insertInst i point => exact carriedOut_refuses (refuses_insertInst strays)
  | removeInst i =>
    exact carriedOut_refuses (refuses_unplace (by simpa [uses, insts] using strays))
  | eraseInst i =>
    have h : (unplace i).Refuses (.ok ()) ctx :=
      refuses_unplace (by simpa [uses, insts] using strays)
    refine (ensures_map _ _).2 (.look ((ensures_bind _ _).2 ?_))
    exact h.imp (fun _ _ => False.elim) fun _ _ => id
  | setOperand i index v =>
    exact carriedOut_refuses (refuses_setOperand (by simpa [uses, insts, or_comm] using strays))
  | transferInsts source start stop point =>
    exact carriedOut_refuses (refuses_transferInsts (strays_cons_use.1 strays))

end Operation

/-- **Foreign handles are refused, except in two places.** A cast refuses them.
Let an operation that can be refused be given genuine handles, some of which are
of another context or of erased instructions. It ends in misuse if it would go
through but for a place before a foreign member, or is to give a foreign slot an
address of the context. In all other cases it is refused, as an ownership
violation or by a check of its own that comes first. -/
theorem foreign_handles_refused {ctx : Context} (reachable : Reachable ctx) :
    (∀ role v, ctx.isForeign v → ∃ cause, ctx.cast role v = .error (.refused cause) ∧
      cause.kind = .ownershipViolation) ∧
    ∀ operation : Operation, operation.isFallible → operation.genuine ctx →
      ctx.strays operation.uses operation.insts →
      (operation.Unguarded ctx → (operation.perform.run ctx).outcome = .error .misuse) ∧
      (¬operation.Unguarded ctx → ∃ cause,
        (operation.perform.run ctx).outcome = .error (.refused cause) ∧
        (cause.kind = .ownershipViolation ∨
          operation.ownCheck ctx = .error (.refused cause))) := by
  have sound := reachable.sound
  refine ⟨fun role v hv => ?_, fun operation fallible genuine strays => ⟨?_, fun hguarded => ?_⟩⟩
  · refine ⟨.foreignValue v, ?_, rfl⟩
    rw [Context.cast, Context.own_eq_error.2 ⟨Context.value?_of_isForeign hv, rfl⟩]
    rfl
  · rintro (⟨hplace, hb, hok⟩ | ⟨hslot, haddress⟩)
    · rw [Operation.outcome_of_isForeign sound hplace hb, hok]
      rfl
    · obtain ⟨x, hx, -⟩ := Operation.exists_of_genuine genuine
        (List.mem_cons_of_mem _ (List.mem_singleton_self _)) haddress
      simp only [Operation.perform, Operation.carriedOut, Edit.run_map,
        Edit.outcome_setStorageAddress hslot hx]
      rfl
  · by_cases hplace : ∃ b, operation.place? = some b ∧ ctx.isForeign b
    · obtain ⟨b, hplace, hb⟩ := hplace
      -- It fails as it does without the place: if it did not, nothing would guard it.
      rw [Operation.outcome_of_isForeign sound hplace hb]
      cases hend : (operation.atEnd.perform.run ctx).outcome with
      | ok answer => exact absurd (.place hplace hb hend) hguarded
      | error fault =>
        obtain ⟨cause, rfl, hcause⟩ := Operation.proper_of_atEnd sound genuine hplace hend
        exact ⟨cause, rfl, hcause⟩
    · refine (Operation.refuses_of_strays fallible strays (fun b hb hforeign => ?_) ?_).exists_cause
      · exact hplace ⟨b, hb, hforeign⟩
      · rintro slot address rfl hslot
        exact not_not.1 fun haddress => hguarded (.slot hslot haddress)

/-- A function with a local and a block, another block and a storage slot without
owner, a constant, and an instruction that was erased. -/
def looseEnds : Context :=
  Operation.runAll
    [.createFunction true "f" none, .createLocal "x" (some ⟨0, 0⟩),
      .createBlock "a" (some ⟨0, 0⟩) none, .createBlock "b" none none, .createGlobal "s" none,
      .constant 7 false, .createForm (.assign ⟨0, 1⟩ ⟨0, 5⟩) (.atEnd ⟨0, 2⟩),
      .createForm .retVoid (.atEnd ⟨0, 2⟩), .eraseInst ⟨0, 1⟩] { id := 0 }

/-- A foreign operand and a point before the erased instruction are ownership
violations. A place before a foreign block is not refused. -/
theorem foreign_handles_refused_looseEnds :
    Reachable looseEnds ∧
    (∃ cause, ((Operation.setOperand ⟨0, 0⟩ 0 ⟨1, 0⟩).perform.run looseEnds).outcome =
      .error (.refused cause) ∧ cause.kind = .ownershipViolation) ∧
    (∃ cause, ((Operation.createForm (.unary .not ⟨0, 1⟩ ⟨0, 1⟩) (.before ⟨0, 1⟩)).perform.run
      looseEnds).outcome = .error (.refused cause) ∧ cause.kind = .ownershipViolation) ∧
    ((Operation.insert .blocks ⟨0, 0⟩ ⟨0, 3⟩ (some ⟨1, 0⟩)).perform.run looseEnds).outcome =
      .error .misuse := by
  have hreachable : Reachable looseEnds := (Reachable.empty 0).runAll (by decide)
  obtain ⟨-, hrefused⟩ := foreign_handles_refused hreachable
  refine ⟨hreachable, ?_, ?_, ?_⟩
  · obtain ⟨cause, hout, hcause⟩ := (hrefused (.setOperand ⟨0, 0⟩ 0 ⟨1, 0⟩) rfl (by decide)
      (by decide)).2 (by rintro (⟨⟨⟩, -, -⟩ | _))
    exact ⟨cause, hout, hcause.resolve_right nofun⟩
  · obtain ⟨cause, hout, hcause⟩ := (hrefused
      (.createForm (.unary .not ⟨0, 1⟩ ⟨0, 1⟩) (.before ⟨0, 1⟩)) rfl (by decide) (by decide)).2
      (by rintro (⟨⟨⟩, -, -⟩ | _))
    exact ⟨cause, hout, hcause.resolve_right nofun⟩
  · exact (hrefused (.insert .blocks ⟨0, 0⟩ ⟨0, 3⟩ (some ⟨1, 0⟩)) rfl (by decide)
      (by decide)).1 (.place rfl rfl rfl)

/-- A block before a foreign block and an address for a foreign slot: the handles
are fit for their roles, and neither operation is refused. -/
theorem looseEnds_misuses_foreign_handles :
    Reachable looseEnds ∧
    (Operation.createBlock "c" (some ⟨0, 0⟩) (some ⟨1, 0⟩)).genuine looseEnds ∧
    ((Operation.createBlock "c" (some ⟨0, 0⟩) (some ⟨1, 0⟩)).perform.run looseEnds).outcome =
      .error .misuse ∧
    (Operation.setStorageAddress ⟨1, 0⟩ ⟨0, 5⟩).genuine looseEnds ∧
    ((Operation.setStorageAddress ⟨1, 0⟩ ⟨0, 5⟩).perform.run looseEnds).outcome =
      .error .misuse :=
  ⟨(Reachable.empty 0).runAll (by decide), by decide, rfl, by decide, rfl⟩

end ContractIR
