import ContractIR.Proofs.Shapes
/-!
# Checks that meet handles of other contexts

An operation is to refuse a handle that another context issued, or the handle
of an instruction that was erased: as an ownership violation, unless a check of
its own comes first. `Fault.Proper` says so of a fault. This file shows that the
checks of a sound context end in no other faults, but for two places where a
value is read before anyone asked whether the context holds it. The member
before which a new one is to be put is looked up in the owner's list, and where
it is not found its name is read for the message; and a storage slot is read
once its address was found to be of the context.
-/

namespace ContractIR

/-- **A proper refusal** of a handle: an ownership violation, or the fault of a
check of the operation's own. -/
def Fault.Proper (own : Except Fault Unit) (fault : Fault) : Prop :=
  ∃ cause, fault = .refused cause ∧
    (cause.kind = .ownershipViolation ∨ own = .error (.refused cause))

namespace Fault.Proper

variable {own : Except Fault Unit} {fault : Fault} {cause : Cause}

theorem ownership (h : cause.kind = .ownershipViolation) : (refused cause).Proper own :=
  ⟨cause, rfl, .inl h⟩

theorem first (h : own = .error fault) (hrefused : fault ≠ .misuse) : fault.Proper own := by
  cases fault with
  | misuse => exact absurd rfl hrefused
  | refused cause => exact ⟨cause, rfl, .inr h⟩

end Fault.Proper

/-! ## Checks that refuse -/

theorem Form.parts_ne_misuse (form : Form) : form.parts ≠ .error .misuse := by
  have hfamily : ∀ {family : Family} {op : Opcode} {p : Parts},
      ofFamily family op p ≠ .error .misuse := by
    intro family op p h
    unfold ofFamily at h
    split at h <;> cases h
  intro h
  cases form with
  | unary | binary | ternary | intrinsic => exact hfamily h
  | log data topics =>
    simp only [parts] at h
    split at h <;> cases h
  | accountCall isStatic status results callee address transfer gas args =>
    cases isStatic <;> cases transfer <;> cases h
  | create status account source transfer args => cases source <;> cases h
  | _ => cases h

namespace Context

variable {ctx : Context} {v b owner member source target : ValueId} {i : InstId}
variable {x : Instruction} {list : MemberList} {point : Point} {own : Except Fault Unit}
variable {fault : Fault}

/-- Whether a handle is of another context. -/
def isForeign (ctx : Context) (v : ValueId) : Bool := v.context != ctx.id

theorem value?_of_isForeign (h : ctx.isForeign v) : ctx.value? v = none :=
  if_neg (bne_iff_ne.1 h)

theorem not_isForeign_of_value? {y : Value} (h : ctx.value? v = some y) : ¬ctx.isForeign v := by
  intro hv
  rw [value?_of_isForeign hv] at h
  cases h

theorem not_isForeign_of_own {x : Value} (h : ctx.own v = .ok x) : ctx.isForeign v = false :=
  Bool.eq_false_iff.2 (not_isForeign_of_value? (own_eq_ok.1 h))

theorem proper_own (h : ctx.own v = .error fault) : fault.Proper own := by
  rw [(own_eq_error.1 h).2]
  exact .ownership rfl

theorem proper_ownInst (h : ctx.ownInst i = .error fault) : fault.Proper own := by
  unfold ownInst at h
  split at h
  · cases h
  · cases h
    exact .ownership rfl

theorem proper_pointBlock (h : ctx.pointBlock point = .error fault) : fault.Proper own := by
  cases point with
  | atEnd b =>
    rcases bind_eq_error.1 h with h | ⟨_, -, h⟩
    · exact proper_own h
    · cases h
  | before i =>
    rcases bind_eq_error.1 h with h | ⟨y, -, h⟩
    · exact proper_ownInst h
    · split at h
      · cases h
      · cases h
        exact .ownership rfl

theorem proper_checkOwned {vs : List ValueId} (h : ctx.checkOwned vs = .error fault) :
    fault.Proper own := by
  obtain ⟨v, -, h⟩ := exists_of_forM_eq_error h
  rcases bind_eq_error.1 h with h | ⟨_, -, h⟩
  · exact proper_own h
  · cases h

theorem checkName_ne_misuse {name : String} : checkName name ≠ .error .misuse := by
  intro h
  unfold checkName at h
  split at h <;> cases h

theorem checkShape_ne_misuse {op : Opcode} {results operands : List ValueId} :
    ctx.checkShape op results operands ≠ .error .misuse := by
  intro h
  unfold checkShape at h
  split at h
  · cases h
  split at h
  · cases h
  split at h <;> cases h

/-! ### Members -/

/-- Instructions of a sound context refer to values it holds, so they are
refused only for what is of another function. -/
theorem proper_checkReferences (hx : ctx.Shaped x) (h : ctx.checkReferences x v = .error fault) :
    fault.Proper own := by
  obtain ⟨w, hw, h⟩ := exists_of_forM_eq_error h
  obtain ⟨y, hy⟩ := Option.isSome_iff_exists.1 (hx.owned w hw)
  unfold checkMember at h
  rw [read_eq_ok.2 hy, ok_bind] at h
  split at h
  · cases h
    exact .ownership rfl
  · cases h

theorem proper_checkAdmission (sound : Sound ctx) (hk : ctx.kind? member = some list.memberKind)
    (h : ctx.checkAdmission list owner member = .error fault) : fault.Proper own := by
  unfold checkAdmission at h
  split at h
  · cases h
    exact .ownership rfl
  · split at h
    · rename_i hblocks
      subst hblocks
      rw [readBody_eq_ok.2 ⟨hk, rfl⟩, ok_bind] at h
      obtain ⟨i, hi, h⟩ := exists_of_forM_eq_error h
      obtain ⟨x, hx, -⟩ := blockOf?_eq_some.1 (sound.threaded.mem_iff.1 hi)
      rw [readInst_eq_ok.2 hx, ok_bind] at h
      exact proper_checkReferences (sound.shaped.shaped hx) h
    · cases h

/-- Refuses an owner or a member of the wrong kind for the list, once the
context is known to hold both. -/
def checkKinds (ctx : Context) (list : MemberList) (owner member : ValueId) : Except Fault Unit :=
  match ctx.kind? owner, ctx.kind? member with
  | some o, some m =>
    if o ≠ list.ownerKind ∨ m ≠ list.memberKind then refuse (.cannotHold o m list) else .ok ()
  | _, _ => .ok ()

theorem proper_checkPair (h : ctx.checkPair owner list member = .error fault) :
    fault.Proper (ctx.checkKinds list owner member) := by
  rcases bind_eq_error.1 h with h | ⟨o, ho, h⟩
  · exact proper_own h
  rcases bind_eq_error.1 h with h | ⟨m, hm, h⟩
  · exact proper_own h
  split at h
  · rename_i hkinds
    cases h
    refine .first ?_ nofun
    unfold checkKinds
    rw [kind?_of_value? (own_eq_ok.1 ho), kind?_of_value? (own_eq_ok.1 hm)]
    exact if_pos hkinds
  · cases h

/-- Foreign owners and members are noticed before anything else. -/
theorem exists_checkPair_of_isForeign (h : ctx.isForeign owner ∨ ctx.isForeign member) :
    ∃ w, ctx.checkPair owner list member = .error (.refused (.foreignValue w)) := by
  unfold checkPair
  cases ho : ctx.own owner with
  | error fault =>
    obtain rfl := (own_eq_error.1 ho).2
    exact ⟨owner, rfl⟩
  | ok o =>
    have hmember := h.resolve_left (not_isForeign_of_value? (own_eq_ok.1 ho))
    rw [ok_bind, own_eq_error.2 ⟨value?_of_isForeign hmember, rfl⟩]
    exact ⟨member, rfl⟩

/-- An insertion at the end is refused, if it is. -/
theorem proper_checkInsertion (sound : Sound ctx)
    (h : ctx.checkInsertion owner list member none = .error fault) :
    fault.Proper (ctx.checkKinds list owner member) := by
  rcases bind_eq_error.1 h with h | ⟨_, hpair, h⟩
  · exact proper_checkPair h
  obtain ⟨-, m, -, hm, -, hmk⟩ := checkPair_eq_ok hpair
  rw [read_eq_ok.2 hm, ok_bind] at h
  split at h
  · cases h
    exact .ownership rfl
  · rcases bind_eq_error.1 h with h | ⟨_, -, h⟩
    · exact proper_checkAdmission sound (hmk ▸ kind?_of_value? hm) h
    · cases h

/-- So is a transfer to the end between owners of the right kind. -/
theorem proper_checkTransfer (sound : Sound ctx) {start stop : Nat}
    (hs : ∀ s, ctx.value? source = some s → s.kind = list.ownerKind)
    (ht : ∀ t, ctx.value? target = some t → t.kind = list.ownerKind)
    (h : ctx.checkTransfer list source target start stop none = .error fault) :
    fault.Proper (if source = target then refuse .sameList else .ok ()) := by
  rcases bind_eq_error.1 h with h | ⟨s, hown, h⟩
  · exact proper_own h
  replace hs := hs s (own_eq_ok.1 hown)
  rcases bind_eq_error.1 h with h | ⟨t, hown, h⟩
  · exact proper_own h
  replace ht := ht t (own_eq_ok.1 hown)
  dsimp only at h
  by_cases hne : source = target
  · rw [if_pos hne] at h ⊢
    cases h
    exact .first rfl nofun
  rw [if_neg hne, if_neg (not_not.2 hs), if_neg (not_not.2 ht)] at h
  split at h
  · cases h
    exact .ownership rfl
  rcases bind_eq_error.1 h with h | ⟨_, -, h⟩
  · obtain ⟨v, hv, h⟩ := exists_of_forM_eq_error h
    exact proper_checkAdmission sound (sound.membered.kind (Sequence.mem_of_mem_slice hv)) h
  · cases h

/-- Once its kind, its owner and its place are in order, an insertion ends as
the check of the admission does. -/
theorem checkInsertion_eq_checkAdmission {before : Option ValueId} {o m : Value} {k : Nat}
    (ho : ctx.value? owner = some o) (hm : ctx.value? member = some m)
    (hok : o.kind = list.ownerKind) (hmk : m.kind = list.memberKind) (hfree : m.parent = none)
    (hk : ctx.insertionIndex owner list before = .ok k) :
    ctx.checkInsertion owner list member before = ctx.checkAdmission list owner member := by
  unfold checkInsertion checkPair
  simp only [own_eq_ok.2 ho, own_eq_ok.2 hm, read_eq_ok.2 hm, ok_bind, hok, hmk, hfree, hk,
    ne_eq, not_true_eq_false, or_self, if_false]
  cases ctx.checkAdmission list owner member <;> rfl

theorem checkInsertion_eq_ok {before : Option ValueId} {o m : Value} {k : Nat}
    (ho : ctx.value? owner = some o) (hm : ctx.value? member = some m)
    (hok : o.kind = list.ownerKind) (hmk : m.kind = list.memberKind) (hfree : m.parent = none)
    (hentry : ctx.checkAdmission list owner member = .ok ())
    (hk : ctx.insertionIndex owner list before = .ok k) :
    ctx.checkInsertion owner list member before = .ok () :=
  (checkInsertion_eq_checkAdmission ho hm hok hmk hfree hk).trans hentry

/-- **A value that was just created can be put into every list for its kind**,
if it is no contract. -/
theorem checkInsertion_of_fresh {before : Option ValueId} {m : Value} {k : Nat}
    (fresh : m.payload.Fresh) (hkind : m.payload.kind = list.memberKind) (hflat : list ≠ .contracts)
    (howner : ctx.kind? owner = some list.ownerKind) (hm : ctx.value? member = some m)
    (hfree : m.parent = none) (hk : ctx.insertionIndex owner list before = .ok k) :
    ctx.checkInsertion owner list member before = .ok () := by
  obtain ⟨o, ho, hok⟩ := Option.map_eq_some_iff.1 howner
  have hadmits : ctx.checkAdmission list owner member = .ok () := by
    unfold checkAdmission
    rw [if_neg fun hboth => hflat hboth.1]
    split
    · -- A block that was just created has an empty body.
      rename_i hblocks
      have hempty : ctx.body member = [] := by
        rw [body, block, hm]
        obtain ⟨payload, _, _⟩ := m
        cases fresh <;> rfl
      have hblock : ctx.kind? member = some .block := by
        rw [kind?_of_value? hm, Value.kind, hkind, hblocks]
        rfl
      rw [readBody_eq_ok.2 ⟨hblock, hempty⟩]
      rfl
    · rfl
  exact checkInsertion_eq_ok ho hm hok hkind hfree hadmits hk

theorem checkTransfer_eq_ok {before : Option ValueId} {s t : Value} {start stop k : Nat}
    (hs : ctx.value? source = some s) (ht : ctx.value? target = some t) (hne : source ≠ target)
    (hsk : s.kind = list.ownerKind) (htk : t.kind = list.ownerKind) (horder : start ≤ stop)
    (hbound : stop ≤ (ctx.members source list).length)
    (hentry : ctx.checkAdmissions list target
      (Sequence.slice start stop (ctx.members source list)) = .ok ())
    (hk : ctx.insertionIndex target list before = .ok k) :
    ctx.checkTransfer list source target start stop before = .ok () := by
  unfold checkTransfer
  simp [own_eq_ok.2 hs, own_eq_ok.2 ht, ok_bind, hne, hsk, htk, Nat.not_lt.2 horder,
    Nat.not_lt.2 hbound, hentry, hk]

/-! ### Places before foreign members -/

/-- A foreign member is in no list, and its name cannot be read for the
message. -/
theorem insertionIndex_of_isForeign (h : Membered ctx) (hb : ctx.isForeign b) :
    ctx.insertionIndex owner list (some b) = .error .misuse := by
  have hnot : b ∉ ctx.members owner list := by
    intro hmem
    obtain ⟨y, hy⟩ := Option.isSome_iff_exists.1 (ownsValue_of_kind? (h.kind hmem))
    exact not_isForeign_of_value? hy hb
  unfold insertionIndex Context.read
  simp only [List.idxOf?_eq_none_iff.2 hnot, value?_of_isForeign hb]
  rfl

theorem checkInsertion_of_isForeign (h : Membered ctx) (hb : ctx.isForeign b) :
    ctx.checkInsertion owner list member (some b) =
      (ctx.checkInsertion owner list member none >>= fun _ => .error .misuse) := by
  unfold checkInsertion
  simp only [insertionIndex_of_isForeign h hb, bind_assoc]
  cases ctx.checkPair owner list member with
  | error _ => rfl
  | ok _ =>
    cases ctx.read member with
    | error _ => rfl
    | ok x =>
      simp only [ok_bind]
      cases x.parent with
      | some _ => rfl
      | none => cases ctx.checkAdmission list owner member <;> rfl

theorem checkTransfer_of_isForeign (h : Membered ctx) (hb : ctx.isForeign b) {start stop : Nat} :
    ctx.checkTransfer list source target start stop (some b) =
      (ctx.checkTransfer list source target start stop none >>= fun _ => .error .misuse) := by
  unfold checkTransfer
  simp only [insertionIndex_of_isForeign h hb, bind_assoc]
  cases ctx.own source with
  | error _ => rfl
  | ok s =>
    cases ctx.own target with
    | error _ => rfl
    | ok t =>
      simp only [ok_bind]
      -- A transfer that is refused for its owners or its range is refused the same way.
      split
      · rfl
      split
      · rfl
      split
      · rfl
      split
      · rfl
      cases ctx.checkAdmissions list target (Sequence.slice start stop (ctx.members source list))
        <;> rfl

end Context

/-! ## How edits of members end -/

namespace Edit

open Context

variable {ctx : Context} {owner member source target : ValueId} {list : MemberList}
variable {before : Option ValueId} {name : String}

/-- An insertion ends as its checks do. -/
theorem outcome_insertMember :
    ((insertMember owner list member before).run ctx).outcome =
      ctx.checkInsertion owner list member before := by
  refine Ensures.outcome_eq (ensures_insertMember (fun _ h => h) ?_)
  intro o m k ho hm hok hmk hfree hentry hk
  exact checkInsertion_eq_ok ho hm hok hmk hfree hentry hk

/-- So does a transfer of members that the context holds. -/
theorem outcome_transferMembers (h : Membered ctx) {start stop : Nat} :
    ((transferMembers list source target start stop before).run ctx).outcome =
      ctx.checkTransfer list source target start stop before := by
  refine Ensures.outcome_eq (ensures_transferMembers ?_ (fun _ h => h) ?_)
  · exact fun v hv => ownsValue_of_kind? (h.kind hv)
  · intro s t k hs ht hne hsk htk horder hbound hentry hk
    exact checkTransfer_eq_ok hs ht hne hsk htk horder hbound hentry hk

/-- A block is created in a function if its name can be spelt and the new value
can be put in: the name is then given without fail. -/
theorem outcome_createBlock :
    ((createBlock name (some owner) before).run ctx).outcome = (do
      checkName name
      (ctx.push (.block {})).checkInsertion owner .blocks ctx.nextValue before
      return ctx.nextValue) := by
  refine Ensures.outcome_eq ?_
  unfold createBlock createMember
  refine .inspect (fun fault h => bind_eq_error.2 (.inl h)) fun _ hname => ?_
  rw [hname]
  simp only [ok_bind, ensures_bind, ensures_newValue]
  refine ensures_insertMember (fun fault h => bind_eq_error.2 (.inl h)) ?_
  intro o m k ho hm hok hmk hfree hentry hindex
  rw [checkInsertion_eq_ok ho hm hok hmk hfree hentry hindex]
  have hkind : ((ctx.push (.block {})).attached owner .blocks ctx.nextValue k).kind?
      ctx.nextValue = some .block := by
    rw [kind?_attached, kind?_of_value? hm, hmk]
    rfl
  -- A block is no constant, and its name was found in order before it was created.
  exact ensures_setName_of_kind? hkind (by decide) hname (fun _ _ _ => rfl) fun _ _ _ => rfl

/-- A foreign slot is read once the address was found to be of the context. -/
theorem outcome_setStorageAddress {slot address : ValueId} {x : Value}
    (hslot : ctx.isForeign slot) (haddress : ctx.value? address = some x) :
    ((setStorageAddress slot address).run ctx).outcome = .error .misuse := by
  have hread : ctx.read slot = .error .misuse := by
    rw [Context.read, value?_of_isForeign hslot]
    rfl
  refine Ensures.outcome_eq ?_
  unfold setStorageAddress
  simp only [ensures_bind, ensures_context, ensures_liftM, own_eq_ok.2 haddress, hread,
    reduceCtorEq, false_implies, implies_true, and_true, true_and]
  exact fun _ _ _ h => congrArg Except.error (Except.error.inj h)

end Edit

end ContractIR
