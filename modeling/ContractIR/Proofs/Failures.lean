import ContractIR.Proofs.Foreign.Handles
import ContractIR.Proofs.Moves
import ContractIR.Proofs.Nesting
/-!
# What an operation that fails leaves

Edits check first and change afterwards, but not all of them in one piece.
Creation adds a value before it asks whether the owner takes it, names the
value after the owner took it, and nests a contract that is already there; an
instruction gets its number before it gets its place, and a run of
instructions is moved one by one. So an edit that fails in the middle would
leave a part of its work.

None does. A new value that its owner took can be named, a new contract can be
nested, an instruction that passed its check has a place, and of instructions
that may be moved none is refused: `Leftover` is all that can be left behind.
-/

namespace ContractIR

open Context

/-- **What a failed edit may leave**: the context as it was, a new value that
nothing knows of, or the number of an instruction that was never there. -/
inductive Leftover (ctx : Context) : Context → Prop
  | nothing : Leftover ctx ctx
  | value {payload : Payload} (fresh : payload.Fresh) : Leftover ctx (ctx.push payload)
  | number : Leftover ctx (ctx.pushInst none)

namespace Leftover

variable {ctx ctx' : Context} {v : ValueId}

/-- Every value that was there is as it was. -/
theorem value?_eq (h : Leftover ctx ctx') (hv : ctx.ownsValue v) :
    ctx'.value? v = ctx.value? v := by
  cases h with
  | nothing => rfl
  | number => rfl
  | value => rw [value?_push, if_neg (ne_nextValue hv)]

/-- So is every instruction, with its neighbours; one that was not there is not
there now. -/
theorem cell?_eq (h : Leftover ctx ctx') : ctx'.cell? = ctx.cell? := by
  cases h with
  | nothing => rfl
  | value => rfl
  | number =>
    funext i
    rw [cell?_pushInst]
    split
    · rename_i hi
      rw [hi, cell?_nextInst]
      rfl
    · rfl

theorem constants_eq (h : Leftover ctx ctx') : ctx'.constants = ctx.constants := by
  cases h <;> rfl

theorem contracts_eq (h : Leftover ctx ctx') : ctx'.contracts = ctx.contracts := by
  cases h <;> rfl

end Leftover

namespace Edit

variable {α β : Type} {ctx : Context} {v owner member source target : ValueId} {i : InstId}
variable {list : MemberList} {name : String} {point : Point}
variable {Q : α → Context → Prop} {E : Fault → Context → Prop}

/-- **An edit that fails cleanly.** -/
def FailsClean (e : Edit α) (ctx : Context) : Prop :=
  e.Ensures (fun _ _ => True) (fun _ c => Leftover ctx c) ctx

theorem FailsClean.map (f : α → β) {e : Edit α} (h : e.FailsClean ctx) :
    (f <$> e).FailsClean ctx :=
  (ensures_map f e).2 h

/-! ## Creation of values -/

/-- A new value is named once its owner took it. -/
theorem failsClean_createMember {payload : Payload} (fresh : payload.Fresh)
    {owner before : Option ValueId} :
    (createMember payload list name owner before).FailsClean ctx := by
  unfold createMember
  refine .check (fun _ => .nothing) fun _ hname => ?_
  simp only [ensures_bind, ensures_newValue]
  have hnamed : ∀ c : Context, c.kind? ctx.nextValue = some payload.kind →
      (setName ctx.nextValue name).Ensures
        (fun _ c => (pure ctx.nextValue : Edit ValueId).Ensures (fun _ _ => True)
          (fun _ c => Leftover ctx c) c) (fun _ c => Leftover ctx c) c :=
    fun c hkind => ensures_setName_of_kind? hkind fresh.kind_ne hname (fun _ _ _ => trivial)
      fun _ _ _ => trivial
  unfold insertInto
  split
  · refine ensures_insertMember (fun _ _ => .value fresh) fun _ _ _ _ _ _ _ _ _ _ => ?_
    refine hnamed _ ?_
    rw [kind?_attached]
    exact kind?_push_nextValue
  · exact Leftover.value fresh
  · exact hnamed _ kind?_push_nextValue

/-- A contract whose name can be spelt is created. It is nested nowhere, so its
name is made unique in no table. -/
theorem ensures_createContract {Q : ValueId → Context → Prop} (fails : ∀ fault, E fault ctx)
    (creates : ∀ c, c.skeleton? = (ctx.push (.contract {})).skeleton? → Q ctx.nextValue c) :
    (createContract name).Ensures Q E ctx := by
  have hnew : (ctx.push (.contract {})).kind? ctx.nextValue = some .contract :=
    kind?_push_nextValue
  unfold createContract
  refine .check fails fun _ hname => ?_
  simp only [ensures_bind, ensures_newValue, ensures_modify, ensures_note, ensures_pure]
  refine ensures_setName_of_kind? hnew (by decide) hname (fun _ _ _ => creates _ rfl)
    fun x _ _ => creates _ ?_
  exact skeleton?_renamed

end Edit

/-- What is not there yet encloses nothing. -/
theorem Rooted.nextValue_not_mem_enclosing {ctx ctx' : Context} (h : Rooted ctx)
    (hm : Membered ctx) {p : ValueId} (hp : ctx.ownsValue p)
    (hparent : ctx'.parent? = ctx.parent?) : ctx.nextValue ∉ ctx'.enclosing p := by
  obtain ⟨vs, hvs⟩ := h.ascends p
  have hsame : ctx'.Ascends p vs := hvs.congr fun w _ => by rw [hparent]
  rw [enclosing, hsame.enclosingUpTo_eq]
  intro hmem
  rcases hvs.mem_iff.1 (List.mem_of_mem_take hmem) with rfl | htrans
  · exact ne_nextValue hp rfl
  · -- It would have a member, and only a value that is there has members.
    obtain ⟨w, hw, -⟩ := Relation.TransGen.head'_iff.1 htrans
    obtain ⟨l, hl⟩ := hm.listed hw
    exact ne_nextValue (ownsValue_of_kind? (kind?_of_mem_members hl)) rfl

/-- **A contract that was just created can be nested** in one that was there
before. -/
theorem Rooted.checkInsertion_nextValue {ctx c : Context} (h : Rooted ctx) (hm : Membered ctx)
    {p : ValueId} (hp : ctx.kind? p = some .contract)
    (hc : c.skeleton? = (ctx.push (.contract {})).skeleton?) :
    c.checkInsertion p .contracts ctx.nextValue none = .ok () := by
  have hparent : c.parent? = ctx.parent? := (parent?_congr hc).trans parent?_push
  have howner : c.kind? p = some .contract := by
    rw [kind?_congr hc, kind?_push_of_kind? hp]
  have hnew : c.kind? ctx.nextValue = some .contract := by
    rw [kind?_congr hc, kind?_push_nextValue]
    rfl
  obtain ⟨o, ho, hok⟩ := Option.map_eq_some_iff.1 howner
  obtain ⟨x, hx, hxk⟩ := Option.map_eq_some_iff.1 hnew
  have hfree : x.parent = none := by
    rw [← parent?_of_value? hx, hparent, parent?, value?_eq_none_of_nextValue]
    rfl
  have hnot := h.nextValue_not_mem_enclosing hm (ownsValue_of_kind? hp) hparent
  have hadmits : c.checkAdmission .contracts p ctx.nextValue = .ok () := by
    unfold checkAdmission
    rw [if_neg fun hboth => hnot hboth.2, if_neg (by decide)]
    rfl
  exact checkInsertion_eq_ok ho hx hok hxk hfree hadmits rfl

namespace Edit

theorem failsClean_createSubcontract (hr : Rooted ctx) (hm : Membered ctx)
    (hfits : ctx.fits .contract owner) : (createSubcontract name owner).FailsClean ctx := by
  unfold createSubcontract
  refine .look (.check (fun _ => .nothing) fun x hx => ?_)
  have hkind : ctx.kind? owner = some .contract := by
    rw [fits, kind?_of_value? (own_eq_ok.1 hx), Option.all_some] at hfits
    rw [kind?_of_value? (own_eq_ok.1 hx), eq_of_beq hfits]
  rw [ensures_bind]
  refine ensures_createContract (fun _ => .nothing) fun c hc => ?_
  rw [ensures_bind]
  refine ensures_insertMember (fun fault herror => ?_) fun _ _ _ _ _ _ _ _ _ _ => trivial
  rw [hr.checkInsertion_nextValue hm hkind hc] at herror
  cases herror

/-! ## Instructions -/

/-- **An instruction that passed its check has a place.** -/
theorem failsClean_createInst (h : Threaded ctx) {op : Opcode} {results operands : List ValueId}
    (hfits : ∀ u ∈ point.uses, ctx.fits u.1 u.2) :
    (createInst op results operands point).FailsClean ctx := by
  unfold createInst
  refine .look (.check (fun _ => .nothing) fun _ _ => .check (fun _ => .nothing) fun _ _ => ?_)
  dsimp only
  split
  · simp only [ensures_bind, ensures_modify, ensures_throw]
    exact .number
  · rename_i hentry
    obtain ⟨b, hb, -⟩ := bind_eq_ok.1 hentry
    obtain ⟨hkind, k, hk⟩ := h.exists_position hb hfits
    rw [ensures_bind, ensures_modify, ensures_bind]
    exact (ensures_place_iff (k := k) (pointBlock_pushInst hb) hkind hk).2 trivial

theorem failsClean_createForm (h : Threaded ctx) {form : Form}
    (hfits : ∀ u ∈ point.uses, ctx.fits u.1 u.2) : (createForm form point).FailsClean ctx :=
  .check (fun _ => .nothing) fun _ _ => failsClean_createInst h hfits

theorem failsClean_transferInsts (h : Threaded ctx) {start stop : Nat}
    (hfits : ∀ u ∈ point.uses, ctx.fits u.1 u.2) :
    (transferInsts source start stop point).FailsClean ctx :=
  (ensures_transferInsts h source start stop hfits).imp (fun _ _ _ => trivial) fun _ _ hsame =>
    hsame ▸ .nothing

end Edit

/-- **Every operation that can be refused fails cleanly.** -/
theorem Operation.failsClean_perform {ctx : Context} (reachable : Reachable ctx)
    {operation : Operation} (fallible : operation.isFallible) (fit : operation.typed ctx) :
    operation.perform.FailsClean ctx := by
  have hthreaded := reachable.threaded
  have hfit : ∀ u ∈ operation.uses, ctx.fits u.1 u.2 := List.all_eq_true.1 fit
  have hsame : ∀ fault : Fault, (fun _ c => Leftover ctx c) fault ctx := fun _ => .nothing
  cases operation with
  | constant | setFlag | setMetadata | propagateCopies | eliminateDeadCode | optimizeFunction
  | optimizeContract => cases fallible
  | createContract name =>
    exact .map _ (Edit.ensures_createContract hsame fun _ _ => trivial)
  | createSubcontract name parent =>
    exact .map _ (Edit.failsClean_createSubcontract reachable.rooted reachable.membered
      (hfit _ List.mem_cons_self))
  | createGlobal | createFunction | createInitFunction | createDepositFunction | createBlock
  | createArgument | createLocal =>
    exact .map _ (Edit.failsClean_createMember (by constructor))
  | insert list owner member before =>
    exact .map _ (Edit.ensures_insertMember (fun _ _ => .nothing)
      fun _ _ _ _ _ _ _ _ _ _ => trivial)
  | detach v =>
    exact .map _ (Edit.ensures_detach hsame fun _ _ _ _ _ _ _ _ _ _ => trivial)
  | transfer list source target start stop before =>
    exact .map _ (Edit.ensures_transferMembers (fun _ hv => reachable.membered.owned hv)
      (fun _ _ => .nothing) fun _ _ _ _ _ _ _ _ _ _ _ _ => trivial)
  | setName v name =>
    exact .map _ (Edit.ensures_setName (fun _ _ => .nothing) (fun _ _ _ => trivial)
      fun _ _ _ _ _ => trivial)
  | setStorageAddress slot address =>
    refine .map _ ?_
    unfold Edit.setStorageAddress
    exact .look (.check hsame fun _ _ => .check hsame fun _ _ => trivial)
  | createInst opcode results operands point =>
    exact .map _ (Edit.failsClean_createInst hthreaded fun u hu =>
      hfit u (List.mem_append_right _ hu))
  | createForm form point =>
    exact .map _ (Edit.failsClean_createForm hthreaded fun u hu =>
      hfit u (List.mem_append_right _ hu))
  | insertInst i point =>
    exact .map _ (Edit.ensures_insertInst hsame fun _ _ _ _ _ _ _ _ _ => trivial)
  | removeInst i => exact .map _ (Edit.ensures_unplace hsame fun _ _ _ _ => trivial)
  | eraseInst i => exact .map _ (Edit.ensures_eraseInst hsame fun _ _ _ _ => trivial)
  | setOperand i index v =>
    exact .map _ (Edit.ensures_setOperand hsame fun _ _ _ _ => trivial)
  | transferInsts source start stop point =>
    exact .map _ (Edit.failsClean_transferInsts hthreaded fun u hu =>
      hfit u (List.mem_cons_of_mem _ hu))

/-- **An operation that fails changes nothing that was there.** Every value of
the context is as it was, in all it consists of, and so is every instruction,
in what it is, whether it is there and what stands next to it; constants and
contracts are the same. At most one value is added, without name or parent or
anything in it, or one number of an instruction is used up. -/
theorem failed_operation_changes_nothing {ctx : Context} (reachable : Reachable ctx)
    {operation : Operation} (fallible : operation.isFallible) (fit : operation.typed ctx)
    {fault : Fault} (fails : (operation.perform.run ctx).outcome = .error fault) :
    ∃ after : Context, (operation.perform.run ctx).context = after ∧
      (∀ v, ctx.ownsValue v → after.value? v = ctx.value? v) ∧
      (∀ i, after.inst? i = ctx.inst? i ∧ after.nextInst? i = ctx.nextInst? i ∧
        after.prevInst? i = ctx.prevInst? i) ∧
      after.constants = ctx.constants ∧ after.contracts = ctx.contracts ∧
      (after = ctx ∨ (∃ payload : Payload, payload.Fresh ∧ after = ctx.push payload) ∨
        after = ctx.pushInst none) := by
  have hleft := (Operation.failsClean_perform reachable fallible fit).of_error fails
  generalize (operation.perform.run ctx).context = after at hleft
  refine ⟨after, rfl, fun v hv => hleft.value?_eq hv, fun i => ?_, hleft.constants_eq,
    hleft.contracts_eq, ?_⟩
  · simp only [inst?, nextInst?, prevInst?, hleft.cell?_eq, and_self]
  · cases hleft with
    | nothing => exact .inl rfl
    | value fresh => exact .inr (.inl ⟨_, fresh, rfl⟩)
    | number => exact .inr (.inr rfl)

/-- Two functions with a block each; the second has a local too. -/
def strangers : Context :=
  Operation.runAll
    [.createFunction true "f" none, .createBlock "a" (some ⟨0, 0⟩) none,
      .createFunction true "g" none, .createBlock "b" (some ⟨0, 2⟩) none,
      .createLocal "x" (some ⟨0, 2⟩)] { id := 0 }

/-- To return the second function's local from the first is refused and costs
a number; to put a new block of the first before the second's block is refused
and costs a value. Both times the first function is as it was. -/
theorem failed_operation_changes_nothing_strangers :
    Reachable strangers ∧
    ((Operation.createForm (.ret [⟨0, 4⟩]) (.atEnd ⟨0, 1⟩)).perform.run strangers).context.value?
      ⟨0, 0⟩ = strangers.value? ⟨0, 0⟩ ∧
    ((Operation.createForm (.ret [⟨0, 4⟩]) (.atEnd ⟨0, 1⟩)).perform.run strangers).context.nextInst
      = ⟨0, 1⟩ ∧ strangers.nextInst = ⟨0, 0⟩ ∧
    ((Operation.createBlock "c" (some ⟨0, 0⟩) (some ⟨0, 3⟩)).perform.run strangers).context.value?
      ⟨0, 0⟩ = strangers.value? ⟨0, 0⟩ ∧
    ((Operation.createBlock "c" (some ⟨0, 0⟩) (some ⟨0, 3⟩)).perform.run
      strangers).context.nextValue = ⟨0, 6⟩ ∧ strangers.nextValue = ⟨0, 5⟩ := by
  have hreachable : Reachable strangers := (Reachable.empty 0).runAll (by decide)
  have hret : ((Operation.createForm (.ret [⟨0, 4⟩]) (.atEnd ⟨0, 1⟩)).perform.run
      strangers).outcome = .error (.refused (.outsider .localVariable "x" .ret "f")) := by rfl
  have hblock : ((Operation.createBlock "c" (some ⟨0, 0⟩) (some ⟨0, 3⟩)).perform.run
      strangers).outcome = .error (.refused (.strangePoint "b" "f")) := by rfl
  obtain ⟨after, rfl, hvalues, -⟩ :=
    failed_operation_changes_nothing hreachable rfl (by decide) hret
  obtain ⟨after', rfl, hvalues', -⟩ :=
    failed_operation_changes_nothing hreachable rfl (by decide) hblock
  exact ⟨hreachable, hvalues _ (by decide), by decide, by decide, hvalues' _ (by decide), by decide,
    by decide⟩

end ContractIR
