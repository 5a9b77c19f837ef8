import Mathlib.Logic.Relation
import ContractIR.Operation
import ContractIR.Proofs.Belonging
/-!
# How contexts evolve

`Change` lists everything that ever happens to a context, one constructor
per effect, each under the conditions its edit has checked by then, and with
the values it takes away from their owners. Every operation amounts to such
changes (`evolves_perform`), however it ends: detaching and transfers to one
that takes values away, all others to a sequence that takes none. So what no
change can break holds of every reachable context. A sequence never adds a
constant; only a request for one does (`constants_perform`). Nor does anything
but creation take the number of an instruction (`nextInst_perform`).
-/

namespace ContractIR

/-- Payloads as creation gives them: nothing is in them yet. -/
inductive Payload.Fresh : Payload → Prop
  | contract : Fresh (.contract {})
  | global : Fresh (.global none)
  | function (isPublic isInit isDeposit : Bool) :
      Fresh (.function { isPublic, isInit, isDeposit })
  | block : Fresh (.block {})
  | localVariable : Fresh .localVariable
  | argument : Fresh .argument

theorem Payload.Fresh.kind_ne {payload : Payload} (fresh : payload.Fresh) :
    payload.kind ≠ .constant := by
  cases fresh <;> nofun

/-- The address of a storage slot. -/
def Value.address? (x : Value) : Option ValueId :=
  match x.payload with
  | .global address => address
  | _ => none

/-- Changes to flags, metadata and addresses: what else a value is stays, and
a constant stays altogether. -/
structure Value.AttributeChange (f : Value → Value) : Prop where
  skeleton : ∀ x, (f x).skeleton = x.skeleton
  name : ∀ x, (f x).name = x.name
  symbols : ∀ x, (f x).symbols? = x.symbols?
  constant : ∀ x, x.kind = .constant → f x = x

/-- **An instruction as creation lets it through**: the counts fit the
opcode, everything it refers to is of the context, what it writes are
locals, and a branch ends in a block. -/
structure Context.Shaped (ctx : Context) (x : Instruction) : Prop where
  results : x.opcode.shape.results.accepts x.results.length
  operands : x.opcode.shape.operands.accepts x.operands.length
  owned : ∀ v ∈ x.references, ctx.ownsValue v
  locals : ∀ v ∈ x.results, ctx.isLocal v
  target : x.opcode = .br → ∀ v, x.operands.getLast? = some v → ctx.kind? v = some .block

/-- **Everything that can happen to a context**, with the values it takes away
from their owners. -/
inductive Change (ctx : Context) : List ValueId → Context → Prop
  /-- A constant is asked for. -/
  | intern (n : Int) (hex : Bool) : Change ctx [] (ctx.intern n hex).2
  /-- A value is created. -/
  | push {payload : Payload} (fresh : payload.Fresh) : Change ctx [] (ctx.push payload)
  /-- A contract is listed. -/
  | enlist (c : ValueId) : Change ctx [] { ctx with contracts := ctx.contracts ++ [c] }
  /-- A value is renamed. -/
  | rename {v : ValueId} {x : Value} {name : String} (value : ctx.value? v = some x)
      (nameable : x.kind ≠ .constant) (spelling : '\x00' ∉ name.toList) (other : x.label ≠ name) :
      Change ctx [] (ctx.renamed v x name)
  /-- A value without parent becomes a member. -/
  | attach {owner member : ValueId} {list : MemberList} {before : Option ValueId} {o m : Value}
      {k : Nat} (owner_value : ctx.value? owner = some o)
      (member_value : ctx.value? member = some m) (owner_kind : o.kind = list.ownerKind)
      (member_kind : m.kind = list.memberKind) (free : m.parent = none)
      (admitted : ctx.checkAdmission list owner member = .ok ())
      (position : ctx.insertionIndex owner list before = .ok k) :
      Change ctx [] (ctx.attached owner list member k)
  /-- A member is taken away from its parent. -/
  | detach {owner member : ValueId} {list : MemberList} {o m : Value}
      (owner_value : ctx.value? owner = some o) (member_value : ctx.value? member = some m)
      (parent : m.parent = some owner) (owner_kind : o.kind = list.ownerKind)
      (member_kind : m.kind = list.memberKind) (mem : member ∈ ctx.members owner list) :
      Change ctx [member] (ctx.detached owner list member)
  /-- A run of members goes to another owner. -/
  | transfer {list : MemberList} {source target : ValueId} {start stop k : Nat}
      {before : Option ValueId} {s t : Value} (source_value : ctx.value? source = some s)
      (target_value : ctx.value? target = some t) (other : source ≠ target)
      (source_kind : s.kind = list.ownerKind) (target_kind : t.kind = list.ownerKind)
      (order : start ≤ stop) (bound : stop ≤ (ctx.members source list).length)
      (admitted : ctx.checkAdmissions list target
        (Sequence.slice start stop (ctx.members source list)) = .ok ())
      (position : ctx.insertionIndex target list before = .ok k) :
      Change ctx (Sequence.slice start stop (ctx.members source list))
        (ctx.transferred list source target start stop k)
  /-- A flag, metadata or an address is set. -/
  | annotate {v : ValueId} {f : Value → Value} (only : Value.AttributeChange f)
      (addresses : ∀ x a, (f x).address? = some a → x.address? = some a ∨ ctx.ownsValue a) :
      Change ctx [] (ctx.update v f)
  /-- The number of an instruction is used up. -/
  | waste : Change ctx [] (ctx.pushInst none)
  /-- An instruction is created. -/
  | create {x : Instruction} (shaped : ctx.Shaped x) (free : x.block = none) :
      Change ctx [] (ctx.pushInst (some x))
  /-- An instruction that is in no block is placed. -/
  | place {i : InstId} {x : Instruction} {b : ValueId} {k : Nat} (live : ctx.inst? i = some x)
      (free : x.block = none) (block : ctx.kind? b = some .block)
      (bound : k ≤ (ctx.body b).length) (entry : ctx.Admits b x) :
      Change ctx [] (ctx.placed i b k)
  /-- An instruction goes to a block that can take it, or to one of the
  function it is in. -/
  | move {i : InstId} {x : Instruction} {b c : ValueId} {k : Nat} (live : ctx.inst? i = some x)
      (block : x.block = some b) (target : ctx.kind? c = some .block)
      (bound : k ≤ ((ctx.unplaced i b).body c).length)
      (entry : ctx.Admits c x ∨ ∃ source, i ∈ ctx.body source ∧
        ctx.parentOfKind? .function source = ctx.parentOfKind? .function c) :
      Change ctx [] ((ctx.unplaced i b).placed i c k)
  /-- An instruction is taken out of its block. -/
  | unplace {i : InstId} {x : Instruction} {b : ValueId} (live : ctx.inst? i = some x)
      (block : x.block = some b) : Change ctx [] (ctx.unplaced i b)
  /-- An instruction that is in no block is destroyed. -/
  | destroy {i : InstId} {x : Instruction} (live : ctx.inst? i = some x) (free : x.block = none) :
      Change ctx [] (ctx.destroyed i)
  /-- An operand is replaced. -/
  | setOperand {i : InstId} {x : Instruction} {index : Nat} {v : ValueId}
      (live : ctx.inst? i = some x) (owned : ctx.ownsValue v)
      (checked : ctx.checkOperand x index v = .ok ()) : Change ctx [] (ctx.withOperand i index v)

/-- One context arises from another by changes that take nothing away and leave
the constants as they are. -/
def Evolves : Context → Context → Prop :=
  Relation.ReflTransGen fun c c' => Change c [] c' ∧ c'.constants = c.constants

namespace Evolves

variable {ctx ctx' ctx'' : Context}

theorem refl (ctx : Context) : Evolves ctx ctx := Relation.ReflTransGen.refl

theorem tail (h : Evolves ctx ctx') (hc : Change ctx' [] ctx'')
    (same : ctx''.constants = ctx'.constants) : Evolves ctx ctx'' :=
  Relation.ReflTransGen.tail h ⟨hc, same⟩

theorem trans (h : Evolves ctx ctx') (h' : Evolves ctx' ctx'') : Evolves ctx ctx'' :=
  Relation.ReflTransGen.trans h h'

theorem single (hc : Change ctx [] ctx') (same : ctx'.constants = ctx.constants) :
    Evolves ctx ctx' :=
  Relation.ReflTransGen.single ⟨hc, same⟩

/-- **What no change breaks stays.** -/
theorem keeps {P : Context → Prop} (step : ∀ {c c'}, P c → Change c [] c' → P c') (hP : P ctx)
    (h : Evolves ctx ctx') : P ctx' := by
  induction h with
  | refl => exact hP
  | tail _ hc ih => exact step ih hc.1

theorem constants_eq (h : Evolves ctx ctx') : ctx'.constants = ctx.constants := by
  induction h with
  | refl => rfl
  | tail _ hc ih => exact hc.2.trans ih

end Evolves

/-- **Adjustments**: changes that take nothing away, leave the constants and
make no instruction. -/
structure Adjusts (ctx ctx' : Context) : Prop where
  evolves : Evolves ctx ctx'
  nextInst : ctx'.nextInst = ctx.nextInst

namespace Adjusts

variable {ctx ctx' ctx'' : Context}

theorem refl (ctx : Context) : Adjusts ctx ctx := ⟨.refl ctx, rfl⟩

theorem trans (h : Adjusts ctx ctx') (h' : Adjusts ctx' ctx'') : Adjusts ctx ctx'' :=
  ⟨h.evolves.trans h'.evolves, h'.nextInst.trans h.nextInst⟩

theorem single (hc : Change ctx [] ctx') (constants : ctx'.constants = ctx.constants)
    (nextInst : ctx'.nextInst = ctx.nextInst) : Adjusts ctx ctx' :=
  ⟨.single hc constants, nextInst⟩

/-- A change to values and instructions that are there. -/
theorem within (hc : Change ctx [] ctx')
    (same : ∀ {α : Type} {g : Context → α}, Context.Untouched g → g ctx' = g ctx) :
    Adjusts ctx ctx' :=
  single hc (same .constants) (same .nextInst)

end Adjusts

namespace Edit

open Context

variable {α β : Type} {ctx : Context}

/-- An edit that amounts to changes, however it ends. -/
def Evolving (e : Edit α) (ctx : Context) : Prop :=
  e.Ensures (fun _ c => Evolves ctx c) (fun _ c => Evolves ctx c) ctx

theorem Evolving.evolves {e : Edit α} (h : e.Evolving ctx) : Evolves ctx (e.run ctx).context :=
  h.context_of

theorem evolving_map (f : α → β) {e : Edit α} (h : e.Evolving ctx) : (f <$> e).Evolving ctx := by
  unfold Evolving at h ⊢
  rw [ensures_map]
  exact h

/-- An edit that amounts to adjustments, however it ends. -/
def Adjusting (e : Edit α) (ctx : Context) : Prop :=
  e.Ensures (fun _ c => Adjusts ctx c) (fun _ c => Adjusts ctx c) ctx

theorem Adjusting.adjusts {e : Edit α} (h : e.Adjusting ctx) : Adjusts ctx (e.run ctx).context :=
  h.context_of

/-- An edit that amounts to adjustments may be followed by others that do. -/
theorem Adjusting.bind {e : Edit α} {f : α → Edit β} (h : e.Adjusting ctx)
    (hf : ∀ a c, (f a).Adjusting c) : (e >>= f).Adjusting ctx := by
  unfold Adjusting at h ⊢
  rw [ensures_bind]
  refine h.imp (fun a c hc => ?_) fun _ _ hc => hc
  exact (hf a c).imp (fun _ _ hc' => hc.trans hc') fun _ _ hc' => hc.trans hc'

theorem adjusting_pure (a : α) : (pure a : Edit α).Adjusting ctx := Adjusts.refl ctx

theorem adjusting_note (e : Event) : (note e).Adjusting ctx := Adjusts.refl ctx

theorem adjusting_refuse (c : Cause) : (refuse c : Edit α).Adjusting ctx := Adjusts.refl ctx

theorem adjusting_liftM (x : Except Fault α) : (liftM x : Edit α).Adjusting ctx := by
  unfold Adjusting
  rw [ensures_liftM]
  exact ⟨fun _ _ => Adjusts.refl ctx, fun _ _ => Adjusts.refl ctx⟩

theorem adjusting_liftM_report (r : Report α) : (liftM r : Edit α).Adjusting ctx := by
  unfold Adjusting
  rw [ensures_liftM_report]
  exact ⟨fun _ _ => Adjusts.refl ctx, fun _ _ => Adjusts.refl ctx⟩

/-- An edit that first looks at the context. -/
theorem adjusting_context_bind {f : Context → Edit α} (h : (f ctx).Adjusting ctx) :
    (context >>= f).Adjusting ctx := h

theorem adjusting_map (f : α → β) {e : Edit α} (h : e.Adjusting ctx) : (f <$> e).Adjusting ctx := by
  unfold Adjusting at h ⊢
  rw [ensures_map]
  exact h

/-! ## The single edits -/

theorem adjusting_setName (v : ValueId) (name : String) : (setName v name).Adjusting ctx :=
  ensures_setName (fun _ _ => Adjusts.refl ctx) (fun _ _ _ => Adjusts.refl ctx)
    fun _ hx hkind hnul hother =>
      Adjusts.within (.rename hx hkind hnul hother) fun h => h.renamed

theorem adjusting_insertMember (owner : ValueId) (list : MemberList) (member : ValueId)
    (before : Option ValueId) : (insertMember owner list member before).Adjusting ctx :=
  ensures_insertMember (fun _ _ => Adjusts.refl ctx) fun _ _ _ ho hm hok hmk hfree hadmit hk =>
    Adjusts.within (.attach ho hm hok hmk hfree hadmit hk) fun h => h.attached

theorem adjusting_setOperand (i : InstId) (index : Nat) (v : ValueId) :
    (setOperand i index v).Adjusting ctx :=
  ensures_setOperand (fun _ => Adjusts.refl ctx) fun _ howned hx hcheck =>
    Adjusts.within (.setOperand hx howned hcheck) fun h => h.withOperand

theorem adjusting_unplace (i : InstId) : (unplace i).Adjusting ctx :=
  ensures_unplace (fun _ => Adjusts.refl ctx) fun _ _ hx hb =>
    Adjusts.within (.unplace hx hb) fun h => h.unplaced

theorem adjusting_eraseInst (i : InstId) : (eraseInst i).Adjusting ctx := by
  refine ensures_eraseInst (fun _ => Adjusts.refl ctx) fun x b hx hb => ?_
  exact (Adjusts.within (.unplace hx hb) fun h => h.unplaced).trans
    (.within (.destroy (inst?_unplaced_self hx) rfl) fun h => h.destroyed)

theorem adjusting_insertInst (i : InstId) (point : Point) : (insertInst i point).Adjusting ctx :=
  ensures_insertInst (fun _ => Adjusts.refl ctx) fun _ _ _ hx hfree _ hentry hkind hk =>
    Adjusts.within
      (.place hx hfree hkind (Sequence.position?_le hk) (checkEntry_eq_ok.1 hentry))
      fun h => h.placed

/-- A local's handle that the context holds is a local. -/
theorem isLocal_of_fits {v : ValueId} (hfits : ctx.fits .localValue v) (howns : ctx.ownsValue v) :
    ctx.isLocal v := by
  obtain ⟨x, hx⟩ := Option.isSome_iff_exists.1 howns
  simp only [fits, kind?, hx, Option.map_some, Option.all_some] at hfits
  simp only [isLocal, kind?, hx, Option.map_some, Option.any_some]
  exact hfits

theorem evolving_createInst {op : Opcode} {results operands : List ValueId} {point : Point}
    (typed : ∀ v ∈ results, ctx.fits .localValue v) :
    (createInst op results operands point).Evolving ctx := by
  have hcreate : ctx.checkOwned (results ++ operands) = .ok () →
      ctx.checkShape op results operands = .ok () →
      Change ctx [] (ctx.pushInst (some { opcode := op, results, operands })) := by
    intro howned hshape
    have howns := ownsValue_of_checkOwned howned
    obtain ⟨hresults, hoperands, htarget⟩ := of_checkShape hshape
    refine .create ⟨hresults, hoperands, howns, fun v hv => ?_, htarget⟩ rfl
    exact isLocal_of_fits (typed v hv) (howns v (List.mem_append_left operands hv))
  refine ensures_createInst (fun _ => Evolves.refl ctx) (fun _ => Evolves.single .waste rfl)
    (fun howned hshape _ => Evolves.single (hcreate howned hshape) rfl)
    fun b k howned hshape hentry _ hkind hk => ?_
  have hlive : (ctx.pushInst (some { opcode := op, results, operands })).inst? ctx.nextInst =
      some { opcode := op, results, operands } := by
    rw [inst?_pushInst, if_pos rfl]
  exact (Evolves.single (hcreate howned hshape) rfl).tail
    (.place hlive rfl hkind (Sequence.position?_le hk)
      (SameMembers.pushInst.admits (checkEntry_eq_ok.1 hentry))) Untouched.constants.placed

/-- Instructions that may go to a block are moved there one after the other. -/
theorem adjusting_moveInsts {point : Point} {target : ValueId} (is : List InstId) :
    ∀ {ctx : Context}, ctx.pointBlock point = .ok target →
      (∀ j, point.follower? = some j → j ∉ is) → ctx.Transferable is target →
      (moveInsts point is).Adjusting ctx := by
  induction is with
  | nil => intro ctx _ _ _; exact adjusting_pure ()
  | cons i is ih =>
    intro ctx hpoint hfollower hmay
    unfold moveInsts Adjusting
    rw [ensures_bind]
    refine ensures_unplace (fun _ => Adjusts.refl ctx) fun x b hx hb => ?_
    -- The instruction behind the point is none of those that go.
    have hfixed : ∀ j, point.follower? = some j → j ≠ i := by
      rintro j hj rfl
      exact hfollower j hj List.mem_cons_self
    have hpoint' : (ctx.unplaced i b).pointBlock point = .ok target :=
      pointBlock_congr SameMembers.unplaced.ownsValue
        (fun j hj => by rw [inst?_unplaced hx, if_neg (hfixed j hj)]) hpoint
    rw [ensures_bind]
    refine ensures_place (fun _ => Adjusts.within (.unplace hx hb) fun h => h.unplaced)
      fun c k hc hkind hk => ?_
    obtain rfl : target = c := Except.ok.inj (hpoint'.symm.trans hc)
    rw [SameMembers.unplaced.kind] at hkind
    have hmoved : Adjusts ctx ((ctx.unplaced i b).placed i target k) :=
      Adjusts.within (.move hx hb hkind (Sequence.position?_le hk) (hmay.head hx))
        fun h => h.placed.trans h.unplaced
    have hpoint'' : ((ctx.unplaced i b).placed i target k).pointBlock point = .ok target :=
      pointBlock_congr (SameMembers.placed.trans .unplaced).ownsValue
        (fun j hj => by rw [inst?_moved hx, if_neg (hfixed j hj)]) hpoint
    refine (ih hpoint'' (fun j hj hmem => ?_) (hmay.tail hx hkind)).imp
      (fun _ _ h => hmoved.trans h) fun _ _ h => hmoved.trans h
    exact hfollower j hj (List.mem_cons_of_mem i hmem)

theorem adjusting_transferInsts (source : ValueId) (start stop : Nat) (point : Point) :
    (transferInsts source start stop point).Adjusting ctx := by
  have hsame : ∀ fault : Fault, (fun _ c => Adjusts ctx c) fault ctx := fun _ => Adjusts.refl ctx
  unfold transferInsts
  refine .look (.check hsame fun _ _ => .check hsame fun target htarget => ?_)
  refine .check hsame fun is his => ?_
  dsimp only
  split
  · exact adjusting_refuse _
  · split
    · exact adjusting_refuse _
    · rename_i hfollower
      refine .check hsame fun _ hmove => adjusting_moveInsts _ htarget (fun j hj hmem => ?_) ?_
      · rw [hj] at hfollower
        exact hfollower (by simpa using hmem)
      · refine transferable_of_checkMove hmove ?_
        rw [(readBody_eq_ok.1 his).2]
        exact (Sequence.slice_sublist start stop is).subperm

/-! ## Creation of values -/

theorem adjusting_newValue {payload : Payload} (fresh : payload.Fresh) :
    (newValue payload).Adjusting ctx := by
  unfold Adjusting
  rw [ensures_newValue]
  exact Adjusts.single (.push fresh) rfl rfl

theorem adjusting_createContract (name : String) : (createContract name).Adjusting ctx := by
  unfold createContract
  refine (adjusting_liftM _).bind fun _ _ => (adjusting_newValue .contract).bind fun c _ => ?_
  refine (adjusting_setName _ _).bind fun _ c' => ?_
  have henlist : (modify fun ctx => { ctx with contracts := ctx.contracts ++ [c] }).Adjusting c' :=
    Adjusts.single (.enlist c) rfl rfl
  exact henlist.bind fun _ _ => (adjusting_note _).bind fun _ _ => adjusting_pure _

theorem adjusting_createSubcontract (name : String) (parent : ValueId) :
    (createSubcontract name parent).Adjusting ctx := by
  unfold createSubcontract
  refine adjusting_context_bind ((adjusting_liftM _).bind fun _ _ => ?_)
  refine (adjusting_createContract name).bind fun _ _ => ?_
  exact (adjusting_insertMember _ _ _ _).bind fun _ _ => adjusting_pure _

theorem adjusting_createMember {payload : Payload} (fresh : payload.Fresh) (list : MemberList)
    (name : String) (owner before : Option ValueId) :
    (createMember payload list name owner before).Adjusting ctx := by
  unfold createMember
  refine (adjusting_liftM _).bind fun _ _ => (adjusting_newValue fresh).bind fun v c => ?_
  have hinsert : (insertInto owner list v before).Adjusting c := by
    unfold insertInto
    split
    · exact adjusting_insertMember _ _ _ _
    · exact adjusting_refuse _
    · exact adjusting_pure _
  exact hinsert.bind fun _ _ => (adjusting_setName _ _).bind fun _ _ => adjusting_pure _

/-! ## Attributes -/

theorem adjusting_setFlag (function : ValueId) (flag : FunctionFlag) (value : Bool) :
    (setFlag function flag value).Adjusting ctx := by
  unfold setFlag
  refine adjusting_context_bind ((adjusting_liftM _).bind fun _ _ =>
    Adjusts.within (.annotate ?_ ?_) fun h => h.update)
  · constructor <;> rintro ⟨payload, name, parent⟩
    · refine Value.skeleton_ext ?_ ?_ (fun l => ?_) ?_ <;>
        cases payload <;> cases flag <;> first | rfl | (cases l <;> rfl)
    · cases payload <;> rfl
    · cases payload <;> cases flag <;> rfl
    · cases payload <;> first | exact fun _ => rfl | exact nofun
  · rintro ⟨payload, name, parent⟩ a ha
    cases payload <;> exact .inl ha

theorem adjusting_setMetadata (contract : ValueId) (metadata : List UInt8) :
    (setMetadata contract metadata).Adjusting ctx := by
  unfold setMetadata
  refine adjusting_context_bind ((adjusting_liftM _).bind fun _ _ =>
    Adjusts.within (.annotate ?_ ?_) fun h => h.update)
  · constructor <;> rintro ⟨payload, name, parent⟩
    · refine Value.skeleton_ext ?_ ?_ (fun l => ?_) ?_ <;>
        cases payload <;> first | rfl | (cases l <;> rfl)
    · cases payload <;> rfl
    · cases payload <;> rfl
    · cases payload <;> first | exact fun _ => rfl | exact nofun
  · rintro ⟨payload, name, parent⟩ a ha
    cases payload <;> exact .inl ha

theorem adjusting_setStorageAddress (slot address : ValueId) :
    (setStorageAddress slot address).Adjusting ctx := by
  unfold setStorageAddress
  refine adjusting_context_bind (Ensures.check (fun _ => Adjusts.refl ctx) fun x hx => ?_)
  refine Ensures.check (fun _ => Adjusts.refl ctx) fun _ _ =>
    Adjusts.within (.annotate ?_ ?_) fun h => h.update
  · constructor <;> rintro ⟨payload, name, parent⟩
    · cases payload <;> rfl
    · cases payload <;> rfl
    · cases payload <;> rfl
    · cases payload <;> first | exact fun _ => rfl | exact nofun
  · have howned : ctx.ownsValue address := by
      rw [ownsValue, own_eq_ok.1 hx]
      rfl
    rintro ⟨payload, name, parent⟩ a ha
    cases payload with
    | global => exact .inr (Option.some.inj ha ▸ howned)
    | _ => exact .inl ha

/-! ## Copy propagation -/

theorem adjusting_replaceOperands (i : InstId) (v : ValueId) (ks : List Nat) :
    ∀ {ctx : Context}, (replaceOperands i v ks).Adjusting ctx := by
  induction ks with
  | nil => intro ctx; exact adjusting_pure ()
  | cons k ks ih => intro ctx; exact (adjusting_setOperand i k v).bind fun _ _ => ih

theorem adjusting_forwardCopy (target source : ValueId) (is : List InstId) :
    ∀ {ctx : Context}, (forwardCopy target source is).Adjusting ctx := by
  induction is with
  | nil => intro ctx; exact adjusting_pure 0
  | cons i is ih =>
    intro ctx
    refine adjusting_context_bind ((adjusting_liftM _).bind fun x _ => ?_)
    refine (adjusting_replaceOperands i source _).bind fun _ _ => ?_
    split
    · exact adjusting_pure _
    · exact ih.bind fun _ _ => adjusting_pure _

theorem adjusting_sweepCopies (is : List InstId) :
    ∀ {ctx : Context}, (sweepCopies is).Adjusting ctx := by
  induction is with
  | nil => intro ctx; exact adjusting_pure _
  | cons i is ih =>
    intro ctx
    refine adjusting_context_bind ((adjusting_liftM _).bind fun x _ => ?_)
    split
    · exact ih
    · split
      · refine (adjusting_note _).bind fun _ _ => (adjusting_eraseInst i).bind fun _ _ => ?_
        exact ih.bind fun _ _ => adjusting_pure _
      · rename_i target source _ _
        refine (adjusting_forwardCopy _ _ _).bind fun reads c => ?_
        have hnote : (noteForwarded target source reads).Adjusting c := by
          refine adjusting_context_bind ?_
          split
          · exact adjusting_pure _
          · exact adjusting_note _
        exact hnote.bind fun _ _ => ih.bind fun _ _ => adjusting_pure _

theorem adjusting_settleCopies (block : ValueId) (bound : Nat) :
    ∀ {ctx : Context}, (settleCopies block bound).Adjusting ctx := by
  induction bound with
  | zero => intro ctx; exact adjusting_pure _
  | succ bound ih =>
    intro ctx
    refine adjusting_context_bind ((adjusting_liftM _).bind fun body _ => ?_)
    refine (adjusting_sweepCopies body).bind fun tally _ => ?_
    split
    · exact adjusting_pure _
    · exact ih.bind fun _ _ => adjusting_pure _

theorem adjusting_propagateCopies (block : ValueId) : (propagateCopies block).Adjusting ctx :=
  adjusting_context_bind (adjusting_settleCopies block _)

theorem adjusting_propagateAllCopies (blocks : List ValueId) :
    ∀ {ctx : Context}, (propagateAllCopies blocks).Adjusting ctx := by
  induction blocks with
  | nil => intro ctx; exact adjusting_pure _
  | cons block blocks ih =>
    intro ctx
    exact (adjusting_propagateCopies block).bind fun _ _ => ih.bind fun _ _ => adjusting_pure _

/-! ## Dead code elimination -/

theorem adjusting_eraseDead (l : Liveness) (is : List InstId) :
    ∀ {ctx : Context}, (eraseDead l is).Adjusting ctx := by
  induction is with
  | nil => intro ctx; exact adjusting_pure 0
  | cons i is ih =>
    intro ctx
    refine adjusting_context_bind ((adjusting_liftM _).bind fun dead _ => ?_)
    split
    · refine (adjusting_liftM _).bind fun _ _ => (adjusting_note _).bind fun _ _ => ?_
      exact (adjusting_eraseInst i).bind fun _ _ => ih.bind fun _ _ => adjusting_pure _
    · exact ih

theorem adjusting_eraseDeadIn (l : Liveness) (blocks : List ValueId) :
    ∀ {ctx : Context}, (eraseDeadIn l blocks).Adjusting ctx := by
  induction blocks with
  | nil => intro ctx; exact adjusting_pure 0
  | cons block blocks ih =>
    intro ctx
    refine adjusting_context_bind ((adjusting_liftM _).bind fun body _ => ?_)
    exact (adjusting_eraseDead l body).bind fun _ _ => ih.bind fun _ _ => adjusting_pure _

theorem adjusting_eliminateDeadCode (function : ValueId) (l : Liveness) :
    (eliminateDeadCode function l).Adjusting ctx :=
  adjusting_context_bind ((adjusting_liftM _).bind fun _ _ => adjusting_eraseDeadIn l _)

/-! ## The optimizer -/

theorem adjusting_optimizeFunction (function : ValueId) (options : OptimizerOptions) :
    (optimizeFunction function options).Adjusting ctx := by
  refine adjusting_context_bind ((adjusting_liftM _).bind fun x c => ?_)
  have hcopies : (copyStage options (x.members .blocks)).Adjusting c := by
    unfold copyStage
    split
    · exact adjusting_propagateAllCopies _
    · exact adjusting_pure _
  refine hcopies.bind fun copies c => ?_
  refine adjusting_context_bind ((adjusting_liftM_report _).bind fun g _ => ?_)
  refine (adjusting_liftM_report _).bind fun l c => ?_
  have hdead : (deadStage options function l).Adjusting c := by
    unfold deadStage
    split
    · exact adjusting_eliminateDeadCode function l
    · exact adjusting_pure _
  exact hdead.bind fun _ _ => (adjusting_note _).bind fun _ _ => adjusting_pure _

theorem adjusting_optimizeFunctions (options : OptimizerOptions) (functions : List ValueId) :
    ∀ {ctx : Context}, (optimizeFunctions options functions).Adjusting ctx := by
  induction functions with
  | nil => intro ctx; exact adjusting_pure []
  | cons f functions ih =>
    intro ctx
    exact (adjusting_optimizeFunction f options).bind fun _ _ =>
      ih.bind fun _ _ => adjusting_pure _

theorem adjusting_optimizeContract (contract : ValueId) (options : OptimizerOptions) :
    (optimizeContract contract options).Adjusting ctx := by
  refine adjusting_context_bind ((adjusting_liftM _).bind fun x _ => ?_)
  refine (adjusting_optimizeFunctions options _).bind fun _ _ => ?_
  exact (adjusting_note _).bind fun _ _ => adjusting_pure _

end Edit

/-! ## Operations -/

/-- A form of an opcode family has its parts whenever the opcode is of the
family. -/
theorem Form.ofFamily_eq_ok {family : Family} {op : Opcode} {p q : Parts} :
    ofFamily family op q = .ok p ↔ family.contains op ∧ q = p := by
  unfold ofFamily
  split
  · rename_i h
    simp [h]
  · rename_i h
    simp [h, refuse]

/-- What a form writes is among its uses, as locals. -/
theorem Form.mem_uses_of_parts {form : Form} {p : Parts} (h : form.parts = .ok p) {v : ValueId}
    (hv : v ∈ p.results) : (Role.localValue, v) ∈ form.uses := by
  cases form with
  | unary | binary | ternary | intrinsic =>
    obtain ⟨-, rfl⟩ := ofFamily_eq_ok.1 h
    simp_all [uses, targets, values]
  | log data topics =>
    simp only [parts] at h
    split at h
    · cases h
    · cases h
      exact absurd hv List.not_mem_nil
  | accountCall isStatic status results callee address transfer gas args =>
    cases isStatic <;> cases transfer <;> cases h <;> simp_all [uses, targets, values]
  | create status account source transfer args =>
    cases source <;> cases h <;> simp_all [uses, targets, values]
  | _ =>
    cases h
    simp_all [uses, targets, values]

namespace Edit

open Context

variable {ctx : Context}

theorem evolving_createForm {form : Form} {point : Point}
    (typed : ∀ u ∈ form.uses, ctx.fits u.1 u.2) : (createForm form point).Evolving ctx := by
  unfold createForm Evolving
  rw [ensures_bind, ensures_liftM]
  refine ⟨fun p hp => ?_, fun _ _ => Evolves.refl ctx⟩
  exact evolving_createInst fun v hv => typed (.localValue, v) (Form.mem_uses_of_parts hp hv)

end Edit

/-- The values that an operation takes away from their owners if it does not
fail. -/
def Operation.takesAway (ctx : Context) : Operation → List ValueId
  | detach v => [v]
  | transfer list source _ start stop _ =>
    Sequence.slice start stop (ctx.members source list.list)
  | _ => []

/-- The integer whose constant an operation asks for, and how it is to be
written. -/
def Operation.request? : Operation → Option (Int × Bool)
  | constant n hex => some (n, hex)
  | _ => none

/-- Whether an operation makes an instruction if it does not fail. -/
def Operation.makesInst : Operation → Bool
  | createInst .. | createForm .. => true
  | _ => false

/-- **What an operation amounts to**: changes that leave the constants, or one
change. That one adds no constant either unless a constant was asked for. The
number of an instruction is taken only to make one. -/
inductive Operation.Effect (ctx : Context) (operation : Operation) (ctx' : Context) : Prop
  | evolves : Evolves ctx ctx' → (operation.makesInst = false → ctx'.nextInst = ctx.nextInst) →
      Effect ctx operation ctx'
  | changes : Change ctx (operation.takesAway ctx) ctx' →
      (operation.request? = none → ctx'.constants = ctx.constants) →
      ctx'.nextInst = ctx.nextInst → Effect ctx operation ctx'

/-- **Every operation amounts to changes**, however it ends, if its handles
are fit for their roles and the context holds all members. One change is
enough if it takes values away. -/
theorem Operation.effect_perform {ctx : Context} {operation : Operation}
    (owned : ∀ p l, ∀ v ∈ ctx.members p l, ctx.ownsValue v) (fit : operation.typed ctx) :
    Effect ctx operation (operation.perform.run ctx).context := by
  have hfit : ∀ u ∈ operation.uses, ctx.fits u.1 u.2 := by
    intro u hu
    exact List.all_eq_true.1 fit u hu
  have hnone : operation.perform.Adjusting ctx →
      Effect ctx operation (operation.perform.run ctx).context :=
    fun h => .evolves h.adjusts.evolves fun _ => h.adjusts.nextInst
  have hmakes : operation.perform.Evolving ctx → operation.makesInst = true →
      Effect ctx operation (operation.perform.run ctx).context := by
    refine fun h hmakes => .evolves h.evolves fun hother => ?_
    rw [hmakes] at hother
    cases hother
  have hsame : Effect ctx operation ctx := .evolves (Evolves.refl ctx) fun _ => rfl
  cases operation with
  | detach v =>
    refine Edit.Ensures.context_of (P := Effect ctx (.detach v)) ((Edit.ensures_map _ _).2 ?_)
    exact Edit.ensures_detach (fun _ => hsame) fun _ _ _ _ ho hx hparent hok hmk hmem =>
      .changes (.detach ho hx hparent hok hmk hmem) (fun _ => Context.Untouched.constants.detached)
        Context.Untouched.nextInst.detached
  | transfer list source target start stop before =>
    refine Edit.Ensures.context_of
      (P := Effect ctx (.transfer list source target start stop before))
      ((Edit.ensures_map _ _).2 ?_)
    exact Edit.ensures_transferMembers (owned source list.list) (fun _ _ => hsame)
      fun _ _ _ hs ht hne hsk htk horder hbound hadmit hk =>
        .changes (.transfer hs ht hne hsk htk horder hbound hadmit hk)
          (fun _ => Context.Untouched.constants.transferred)
          Context.Untouched.nextInst.transferred
  | constant n hex =>
    refine Edit.Ensures.context_of (P := Effect ctx (.constant n hex)) ((Edit.ensures_map _ _).2 ?_)
    exact (Edit.ensures_constant n hex).2 (.changes (.intern n hex) nofun Context.nextInst_intern)
  | createContract name => exact hnone (Edit.adjusting_map _ (Edit.adjusting_createContract name))
  | createSubcontract name parent =>
    exact hnone (Edit.adjusting_map _ (Edit.adjusting_createSubcontract name parent))
  | createGlobal | createFunction | createInitFunction | createDepositFunction | createBlock
  | createArgument | createLocal =>
    exact hnone (Edit.adjusting_map _ (Edit.adjusting_createMember (by constructor) _ _ _ _))
  | insert list owner member before =>
    exact hnone (Edit.adjusting_map _ (Edit.adjusting_insertMember owner list member before))
  | setName v name => exact hnone (Edit.adjusting_map _ (Edit.adjusting_setName v name))
  | setFlag f flag value => exact hnone (Edit.adjusting_map _ (Edit.adjusting_setFlag f flag value))
  | setMetadata c metadata =>
    exact hnone (Edit.adjusting_map _ (Edit.adjusting_setMetadata c metadata))
  | setStorageAddress slot address =>
    exact hnone (Edit.adjusting_map _ (Edit.adjusting_setStorageAddress slot address))
  | createInst opcode results operands point =>
    refine hmakes (Edit.evolving_map _ (Edit.evolving_createInst fun v hv => ?_)) rfl
    exact hfit (.localValue, v) (by simp [uses, Form.targets, hv])
  | createForm form point =>
    refine hmakes (Edit.evolving_map _ (Edit.evolving_createForm fun u hu => ?_)) rfl
    exact hfit u (List.mem_append_left _ hu)
  | insertInst i point => exact hnone (Edit.adjusting_map _ (Edit.adjusting_insertInst i point))
  | removeInst i => exact hnone (Edit.adjusting_map _ (Edit.adjusting_unplace i))
  | eraseInst i => exact hnone (Edit.adjusting_map _ (Edit.adjusting_eraseInst i))
  | setOperand i index v => exact hnone (Edit.adjusting_map _ (Edit.adjusting_setOperand i index v))
  | transferInsts source start stop point =>
    exact hnone (Edit.adjusting_map _ (Edit.adjusting_transferInsts source start stop point))
  | propagateCopies b => exact hnone (Edit.adjusting_map _ (Edit.adjusting_propagateCopies b))
  | eliminateDeadCode f l =>
    exact hnone (Edit.adjusting_map _ (Edit.adjusting_eliminateDeadCode f l))
  | optimizeFunction f options =>
    exact hnone (Edit.adjusting_map _ (Edit.adjusting_optimizeFunction f options))
  | optimizeContract c options =>
    exact hnone (Edit.adjusting_map _ (Edit.adjusting_optimizeContract c options))

namespace Operation

variable {ctx : Context} {operation : Operation}

theorem evolves_perform (owned : ∀ p l, ∀ v ∈ ctx.members p l, ctx.ownsValue v)
    (fit : operation.typed ctx) : Evolves ctx (operation.perform.run ctx).context ∨
      Change ctx (operation.takesAway ctx) (operation.perform.run ctx).context := by
  cases effect_perform owned fit with
  | evolves h => exact .inl h
  | changes h => exact .inr h

/-- **Only a request for a constant adds one.** -/
theorem constants_perform (owned : ∀ p l, ∀ v ∈ ctx.members p l, ctx.ownsValue v)
    (fit : operation.typed ctx) (other : operation.request? = none) :
    (operation.perform.run ctx).context.constants = ctx.constants := by
  cases effect_perform owned fit with
  | evolves h => exact h.constants_eq
  | changes _ h => exact h other

/-- **Only making an instruction takes a number.** -/
theorem nextInst_perform (owned : ∀ p l, ∀ v ∈ ctx.members p l, ctx.ownsValue v)
    (fit : operation.typed ctx) (other : operation.makesInst = false) :
    (operation.perform.run ctx).context.nextInst = ctx.nextInst := by
  cases effect_perform owned fit with
  | evolves _ h => exact h other
  | changes _ _ h => exact h

end Operation

/-! ## Sequences of operations -/

namespace Operation

/-- The context that operations lead to, one after the other. -/
def runAll : List Operation → Context → Context
  | [], ctx => ctx
  | operation :: operations, ctx => runAll operations (operation.perform.run ctx).context

/-- Whether each of them is given fit handles when its turn comes. -/
def allTyped : List Operation → Context → Bool
  | [], _ => true
  | operation :: operations, ctx =>
    operation.typed ctx && allTyped operations (operation.perform.run ctx).context

end Operation

/-- Sequences of operations lead to reachable contexts. -/
theorem Reachable.runAll {operations : List Operation} :
    ∀ {ctx : Context}, Reachable ctx → Operation.allTyped operations ctx →
      Reachable (Operation.runAll operations ctx) := by
  induction operations with
  | nil => intro ctx h _; exact h
  | cons operation operations ih =>
    intro ctx h fit
    obtain ⟨hfit, hrest⟩ := Bool.and_eq_true_iff.1 fit
    exact ih (.step operation hfit h) hrest

end ContractIR
