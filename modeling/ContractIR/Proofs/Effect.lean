import Mathlib.Logic.Function.Basic
import ContractIR.Context.Create
import ContractIR.Context.Attribute
import ContractIR.Instruction.Form
import ContractIR.Proofs.Ensures
import ContractIR.Proofs.Links
/-!
# What each edit leaves behind

An edit checks first and changes afterwards. For every edit there is a
function here from the context before to the context after, and a statement
that the edit either fails and leaves the context as it was or passes its
checks and leaves what the function gives. Later statements about edits are
statements about these functions and never look into the edits again.
-/

namespace ContractIR

namespace Context

variable (ctx : Context)

/-! ## Names -/

/-- The context after a member's name left its owner's table. -/
def left (owner v : ValueId) (name : Option String) : Context :=
  match name with
  | none => ctx
  | some name => ctx.update owner fun x => x.mapSymbols fun t => t.leave name v

/-- The context after a name was entered for a member in its owner's table. -/
def entered (owner v : ValueId) (name : String) (isGlobal : Bool) : Context :=
  ctx.update owner fun x => x.mapSymbols fun _ => ((ctx.symbols owner).enter name v isGlobal).2

/-- The context after a name was stored with its value. -/
def labelled (v : ValueId) (name : Option String) : Context :=
  ctx.update v fun x => { x with name }

/-- The context after the name of a value that got a new owner was entered
there. -/
def adopted (owner v : ValueId) : Context :=
  match ctx.value? v with
  | none => ctx
  | some x =>
    match x.name with
    | none => ctx
    | some name =>
      (ctx.entered owner v name x.kind.isGlobalValue).labelled v
        (some ((ctx.symbols owner).enter name v x.kind.isGlobalValue).1)

/-- The context after a value was renamed. -/
def renamed (v : ValueId) (x : Value) (name : String) : Context :=
  match ctx.tableOwner? x with
  | none => ctx.labelled v (if name = "" then none else some name)
  | some owner =>
    if name = "" then (ctx.left owner v x.name).labelled v none
    else
      ((ctx.left owner v x.name).entered owner v name x.kind.isGlobalValue).labelled v
        (some (((ctx.left owner v x.name).symbols owner).enter name v x.kind.isGlobalValue).1)

/-! ## Members -/

/-- The context after the members of an owner were replaced. -/
def withMembers (owner : ValueId) (list : MemberList) (vs : List ValueId) : Context :=
  ctx.update owner fun x => x.setMembers list vs

/-- The context after the parent of a value was set. -/
def withParent (v : ValueId) (parent : Option ValueId) : Context :=
  ctx.update v fun x => { x with parent }

/-- The context after a value was put at a position of a list. -/
def attached (owner : ValueId) (list : MemberList) (member : ValueId) (k : Nat) : Context :=
  ((ctx.withMembers owner list (Sequence.splice k [member] (ctx.members owner list))).withParent
    member (some owner)).adopted owner member

/-- The context after a value was taken out of a list. -/
def detached (owner : ValueId) (list : MemberList) (member : ValueId) : Context :=
  ((ctx.withMembers owner list ((ctx.members owner list).erase member)).left owner member
    ((ctx.value? member).bind Value.name)).withParent member none

/-- The context after the names of members left their owner's table. -/
def leftAll (owner : ValueId) : List ValueId → Context → Context
  | [], ctx => ctx
  | v :: vs, ctx => leftAll owner vs (ctx.left owner v ((ctx.value? v).bind Value.name))

/-- The context after values got a new owner. -/
def adoptedAll (owner : ValueId) : List ValueId → Context → Context
  | [], ctx => ctx
  | v :: vs, ctx => adoptedAll owner vs ((ctx.withParent v (some owner)).adopted owner v)

/-- The context after a run of members went from one owner to another. -/
def transferred (list : MemberList) (source target : ValueId) (start stop k : Nat) : Context :=
  let moved := Sequence.slice start stop (ctx.members source list)
  let taken := ctx.withMembers source list (Sequence.cut start stop (ctx.members source list))
  adoptedAll target moved
    ((leftAll source moved taken).withMembers target list
      (Sequence.splice k moved (ctx.members target list)))

/-! ## Instructions -/

/-- The context after an instruction was put at a position of a body. -/
def placed (i : InstId) (block : ValueId) (k : Nat) : Context :=
  ((ctx.update block fun x => x.setBody (Sequence.splice k [i] (ctx.body block))).updateInst i
    fun x => { x with block := some block }).link i block (ctx.body block)[k]?

/-- The context after an instruction was taken out of a body. -/
def unplaced (i : InstId) (block : ValueId) : Context :=
  ((ctx.update block fun x => x.setBody ((ctx.body block).erase i)).updateInst i
    fun x => { x with block := none }).unlink i block

/-- The context after an instruction was destroyed. -/
def destroyed (i : InstId) : Context := ctx.updateCell i fun _ => none

/-- The context after one operand of an instruction was replaced. -/
def withOperand (i : InstId) (index : Nat) (v : ValueId) : Context :=
  ctx.updateInst i fun x => x.setOperand index v

end Context

/-! ## Names do not show in the skeletons -/

namespace Context

variable {ctx : Context} {owner v : ValueId}

theorem ownsValue_eq (v : ValueId) : ctx.ownsValue v = (ctx.skeleton? v).isSome := by
  simp [ownsValue, skeleton?]

@[simp] theorem ownsValue_update {f : Value → Value} {w : ValueId} :
    (ctx.update v f).ownsValue w = ctx.ownsValue w := by
  simp only [ownsValue, value?_update]
  split <;> simp

@[simp] theorem skeleton?_left {name : Option String} :
    (ctx.left owner v name).skeleton? = ctx.skeleton? := by
  cases name with
  | none => rfl
  | some name => exact skeleton?_update_of_keeps fun x => x.skeleton_mapSymbols _

@[simp] theorem skeleton?_entered {name : String} {isGlobal : Bool} :
    (ctx.entered owner v name isGlobal).skeleton? = ctx.skeleton? :=
  skeleton?_update_of_keeps fun x => x.skeleton_mapSymbols _

@[simp] theorem skeleton?_labelled {name : Option String} :
    (ctx.labelled v name).skeleton? = ctx.skeleton? :=
  skeleton?_update_of_keeps fun _ => rfl

@[simp] theorem skeleton?_adopted : (ctx.adopted owner v).skeleton? = ctx.skeleton? := by
  unfold adopted
  split
  · rfl
  · split
    · rfl
    · rw [skeleton?_labelled, skeleton?_entered]

@[simp] theorem skeleton?_renamed {x : Value} {name : String} :
    (ctx.renamed v x name).skeleton? = ctx.skeleton? := by
  unfold renamed
  split
  · exact skeleton?_labelled
  · split <;> simp

theorem skeleton?_leftAll {vs : List ValueId} :
    ∀ {ctx : Context}, (leftAll owner vs ctx).skeleton? = ctx.skeleton? := by
  induction vs with
  | nil => intro ctx; rfl
  | cons v vs ih =>
    intro ctx
    rw [leftAll, ih, skeleton?_left]

theorem ownsValue_congr {ctx' : Context} (h : ctx'.skeleton? = ctx.skeleton?) :
    ctx'.ownsValue = ctx.ownsValue := by
  funext w
  rw [ownsValue_eq, ownsValue_eq, h]

end Context

/-! ## What none of this touches -/

/-- **A part of contexts that no change to a value touches.** -/
structure Context.OffValues {α : Type} (g : Context → α) : Prop where
  update : ∀ {ctx v f}, g (ctx.update v f) = g ctx

namespace Context.OffValues

theorem cell? : OffValues Context.cell? := ⟨funext fun _ => cell?_update⟩

theorem inst? : OffValues Context.inst? := ⟨funext fun _ => inst?_update⟩

variable {α : Type} {g : Context → α} {ctx : Context} {owner v : ValueId}
variable {list : MemberList} {k : Nat}

theorem left (h : OffValues g) {name : Option String} : g (ctx.left owner v name) = g ctx := by
  cases name with
  | none => rfl
  | some name => exact h.update

theorem adopted (h : OffValues g) : g (ctx.adopted owner v) = g ctx := by
  unfold Context.adopted
  split
  · rfl
  · split
    · rfl
    · exact h.update.trans h.update

theorem renamed (h : OffValues g) {x : Value} {name : String} :
    g (ctx.renamed v x name) = g ctx := by
  unfold Context.renamed
  split
  · exact h.update
  · split
    · exact h.update.trans h.left
    · exact h.update.trans (h.update.trans h.left)

theorem attached (h : OffValues g) : g (ctx.attached owner list v k) = g ctx :=
  h.adopted.trans (h.update.trans h.update)

theorem detached (h : OffValues g) : g (ctx.detached owner list v) = g ctx :=
  h.update.trans (h.left.trans h.update)

theorem leftAll (h : OffValues g) {vs : List ValueId} :
    ∀ {ctx : Context}, g (Context.leftAll owner vs ctx) = g ctx := by
  induction vs with
  | nil => intro ctx; rfl
  | cons v vs ih => intro ctx; exact ih.trans h.left

theorem adoptedAll (h : OffValues g) {vs : List ValueId} :
    ∀ {ctx : Context}, g (Context.adoptedAll owner vs ctx) = g ctx := by
  induction vs with
  | nil => intro ctx; rfl
  | cons v vs ih => intro ctx; exact ih.trans (h.adopted.trans h.update)

theorem transferred (h : OffValues g) {target : ValueId} {start stop : Nat} :
    g (ctx.transferred list owner target start stop k) = g ctx :=
  h.adoptedAll.trans (h.update.trans (h.leftAll.trans h.update))

end Context.OffValues

/-- **A part of contexts that no change to a value or to an instruction
touches.** -/
structure Context.Untouched {α : Type} (g : Context → α) : Prop extends OffValues g where
  updateCell : ∀ {ctx i f}, g (ctx.updateCell i f) = g ctx

namespace Context.Untouched

theorem id : Untouched Context.id := ⟨⟨id_update⟩, id_updateCell⟩

theorem constants : Untouched Context.constants := ⟨⟨constants_update⟩, constants_updateCell⟩

theorem contracts : Untouched Context.contracts := ⟨⟨contracts_update⟩, contracts_updateCell⟩

theorem nextInst : Untouched Context.nextInst := by
  refine ⟨⟨?_⟩, ?_⟩
  · intro ctx v f
    unfold Context.update
    split <;> rfl
  · intro ctx i f
    unfold Context.updateCell
    split
    · simp [Context.nextInst]
    · rfl

variable {α : Type} {g : Context → α} {ctx ctx' : Context} {v b : ValueId} {i : InstId} {k : Nat}

theorem relinks (h : Untouched g) (hlinks : Relinks ctx ctx') : g ctx' = g ctx := by
  induction hlinks with
  | refl => rfl
  | ends _ _ ih => exact h.update.trans ih
  | neighbours _ _ ih => exact h.updateCell.trans ih

theorem placed (h : Untouched g) : g (ctx.placed i b k) = g ctx :=
  (h.relinks (relinks_link _)).trans (h.updateCell.trans h.update)

theorem unplaced (h : Untouched g) : g (ctx.unplaced i b) = g ctx :=
  (h.relinks relinks_unlink).trans (h.updateCell.trans h.update)

theorem destroyed (h : Untouched g) : g (ctx.destroyed i) = g ctx := h.updateCell

theorem withOperand (h : Untouched g) {index : Nat} : g (ctx.withOperand i index v) = g ctx :=
  h.updateCell

end Context.Untouched

theorem Context.nextInst_intern {ctx : Context} {n : Int} {hex : Bool} :
    (ctx.intern n hex).2.nextInst = ctx.nextInst := by
  unfold intern
  split <;> rfl

/-! ## What a change to a value shows -/

namespace Context

variable {ctx : Context} {v b : ValueId} {i : InstId}

theorem ownsValue_of_kind? {k : Kind} (h : ctx.kind? v = some k) : ctx.ownsValue v := by
  obtain ⟨x, hx, -⟩ := Option.map_eq_some_iff.1 h
  rw [ownsValue, hx]
  rfl

/-- What is there is not new. -/
theorem ne_nextValue (h : ctx.ownsValue v) : v ≠ ctx.nextValue := by
  rintro rfl
  rw [ownsValue, value?_eq_none_of_nextValue] at h
  cases h

theorem kind?_push_nextValue {payload : Payload} :
    (ctx.push payload).kind? ctx.nextValue = some payload.kind := by
  rw [kind?, value?_push, if_pos rfl]
  rfl

theorem kind?_push_of_kind? {payload : Payload} {k : Kind} (h : ctx.kind? v = some k) :
    (ctx.push payload).kind? v = some k := by
  rw [kind?, value?_push, if_neg (ne_nextValue (ownsValue_of_kind? h))]
  exact h

/-- A local is a value of the context. -/
theorem ownsValue_of_isLocal (h : ctx.isLocal v) : ctx.ownsValue v := by
  obtain ⟨k, hk, -⟩ := (Option.any_eq_true _ _).1 h
  exact ownsValue_of_kind? hk

theorem kind?_of_value? {x : Value} (h : ctx.value? v = some x) : ctx.kind? v = some x.kind := by
  rw [kind?, h]
  rfl

theorem parent?_of_value? {x : Value} (h : ctx.value? v = some x) : ctx.parent? v = x.parent := by
  rw [parent?, h]
  rfl

theorem members_of_value? {x : Value} (h : ctx.value? v = some x) (list : MemberList) :
    ctx.members v list = x.members list := by
  rw [members, h]
  rfl

theorem body_placed {k : Nat} (h : ctx.kind? b = some .block) :
    (ctx.placed i b k).body =
      Function.update ctx.body b (Sequence.splice k [i] (ctx.body b)) := by
  unfold placed
  rw [(relinks_link _).body, body_congr skeleton?_updateInst, body_update_setBody h]

theorem body_unplaced (h : ctx.kind? b = some .block) :
    (ctx.unplaced i b).body = Function.update ctx.body b ((ctx.body b).erase i) := by
  unfold unplaced
  rw [relinks_unlink.body, body_congr skeleton?_updateInst, body_update_setBody h]

end Context

/-! ## Instructions do not show in the members -/

namespace Context.SameMembers

variable {ctx : Context} {i : InstId} {b : ValueId}

theorem placed {k : Nat} : SameMembers (ctx.placed i b k) ctx :=
  (relinks_link _).sameMembers.trans ((of_skeleton skeleton?_updateInst).trans update_mapBlock)

theorem unplaced : SameMembers (ctx.unplaced i b) ctx :=
  relinks_unlink.sameMembers.trans ((of_skeleton skeleton?_updateInst).trans update_mapBlock)

theorem pushInst {x : Option Instruction} : SameMembers (ctx.pushInst x) ctx :=
  of_skeleton skeleton?_pushInst

theorem destroyed : SameMembers (ctx.destroyed i) ctx := of_skeleton skeleton?_updateCell

theorem withOperand {index : Nat} {v : ValueId} : SameMembers (ctx.withOperand i index v) ctx :=
  of_skeleton skeleton?_updateCell

end Context.SameMembers

/-! ## Where instructions are -/

namespace Context

variable {ctx : Context} {i j : InstId} {x : Instruction} {b : ValueId}

theorem inst?_updateInst_of_live {f : Instruction → Instruction} (h : ctx.inst? i = some x) :
    (ctx.updateInst i f).inst? j = if j = i then some (f x) else ctx.inst? j := by
  rw [inst?_updateInst]
  split
  · rename_i hj
    rw [hj, h]
    rfl
  · rfl

theorem inst?_placed {k : Nat} (h : ctx.inst? i = some x) :
    (ctx.placed i b k).inst? j =
      if j = i then some { x with block := some b } else ctx.inst? j := by
  unfold placed
  rw [(relinks_link _).inst?, inst?_updateInst_of_live (inst?_update.trans h), inst?_update]

theorem inst?_unplaced (h : ctx.inst? i = some x) :
    (ctx.unplaced i b).inst? j = if j = i then some { x with block := none } else ctx.inst? j := by
  unfold unplaced
  rw [relinks_unlink.inst?, inst?_updateInst_of_live (inst?_update.trans h), inst?_update]

/-- What is taken out is there, in no block. -/
theorem inst?_unplaced_self (h : ctx.inst? i = some x) :
    (ctx.unplaced i b).inst? i = some { x with block := none } := by
  rw [inst?_unplaced h, if_pos rfl]

/-- What is moved from one block to another is as it was. -/
theorem inst?_moved {c : ValueId} {k : Nat} (h : ctx.inst? i = some x) :
    ((ctx.unplaced i b).placed i c k).inst? j =
      if j = i then some { x with block := some c } else ctx.inst? j := by
  rw [inst?_placed (inst?_unplaced_self h), inst?_unplaced h]
  split <;> rfl

theorem inst?_destroyed : (ctx.destroyed i).inst? j = if j = i then none else ctx.inst? j := by
  rw [destroyed, inst?, cell?_updateCell]
  split
  · cases ctx.cell? j <;> rfl
  · rfl

theorem inst?_withOperand {index : Nat} {v : ValueId} (h : ctx.inst? i = some x) :
    (ctx.withOperand i index v).inst? j =
      if j = i then some (x.setOperand index v) else ctx.inst? j :=
  inst?_updateInst_of_live h

end Context

/-! ## What a check tells -/

namespace Context

variable {ctx : Context}

theorem own_eq_ok {v : ValueId} {x : Value} : ctx.own v = .ok x ↔ ctx.value? v = some x := by
  unfold own
  cases ctx.value? v with
  | none => simp only [reduceCtorEq, iff_false]; exact nofun
  | some y => simp

theorem own_eq_error {v : ValueId} {fault : Fault} :
    ctx.own v = .error fault ↔ ctx.value? v = none ∧ fault = .refused (.foreignValue v) := by
  unfold own
  cases ctx.value? v with
  | none => exact ⟨fun h => ⟨rfl, (Except.error.inj h).symm⟩, fun h => h.2 ▸ rfl⟩
  | some y => simp

theorem read_eq_ok {v : ValueId} {x : Value} : ctx.read v = .ok x ↔ ctx.value? v = some x := by
  unfold read
  cases ctx.value? v with
  | none => simp only [reduceCtorEq, iff_false]; exact nofun
  | some y => simp

theorem ownInst_eq_ok {i : InstId} {x : Instruction} :
    ctx.ownInst i = .ok x ↔ ctx.inst? i = some x := by
  unfold ownInst
  cases ctx.inst? i with
  | none => simp only [reduceCtorEq, iff_false]; exact nofun
  | some y => simp

theorem readInst_eq_ok {i : InstId} {x : Instruction} :
    ctx.readInst i = .ok x ↔ ctx.inst? i = some x := by
  unfold readInst
  cases ctx.inst? i with
  | none => simp only [reduceCtorEq, iff_false]; exact nofun
  | some y => simp

/-- A body can be read off blocks only. -/
theorem readBody_eq_ok {b : ValueId} {is : List InstId} :
    ctx.readBody b = .ok is ↔ ctx.kind? b = some .block ∧ ctx.body b = is := by
  unfold readBody read kind? body block
  cases ctx.value? b with
  | none => simp only [Option.map_none, reduceCtorEq, false_and, iff_false]; exact nofun
  | some x =>
    have hx := x.block?_isSome_iff
    rw [ok_bind]
    split
    · next js h =>
      rw [h] at hx
      simp only [Option.isSome_some, true_iff] at hx
      simp [hx, h]
    · next h =>
      rw [h] at hx
      simp only [Option.isSome_none, Bool.false_eq_true, false_iff] at hx
      simp only [Option.map_some, Option.some.injEq, hx, false_and, iff_false]
      exact nofun

/-- The check of an owner and a member tells their kinds. -/
theorem checkPair_eq_ok {owner member : ValueId} {list : MemberList} {u : Unit}
    (h : ctx.checkPair owner list member = .ok u) :
    ∃ o m, ctx.value? owner = some o ∧ ctx.value? member = some m ∧
      o.kind = list.ownerKind ∧ m.kind = list.memberKind := by
  obtain ⟨o, ho, h⟩ := bind_eq_ok.1 h
  obtain ⟨m, hm, h⟩ := bind_eq_ok.1 h
  split at h
  · cases h
  · rename_i hk
    rw [not_or, Decidable.not_not, Decidable.not_not] at hk
    exact ⟨o, m, own_eq_ok.1 ho, own_eq_ok.1 hm, hk.1, hk.2⟩

/-- The checks of an insertion, one after the other. -/
def checkInsertion (ctx : Context) (owner : ValueId) (list : MemberList) (member : ValueId)
    (before : Option ValueId) : Except Fault Unit := do
  ctx.checkPair owner list member
  let x ← ctx.read member
  match x.parent with
  | some parent => refuse (.alreadyOwned x.kind x.label (ctx.nameOf parent))
  | none =>
    ctx.checkAdmission list owner member
    let _ ← ctx.insertionIndex owner list before

/-- The checks of a transfer, one after the other. -/
def checkTransfer (ctx : Context) (list : MemberList) (source target : ValueId) (start stop : Nat)
    (before : Option ValueId) : Except Fault Unit := do
  let s ← ctx.own source
  let t ← ctx.own target
  let vs := ctx.members source list
  if source = target then
    refuse .sameList
  else if s.kind ≠ list.ownerKind then
    refuse (.noList s.kind list)
  else if t.kind ≠ list.ownerKind then
    refuse (.noList t.kind list)
  else if stop < start ∨ vs.length < stop then
    refuse (.memberRange start stop vs.length)
  else
    ctx.checkAdmissions list target (Sequence.slice start stop vs)
    let _ ← ctx.insertionIndex target list before

/-- Values that pass the check are of the context. -/
theorem ownsValue_of_checkOwned {vs : List ValueId} (h : ctx.checkOwned vs = .ok ()) :
    ∀ v ∈ vs, ctx.ownsValue v := by
  intro v hv
  obtain ⟨x, hx, -⟩ := bind_eq_ok.1 (forM_eq_ok.1 h v hv)
  rw [ownsValue, own_eq_ok.1 hx]
  rfl

/-- Counts that pass the check fit the opcode, and a branch ends in a
block. -/
theorem of_checkShape {op : Opcode} {results operands : List ValueId}
    (h : ctx.checkShape op results operands = .ok ()) :
    op.shape.results.accepts results.length ∧ op.shape.operands.accepts operands.length ∧
      (op = .br → ∀ v, operands.getLast? = some v → ctx.kind? v = some .block) := by
  unfold checkShape at h
  split at h
  · cases h
  rename_i hresults
  split at h
  · cases h
  rename_i hoperands
  split at h
  · cases h
  rename_i htarget
  refine ⟨by simpa using hresults, by simpa using hoperands, fun hop v hv => ?_⟩
  rw [hv] at htarget
  simpa [hop] using htarget

/-- Insertion points are found in every context that has their instructions
and blocks where they were. -/
theorem pointBlock_congr {ctx' : Context} {point : Point} {b : ValueId}
    (howns : ctx'.ownsValue = ctx.ownsValue)
    (hinst : ∀ j, point.follower? = some j → ctx'.inst? j = ctx.inst? j)
    (h : ctx.pointBlock point = .ok b) : ctx'.pointBlock point = .ok b := by
  cases point with
  | before j =>
    obtain ⟨x, hx, hb⟩ := bind_eq_ok.1 h
    refine bind_eq_ok.2 ⟨x, ?_, hb⟩
    rw [ownInst_eq_ok, hinst j rfl]
    exact ownInst_eq_ok.1 hx
  | atEnd c =>
    obtain ⟨x, hx, hb⟩ := bind_eq_ok.1 h
    have hc : ctx'.ownsValue c := by
      rw [howns, ownsValue, own_eq_ok.1 hx]
      rfl
    obtain ⟨y, hy⟩ := Option.isSome_iff_exists.1 hc
    exact bind_eq_ok.2 ⟨y, own_eq_ok.2 hy, hb⟩

/-- A point before an instruction asks for one that is there. -/
theorem ownsInst_of_pointBlock {point : Point} {b : ValueId} {j : InstId}
    (h : ctx.pointBlock point = .ok b) (hj : point.follower? = some j) : ctx.ownsInst j := by
  cases point with
  | atEnd c => cases hj
  | before i =>
    obtain rfl : i = j := Option.some.inj hj
    obtain ⟨x, hx, -⟩ := bind_eq_ok.1 h
    rw [ownsInst, ownInst_eq_ok.1 hx]
    rfl

/-- An instruction that is added moves no insertion point. -/
theorem pointBlock_pushInst {point : Point} {b : ValueId} {x : Option Instruction}
    (h : ctx.pointBlock point = .ok b) : (ctx.pushInst x).pointBlock point = .ok b := by
  refine pointBlock_congr SameMembers.pushInst.ownsValue (fun j hj => ?_) h
  have hold : j ≠ ctx.nextInst := by
    rintro rfl
    have howns := ownsInst_of_pointBlock h hj
    rw [ownsInst, inst?_nextInst] at howns
    cases howns
  rw [inst?_pushInst, if_neg hold]

/-- The checks of a new operand: there is one at the position, and the last
operand of a branch stays a block. -/
theorem of_checkOperand {x : Instruction} {index : Nat} {v : ValueId}
    (h : ctx.checkOperand x index v = .ok ()) :
    index < x.operands.length ∧
      (x.opcode = .br → index + 1 = x.operands.length → ctx.kind? v = some .block) := by
  unfold checkOperand at h
  split at h
  · cases h
  rename_i hindex
  split at h
  · cases h
  rename_i htarget
  refine ⟨by omega, fun hop hlast => ?_⟩
  exact Decidable.byContradiction fun hkind => htarget ⟨hop, hlast, hkind⟩

end Context

/-- The place before an element, or the end, is a position of the list. -/
theorem Sequence.position?_le {α : Type} [DecidableEq α] {before : Option α} {l : List α} {k : Nat}
    (h : position? before l = some k) : k ≤ l.length := by
  cases before with
  | none =>
    simp only [position?, Option.some.injEq] at h
    omega
  | some b =>
    obtain ⟨hlt, -⟩ := List.findIdx?_eq_some_iff_getElem.1 h
    omega

/-- The position before an element is the element's own. -/
theorem Sequence.getElem?_of_position? {α : Type} [DecidableEq α] {before : Option α} {l : List α}
    {k : Nat} (h : position? before l = some k) : l[k]? = before := by
  cases before with
  | none =>
    obtain rfl : l.length = k := Option.some.inj h
    simp
  | some a =>
    obtain ⟨hk, ha, -⟩ := List.findIdx?_eq_some_iff_getElem.1 h
    rw [List.getElem?_eq_getElem hk]
    simpa using ha

theorem Sequence.slice_sublist {α : Type} (start stop : Nat) (l : List α) :
    (slice start stop l).Sublist l :=
  (List.take_sublist _ _).trans (List.drop_sublist _ _)

theorem Sequence.sublist_splice {α : Type} (k : Nat) (run l : List α) :
    l.Sublist (splice k run l) := by
  have h : (l.take k ++ l.drop k).Sublist (splice k run l) :=
    (List.sublist_append_left _ run).append (List.Sublist.refl _)
  rwa [List.take_append_drop] at h

theorem Sequence.mem_of_mem_slice {α : Type} {a : α} {l : List α} {start stop : Nat}
    (h : a ∈ slice start stop l) : a ∈ l :=
  (slice_sublist start stop l).subset h

namespace Edit

open Context

variable {ctx : Context} {E : Fault → Context → Prop}

/-! ## Names -/

@[simp] theorem ensures_noteUsed {Q : Unit → Context → Prop} (name used : String) :
    (noteUsed name used).Ensures Q E ctx ↔ Q () ctx := by
  unfold noteUsed
  split
  · exact ensures_pure ()
  · exact ensures_note _

@[simp] theorem ensures_enterName {Q : String → Context → Prop} (owner v : ValueId)
    (name : String) (isGlobal : Bool) :
    (enterName owner v name isGlobal).Ensures Q E ctx ↔
      Q ((ctx.symbols owner).enter name v isGlobal).1 (ctx.entered owner v name isGlobal) := by
  unfold enterName
  simp only [ensures_bind, ensures_context, ensures_modify, ensures_noteUsed, ensures_pure]
  exact Iff.rfl

@[simp] theorem ensures_leaveName {Q : Unit → Context → Prop} (owner v : ValueId)
    (name : Option String) :
    (leaveName owner v name).Ensures Q E ctx ↔ Q () (ctx.left owner v name) := by
  unfold leaveName
  split
  · exact ensures_pure ()
  · exact ensures_modify _

@[simp] theorem ensures_storeName {Q : Unit → Context → Prop} (v : ValueId)
    (name : Option String) :
    (storeName v name).Ensures Q E ctx ↔ Q () (ctx.labelled v name) := ensures_modify _

/-- A value the context holds is adopted without fail. -/
theorem ensures_adoptName {Q : Unit → Context → Prop} {owner v : ValueId} {x : Value}
    (hv : ctx.value? v = some x) :
    (adoptName owner v).Ensures Q E ctx ↔ Q () (ctx.adopted owner v) := by
  have hread : ctx.read v = .ok x := read_eq_ok.2 hv
  unfold adoptName adopted
  simp only [ensures_bind, ensures_context, ensures_liftM, hread, hv, Except.ok.injEq, forall_eq',
    reduceCtorEq, false_implies, implies_true, and_true]
  cases x.name with
  | none => exact ensures_pure ()
  | some name => simp only [ensures_bind, ensures_enterName, ensures_storeName]

/-- **Renaming** fails, changes nothing because the value has the name, or
renames. -/
theorem ensures_setName {Q : Unit → Context → Prop} {v : ValueId} {name : String}
    (fails : ∀ fault, ctx.value? v = none ∨ ctx.kind? v = some .constant ∨
      checkName name = .error fault → E fault ctx)
    (same : ∀ x, ctx.value? v = some x → x.label = name → Q () ctx)
    (renames : ∀ x, ctx.value? v = some x → x.kind ≠ .constant → '\x00' ∉ name.toList →
      x.label ≠ name → Q () (ctx.renamed v x name)) :
    (setName v name).Ensures Q E ctx := by
  unfold setName
  refine .look (.inspect (fun fault h => fails fault (.inl (own_eq_error.1 h).1)) fun x hx => ?_)
  refine .inspect (fun fault h => fails fault (.inr (.inr h))) fun _ hname => ?_
  have hv := own_eq_ok.1 hx
  have hnul : '\x00' ∉ name.toList := by
    unfold checkName at hname
    split at hname
    · cases hname
    · assumption
  split
  · rename_i hkind
    exact fails _ (.inr (.inl (kind?_of_value? hv ▸ congrArg some hkind)))
  · rename_i hkind
    split
    · rename_i hlabel
      exact same x hv hlabel
    · rename_i hlabel
      have hQ := renames x hv hkind hnul hlabel
      unfold renamed at hQ
      split <;> rename_i howner <;> simp only [howner] at hQ
      · exact (ensures_storeName v _).2 hQ
      · simp only [ensures_bind, ensures_leaveName, enterName?]
        by_cases hempty : name = ""
        · rw [if_pos hempty] at hQ
          rw [if_pos hempty]
          exact hQ
        · rw [if_neg hempty] at hQ
          rw [if_neg hempty]
          simpa using hQ

/-- A value that is no constant takes every name that can be spelt. -/
theorem ensures_setName_of_kind? {Q : Unit → Context → Prop} {v : ValueId} {name : String}
    {k : Kind} (hkind : ctx.kind? v = some k) (hk : k ≠ .constant)
    (hname : checkName name = .ok ())
    (same : ∀ x, ctx.value? v = some x → x.label = name → Q () ctx)
    (renames : ∀ x, ctx.value? v = some x → x.label ≠ name → Q () (ctx.renamed v x name)) :
    (setName v name).Ensures Q E ctx := by
  refine ensures_setName ?_ same fun x hx _ _ hother => renames x hx hother
  rintro fault (hnone | hconstant | herror)
  · rw [kind?, hnone] at hkind
    cases hkind
  · rw [hconstant] at hkind
    exact absurd (Option.some.inj hkind).symm hk
  · rw [hname] at herror
    cases herror

/-! ## Members -/

@[simp] theorem ensures_setMembers {Q : Unit → Context → Prop} (owner : ValueId)
    (list : MemberList) (vs : List ValueId) :
    (setMembers owner list vs).Ensures Q E ctx ↔ Q () (ctx.withMembers owner list vs) :=
  ensures_modify _

@[simp] theorem ensures_setParent {Q : Unit → Context → Prop} (v : ValueId)
    (parent : Option ValueId) :
    (setParent v parent).Ensures Q E ctx ↔ Q () (ctx.withParent v parent) :=
  ensures_modify _

/-- **Insertion** fails in one of its checks and changes nothing, or passes
them and attaches the member. -/
theorem ensures_insertMember {Q : Unit → Context → Prop} {owner member : ValueId}
    {list : MemberList} {before : Option ValueId}
    (fails : ∀ fault, ctx.checkInsertion owner list member before = .error fault → E fault ctx)
    (attaches : ∀ o m k, ctx.value? owner = some o → ctx.value? member = some m →
      o.kind = list.ownerKind → m.kind = list.memberKind → m.parent = none →
      ctx.checkAdmission list owner member = .ok () →
      ctx.insertionIndex owner list before = .ok k → Q () (ctx.attached owner list member k)) :
    (insertMember owner list member before).Ensures Q E ctx := by
  unfold checkInsertion at fails
  unfold insertMember
  refine .look (.inspect (fun fault h => fails fault (bind_eq_error.2 (.inl h))) fun _ hpair => ?_)
  obtain ⟨o, m, ho, hm, hok, hmk⟩ := checkPair_eq_ok hpair
  rw [hpair, ok_bind, read_eq_ok.2 hm, ok_bind] at fails
  rw [read_eq_ok.2 hm]
  refine .inspect (fun _ h => nomatch h) fun x hx => ?_
  obtain rfl := Except.ok.inj hx
  split
  · rename_i hparent
    rw [hparent] at fails
    exact fails _ rfl
  · rename_i hparent
    rw [hparent] at fails
    refine .inspect (fun fault h => fails fault (bind_eq_error.2 (.inl h))) fun _ hentry => ?_
    rw [hentry, ok_bind] at fails
    refine .inspect (fun fault h => fails fault (bind_eq_error.2 (.inl h))) fun k hk => ?_
    simp only [ensures_bind, ensures_setMembers, ensures_setParent]
    have hQ := attaches o m k ho hm hok hmk hparent hentry hk
    obtain ⟨y, hy⟩ : ∃ y, ((ctx.withMembers owner list
        (Sequence.splice k [member] (ctx.members owner list))).withParent member
          (some owner)).value? member = some y := by
      unfold withParent withMembers
      rw [value?_update, if_pos rfl, value?_update, hm]
      split <;> exact ⟨_, rfl⟩
    rw [ensures_adoptName hy]
    exact hQ

/-- **Removal** fails and changes nothing, or passes its checks and detaches
the member. -/
theorem ensures_removeMember {Q : Unit → Context → Prop} {owner member : ValueId}
    {list : MemberList} (fails : ∀ fault, E fault ctx)
    (detaches : ∀ o m, ctx.value? owner = some o → ctx.value? member = some m →
      o.kind = list.ownerKind → m.kind = list.memberKind → member ∈ ctx.members owner list →
      Q () (ctx.detached owner list member)) :
    (removeMember owner list member).Ensures Q E ctx := by
  unfold removeMember
  refine .look (.check fails fun _ hpair => .check fails fun x hx => ?_)
  obtain ⟨o, m, ho, hm, hok, hmk⟩ := checkPair_eq_ok hpair
  have hxm : m = x := Option.some.inj (hm.symm.trans (read_eq_ok.1 hx))
  subst hxm
  split
  · exact fails _
  · rename_i hmem
    have hQ := detaches o m ho hm hok hmk (Decidable.not_not.1 hmem)
    unfold detached at hQ
    simp only [hm, Option.bind_some] at hQ
    simp only [ensures_bind, ensures_setMembers, ensures_leaveName, ensures_setParent,
      ensures_note]
    exact hQ

/-- **Detaching** a value fails and changes nothing, or takes it out of the
list of its parent. -/
theorem ensures_detach {Q : Unit → Context → Prop} {v : ValueId} (fails : ∀ fault, E fault ctx)
    (detaches : ∀ o x owner list, ctx.value? owner = some o → ctx.value? v = some x →
      x.parent = some owner → o.kind = list.ownerKind → x.kind = list.memberKind →
      v ∈ ctx.members owner list → Q () (ctx.detached owner list v)) :
    (detach v).Ensures Q E ctx := by
  unfold detach
  refine .look (.check fails fun x hx => ?_)
  have hv := own_eq_ok.1 hx
  split
  · exact fails _
  · rename_i owner hparent
    split
    · exact fails _
    · rename_i list _
      refine ensures_removeMember fails fun o m ho hm hok hmk hmem => ?_
      have hxm : m = x := Option.some.inj (hm.symm.trans hv)
      subst hxm
      exact detaches o m owner list ho hv hparent hok hmk hmem

/-- Names leave a table without fail if the context holds the members. -/
theorem ensures_leaveNames {Q : Unit → Context → Prop} {owner : ValueId} :
    ∀ {vs : List ValueId} {ctx : Context}, (∀ v ∈ vs, ctx.ownsValue v) →
    ((leaveNames owner vs).Ensures Q E ctx ↔ Q () (leftAll owner vs ctx)) := by
  intro vs
  induction vs with
  | nil => intro ctx _; exact ensures_pure ()
  | cons v vs ih =>
    intro ctx howns
    obtain ⟨x, hx⟩ := Option.isSome_iff_exists.1 (howns v List.mem_cons_self)
    have hread : ctx.read v = .ok x := read_eq_ok.2 hx
    have hrest : ∀ w ∈ vs, (ctx.left owner v x.name).ownsValue w := by
      intro w hw
      rw [ownsValue_congr skeleton?_left]
      exact howns w (List.mem_cons_of_mem v hw)
    unfold leaveNames leftAll
    simp only [ensures_bind, ensures_context, ensures_liftM, hread, hx, Except.ok.injEq,
      forall_eq', reduceCtorEq, false_implies, implies_true, and_true, ensures_leaveName,
      Option.bind_some]
    exact ih hrest

/-- So do values get a new owner. -/
theorem ensures_adoptMembers {Q : Unit → Context → Prop} {owner : ValueId} :
    ∀ {vs : List ValueId} {ctx : Context}, (∀ v ∈ vs, ctx.ownsValue v) →
    ((adoptMembers owner vs).Ensures Q E ctx ↔ Q () (adoptedAll owner vs ctx)) := by
  intro vs
  induction vs with
  | nil => intro ctx _; exact ensures_pure ()
  | cons v vs ih =>
    intro ctx howns
    have howns' : ∀ w ∈ v :: vs, (ctx.withParent v (some owner)).ownsValue w := by
      intro w hw
      rw [withParent, ownsValue_update]
      exact howns w hw
    obtain ⟨x, hx⟩ := Option.isSome_iff_exists.1 (howns' v List.mem_cons_self)
    have hrest : ∀ w ∈ vs, ((ctx.withParent v (some owner)).adopted owner v).ownsValue w := by
      intro w hw
      rw [ownsValue_congr skeleton?_adopted]
      exact howns' w (List.mem_cons_of_mem v hw)
    unfold adoptMembers adoptedAll
    simp only [ensures_bind, ensures_setParent, ensures_adoptName hx]
    exact ih hrest

/-- **A transfer** fails in one of its checks and changes nothing, or passes
them and moves the run. The context holds the members it moves. -/
theorem ensures_transferMembers {Q : Unit → Context → Prop} {list : MemberList}
    {source target : ValueId} {start stop : Nat} {before : Option ValueId}
    (owned : ∀ v ∈ ctx.members source list, ctx.ownsValue v)
    (fails : ∀ fault, ctx.checkTransfer list source target start stop before = .error fault →
      E fault ctx)
    (moves : ∀ s t k, ctx.value? source = some s → ctx.value? target = some t →
      source ≠ target → s.kind = list.ownerKind → t.kind = list.ownerKind → start ≤ stop →
      stop ≤ (ctx.members source list).length →
      ctx.checkAdmissions list target (Sequence.slice start stop (ctx.members source list)) =
        .ok () →
      ctx.insertionIndex target list before = .ok k →
      Q () (ctx.transferred list source target start stop k)) :
    (transferMembers list source target start stop before).Ensures Q E ctx := by
  unfold checkTransfer at fails
  unfold transferMembers
  refine .look (.inspect (fun fault h => fails fault (bind_eq_error.2 (.inl h))) fun s hs => ?_)
  rw [hs, ok_bind] at fails
  refine .inspect (fun fault h => fails fault (bind_eq_error.2 (.inl h))) fun t ht => ?_
  rw [ht, ok_bind] at fails
  dsimp only at fails ⊢
  by_cases hne : source = target
  · rw [if_pos hne] at fails ⊢
    exact fails _ rfl
  rw [if_neg hne] at fails ⊢
  by_cases hsk : s.kind ≠ list.ownerKind
  · rw [if_pos hsk] at fails ⊢
    exact fails _ rfl
  rw [if_neg hsk] at fails ⊢
  by_cases htk : t.kind ≠ list.ownerKind
  · rw [if_pos htk] at fails ⊢
    exact fails _ rfl
  rw [if_neg htk] at fails ⊢
  by_cases hrange : stop < start ∨ (ctx.members source list).length < stop
  · rw [if_pos hrange] at fails ⊢
    exact fails _ rfl
  rw [if_neg hrange] at fails ⊢
  refine .inspect (fun fault h => fails fault (bind_eq_error.2 (.inl h))) fun _ hentry => ?_
  rw [hentry, ok_bind] at fails
  refine .inspect (fun fault h => fails fault (bind_eq_error.2 (.inl h))) fun k hk => ?_
  have hmoved : ∀ v ∈ Sequence.slice start stop (ctx.members source list), ctx.ownsValue v :=
    fun v hv => owned v (Sequence.mem_of_mem_slice hv)
  have hQ := moves s t k (own_eq_ok.1 hs) (own_eq_ok.1 ht) hne (Decidable.not_not.1 hsk)
    (Decidable.not_not.1 htk) (by omega) (by omega) hentry hk
  have hleave : ∀ v ∈ Sequence.slice start stop (ctx.members source list),
      (ctx.withMembers source list
        (Sequence.cut start stop (ctx.members source list))).ownsValue v := by
    intro v hv
    rw [withMembers, ownsValue_update]
    exact hmoved v hv
  simp only [ensures_bind, ensures_setMembers]
  rw [ensures_leaveNames hleave, ensures_adoptMembers, ensures_note]
  · exact hQ
  · intro v hv
    rw [withMembers, ownsValue_update]
    rw [ownsValue_congr skeleton?_leftAll]
    exact hleave v hv

/-! ## Creation -/

@[simp] theorem ensures_newValue {Q : ValueId → Context → Prop} (payload : Payload) :
    (newValue payload).Ensures Q E ctx ↔ Q ctx.nextValue (ctx.push payload) := by
  unfold newValue
  simp

@[simp] theorem ensures_constant {Q : ValueId → Context → Prop} (n : Int) (hex : Bool) :
    (constant n hex).Ensures Q E ctx ↔ Q (ctx.intern n hex).1 (ctx.intern n hex).2 := by
  unfold constant
  simp

/-! ## Instructions -/

/-- **Placing** an instruction fails and changes nothing, or puts it at a
position of a block. -/
theorem ensures_place {Q : Unit → Context → Prop} {i : InstId} {point : Point}
    (fails : ∀ fault, E fault ctx)
    (places : ∀ b k, ctx.pointBlock point = .ok b → ctx.kind? b = some .block →
      Sequence.position? point.follower? (ctx.body b) = some k → Q () (ctx.placed i b k)) :
    (place i point).Ensures Q E ctx := by
  unfold place
  refine .look (.check fails fun b hb => .check fails fun is his => ?_)
  obtain ⟨hkind, hbody⟩ := readBody_eq_ok.1 his
  subst hbody
  split
  · exact fails _
  · rename_i k hk
    have hplaced := places b k hb hkind hk
    rw [placed, Sequence.getElem?_of_position? hk] at hplaced
    exact hplaced

/-- **Taking an instruction out** of its block fails and changes nothing, or
does so. -/
theorem ensures_unplace {Q : Unit → Context → Prop} {i : InstId} (fails : ∀ fault, E fault ctx)
    (unplaces : ∀ x b, ctx.inst? i = some x → x.block = some b → Q () (ctx.unplaced i b)) :
    (unplace i).Ensures Q E ctx := by
  unfold unplace
  refine .look (.check fails fun x hx => ?_)
  split
  · exact fails _
  · rename_i b hb
    exact unplaces x b (ownInst_eq_ok.1 hx) hb

/-- **Erasing** an instruction fails and changes nothing, or takes it out of
its block, destroys it and tells what followed it. -/
theorem ensures_eraseInst {Q : Option InstId → Context → Prop} {i : InstId}
    (fails : ∀ fault, E fault ctx)
    (erases : ∀ x b, ctx.inst? i = some x → x.block = some b →
      Q (ctx.nextInst? i) ((ctx.unplaced i b).destroyed i)) :
    (eraseInst i).Ensures Q E ctx := by
  unfold eraseInst
  simp only [ensures_bind, ensures_context]
  refine ensures_unplace fails fun x b hx hb => ?_
  simp only [ensures_modify, ensures_note, ensures_pure]
  exact erases x b hx hb

/-- **Insertion of an instruction** fails and changes nothing, or passes its
checks and places it. -/
theorem ensures_insertInst {Q : Unit → Context → Prop} {i : InstId} {point : Point}
    (fails : ∀ fault, E fault ctx)
    (places : ∀ x b k, ctx.inst? i = some x → x.block = none → ctx.pointBlock point = .ok b →
      ctx.checkEntry x b = .ok () → ctx.kind? b = some .block →
      Sequence.position? point.follower? (ctx.body b) = some k → Q () (ctx.placed i b k)) :
    (insertInst i point).Ensures Q E ctx := by
  unfold insertInst
  refine .look (.check fails fun b hb => .check fails fun x hx => ?_)
  split
  · exact fails _
  · rename_i hfree
    have hnone : x.block = none := by simpa using hfree
    refine .check fails fun _ hentry => ensures_place fails fun b' k hb' hkind hk => ?_
    have hbb : b' = b := Except.ok.inj (hb'.symm.trans hb)
    subst hbb
    exact places x b' k (ownInst_eq_ok.1 hx) hnone hb hentry hkind hk

/-- **Creation of an instruction** fails before its number is taken, fails
and leaves the number to nobody, or passes its checks; then it is there, and
is placed unless the insertion point lies in no block. -/
theorem ensures_createInst {Q : InstId → Context → Prop} {op : Opcode}
    {results operands : List ValueId} {point : Point} (fails : ∀ fault, E fault ctx)
    (wastes : ∀ fault, E fault (ctx.pushInst none))
    (strands : ctx.checkOwned (results ++ operands) = .ok () →
      ctx.checkShape op results operands = .ok () →
      ∀ fault, E fault (ctx.pushInst (some { opcode := op, results, operands })))
    (creates : ∀ b k, ctx.checkOwned (results ++ operands) = .ok () →
      ctx.checkShape op results operands = .ok () →
      ctx.checkEntry { opcode := op, results, operands } b = .ok () →
      (ctx.pushInst (some { opcode := op, results, operands })).pointBlock point = .ok b →
      ctx.kind? b = some .block →
      Sequence.position? point.follower? (ctx.body b) = some k →
      Q ctx.nextInst
        ((ctx.pushInst (some { opcode := op, results, operands })).placed ctx.nextInst b k)) :
    (createInst op results operands point).Ensures Q E ctx := by
  unfold createInst
  refine .look (.check fails fun _ howned => .check fails fun _ hshape => ?_)
  dsimp only
  split
  · simp only [ensures_bind, ensures_modify, ensures_throw]
    exact wastes _
  · rename_i hentry
    simp only [ensures_bind, ensures_modify]
    refine ensures_place (fun fault => strands howned hshape fault) fun b k hb hkind hk => ?_
    simp only [ensures_note, ensures_pure]
    -- The entry was checked for the same block, before the instruction was added.
    obtain ⟨b', hb', hcheck⟩ := bind_eq_ok.1 hentry
    obtain rfl : b' = b := Except.ok.inj ((pointBlock_pushInst hb').symm.trans hb)
    exact creates b' k howned hshape hcheck hb hkind hk

/-- **Replacing an operand** fails and changes nothing, or passes its checks
and replaces it. -/
theorem ensures_setOperand {Q : Unit → Context → Prop} {i : InstId} {index : Nat} {v : ValueId}
    (fails : ∀ fault, E fault ctx)
    (replaces : ∀ x, ctx.ownsValue v → ctx.inst? i = some x → ctx.checkOperand x index v = .ok () →
      Q () (ctx.withOperand i index v)) :
    (setOperand i index v).Ensures Q E ctx := by
  unfold setOperand
  refine .look (.check fails fun y hy => .check fails fun x hx => .check fails fun _ hcheck => ?_)
  have howns : ctx.ownsValue v := by
    rw [ownsValue, own_eq_ok.1 hy]
    rfl
  exact replaces x howns (ownInst_eq_ok.1 hx) hcheck

end Edit

end ContractIR
