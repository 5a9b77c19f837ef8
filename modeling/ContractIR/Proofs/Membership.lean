import Mathlib.Data.List.Nodup
import Mathlib.Data.List.Perm.Basic
import ContractIR.Proofs.Evolution
/-!
# Members and their parents

A contract or a function lists its members, and a member names its parent.
The two are written separately, by creation, insertion, removal and transfer,
and they agree in every reachable context: a value has a parent exactly if
the parent lists it, in the list for its kind, once, and nobody else does.
-/

namespace ContractIR

namespace Sequence

variable {α : Type}

/-- A splice holds the run and what was there. -/
theorem splice_perm (i : Nat) (run l : List α) : (splice i run l).Perm (run ++ l) := by
  have h : (l.take i ++ run ++ l.drop i).Perm (run ++ (l.take i ++ l.drop i)) := by
    rw [List.append_assoc]
    exact List.perm_append_comm_assoc _ _ _
  rw [List.take_append_drop] at h
  exact h

/-- A list is what stands before a slice, the slice and what stands behind. -/
theorem take_append_slice_append_drop {start stop : Nat} (h : start ≤ stop) (l : List α) :
    l.take start ++ (slice start stop l ++ l.drop stop) = l := by
  have hdrop : l.drop stop = (l.drop start).drop (stop - start) := by
    rw [List.drop_drop]
    congr 1
    omega
  rw [hdrop, slice, List.take_append_drop, List.take_append_drop]

/-- A slice and what is left make up the list. -/
theorem slice_append_cut_perm {start stop : Nat} (h : start ≤ stop) (l : List α) :
    (slice start stop l ++ cut start stop l).Perm l := by
  conv_rhs => rw [← take_append_slice_append_drop h l]
  exact List.perm_append_comm_assoc _ _ _

end Sequence

namespace Context

variable {ctx : Context} {v w p q : ValueId} {list other : MemberList}

/-! ## What a change to a value shows -/

@[simp] theorem kind?_withMembers {vs : List ValueId} :
    (ctx.withMembers p list vs).kind? = ctx.kind? :=
  kind?_update_of_keeps fun x => x.kind_setMembers list vs

@[simp] theorem parent?_withMembers {vs : List ValueId} :
    (ctx.withMembers p list vs).parent? = ctx.parent? :=
  parent?_update_of_keeps fun x => x.parent_setMembers list vs

/-- Only the list that is set changes. -/
theorem members_withMembers {vs : List ValueId} (h : ctx.kind? p = some list.ownerKind) :
    (ctx.withMembers p list vs).members q other =
      if q = p ∧ other = list then vs else ctx.members q other := by
  obtain ⟨x, hx, hkind⟩ := Option.map_eq_some_iff.1 h
  simp only [members, withMembers, value?_update]
  by_cases hq : q = p
  · subst hq
    simp [hx, Value.members_setMembers x list vs other hkind]
  · simp [hq]

@[simp] theorem kind?_withParent {parent : Option ValueId} :
    (ctx.withParent v parent).kind? = ctx.kind? :=
  kind?_update_of_keeps fun _ => rfl

@[simp] theorem members_withParent {parent : Option ValueId} :
    (ctx.withParent v parent).members = ctx.members :=
  members_update_of_keeps fun _ => rfl

theorem parent?_withParent {parent : Option ValueId} (h : ctx.ownsValue v) :
    (ctx.withParent v parent).parent? w = if w = v then parent else ctx.parent? w := by
  obtain ⟨x, hx⟩ := Option.isSome_iff_exists.1 h
  simp only [parent?, withParent, value?_update]
  split
  · rename_i hw
    subst hw
    simp [hx]
  · rfl

/-- A new value is nobody's member. -/
theorem parent?_push {payload : Payload} : (ctx.push payload).parent? = ctx.parent? := by
  funext w
  simp only [parent?, value?_push]
  split
  · rename_i hw
    rw [hw, value?_eq_none_of_nextValue]
    rfl
  · rfl

theorem parent?_intern {n : Int} {hex : Bool} : (ctx.intern n hex).2.parent? = ctx.parent? := by
  have hpush : (ctx.push (.constant n hex)).parent? = ctx.parent? := parent?_push
  unfold Context.intern
  split
  · rfl
  · exact hpush

/-- Only an owner of the right kind keeps a list. -/
theorem kind?_of_mem_members (h : v ∈ ctx.members p list) :
    ctx.kind? p = some list.ownerKind := by
  unfold members at h
  cases hx : ctx.value? p with
  | none =>
    rw [hx] at h
    exact absurd h List.not_mem_nil
  | some x =>
    rw [hx] at h
    rw [kind?_of_value? hx, x.kind_of_mem_members h]

/-! ## Attaching, detaching and transferring -/

theorem kind?_attached {k : Nat} : (ctx.attached p list v k).kind? = ctx.kind? := by
  unfold attached
  rw [kind?_congr skeleton?_adopted, kind?_withParent, kind?_withMembers]

theorem members_attached {k : Nat} (h : ctx.kind? p = some list.ownerKind) :
    (ctx.attached p list v k).members q other =
      if q = p ∧ other = list then Sequence.splice k [v] (ctx.members p list)
      else ctx.members q other := by
  unfold attached
  rw [members_congr skeleton?_adopted, members_withParent, members_withMembers h]

theorem parent?_attached {k : Nat} (h : ctx.ownsValue v) :
    (ctx.attached p list v k).parent? w = if w = v then some p else ctx.parent? w := by
  unfold attached
  have howns : (ctx.withMembers p list
      (Sequence.splice k [v] (ctx.members p list))).ownsValue v := by
    rw [withMembers, ownsValue_update]
    exact h
  rw [parent?_congr skeleton?_adopted, parent?_withParent howns, parent?_withMembers]

theorem kind?_detached : (ctx.detached p list v).kind? = ctx.kind? := by
  unfold detached
  rw [kind?_withParent, kind?_congr skeleton?_left, kind?_withMembers]

theorem members_detached (h : ctx.kind? p = some list.ownerKind) :
    (ctx.detached p list v).members q other =
      if q = p ∧ other = list then (ctx.members p list).erase v else ctx.members q other := by
  unfold detached
  rw [members_withParent, members_congr skeleton?_left, members_withMembers h]

theorem parent?_detached (h : ctx.ownsValue v) :
    (ctx.detached p list v).parent? w = if w = v then none else ctx.parent? w := by
  unfold detached
  have howns : ((ctx.withMembers p list ((ctx.members p list).erase v)).left p v
      ((ctx.value? v).bind Value.name)).ownsValue v := by
    rw [ownsValue_congr skeleton?_left, withMembers, ownsValue_update]
    exact h
  rw [parent?_withParent howns, parent?_congr skeleton?_left, parent?_withMembers]

theorem kind?_adoptedAll {vs : List ValueId} :
    ∀ {ctx : Context}, (adoptedAll p vs ctx).kind? = ctx.kind? := by
  induction vs with
  | nil => intro ctx; rfl
  | cons v vs ih =>
    intro ctx
    rw [adoptedAll, ih, kind?_congr skeleton?_adopted, kind?_withParent]

theorem members_adoptedAll {vs : List ValueId} :
    ∀ {ctx : Context}, (adoptedAll p vs ctx).members = ctx.members := by
  induction vs with
  | nil => intro ctx; rfl
  | cons v vs ih =>
    intro ctx
    rw [adoptedAll, ih, members_congr skeleton?_adopted, members_withParent]

/-- Every value that is adopted has the new owner as its parent, and no other
value's parent changes. -/
theorem parent?_adoptedAll {vs : List ValueId} :
    ∀ {ctx : Context}, (∀ v ∈ vs, ctx.ownsValue v) →
      (adoptedAll p vs ctx).parent? w = if w ∈ vs then some p else ctx.parent? w := by
  induction vs with
  | nil => intro ctx _; simp [adoptedAll]
  | cons v vs ih =>
    intro ctx howns
    have hrest : ∀ u ∈ vs, ((ctx.withParent v (some p)).adopted p v).ownsValue u := by
      intro u hu
      rw [ownsValue_congr skeleton?_adopted, withParent, ownsValue_update]
      exact howns u (List.mem_cons_of_mem v hu)
    rw [adoptedAll, ih hrest, parent?_congr skeleton?_adopted,
      parent?_withParent (howns v List.mem_cons_self)]
    by_cases hw : w ∈ vs
    · simp [hw]
    · by_cases hv : w = v <;> simp [hw, hv]

theorem kind?_transferred {start stop k : Nat} :
    (ctx.transferred list p q start stop k).kind? = ctx.kind? := by
  unfold transferred
  rw [kind?_adoptedAll, kind?_withMembers, kind?_congr skeleton?_leftAll, kind?_withMembers]

theorem members_transferred {start stop k : Nat} {r : ValueId}
    (hp : ctx.kind? p = some list.ownerKind) (hq : ctx.kind? q = some list.ownerKind) :
    (ctx.transferred list p q start stop k).members r other =
      if r = q ∧ other = list then
        Sequence.splice k (Sequence.slice start stop (ctx.members p list)) (ctx.members q list)
      else if r = p ∧ other = list then Sequence.cut start stop (ctx.members p list)
      else ctx.members r other := by
  unfold transferred
  rw [members_adoptedAll, members_withMembers, members_congr skeleton?_leftAll,
    members_withMembers hp]
  rw [kind?_congr skeleton?_leftAll, kind?_withMembers]
  exact hq

theorem parent?_transferred {start stop k : Nat}
    (owned : ∀ v ∈ ctx.members p list, ctx.ownsValue v) :
    (ctx.transferred list p q start stop k).parent? w =
      if w ∈ Sequence.slice start stop (ctx.members p list) then some q else ctx.parent? w := by
  unfold transferred
  rw [parent?_adoptedAll, parent?_withMembers, parent?_congr skeleton?_leftAll,
    parent?_withMembers]
  intro v hv
  rw [withMembers, ownsValue_update, ownsValue_congr skeleton?_leftAll, withMembers,
    ownsValue_update]
  exact owned v (Sequence.mem_of_mem_slice hv)

end Context

/-! ## The invariant -/

/-- **Lists and parents agree**: what is listed is of the list's kind and has
the owner as its parent, a list names nothing twice, and what has a parent is
listed there. -/
structure Membered (ctx : Context) : Prop where
  nodup : ∀ p l, (ctx.members p l).Nodup
  kind : ∀ {p l v}, v ∈ ctx.members p l → ctx.kind? v = some l.memberKind
  parent : ∀ {p l v}, v ∈ ctx.members p l → ctx.parent? v = some p
  listed : ∀ {v p}, ctx.parent? v = some p → ∃ l, v ∈ ctx.members p l

namespace Membered

open Context

variable {ctx ctx' : Context} {v w p q : ValueId} {list other : MemberList}

/-- The invariant speaks of kinds, parents and members only. -/
theorem congr (h : Membered ctx) (same : SameMembers ctx' ctx) : Membered ctx' := by
  constructor
  · rw [same.members]; exact h.nodup
  · rw [same.members, same.kind]; exact h.kind
  · rw [same.members, same.parent]; exact h.parent
  · rw [same.members, same.parent]; exact h.listed

theorem owned (h : Membered ctx) (hv : v ∈ ctx.members p list) : ctx.ownsValue v :=
  ownsValue_of_kind? (h.kind hv)

/-- A value is in one list of one owner. -/
theorem unique (h : Membered ctx) (hv : v ∈ ctx.members p list) (hv' : v ∈ ctx.members q other) :
    p = q ∧ list = other := by
  refine ⟨Option.some.inj ((h.parent hv).symm.trans (h.parent hv')), ?_⟩
  have hkind : list.memberKind = other.memberKind :=
    Option.some.inj ((h.kind hv).symm.trans (h.kind hv'))
  have hlist := MemberList.ofKind?_memberKind list
  rw [hkind, MemberList.ofKind?_memberKind] at hlist
  exact (Option.some.inj hlist).symm

/-- What has no parent is in no list. -/
theorem not_mem_of_free (h : Membered ctx) (hfree : ctx.parent? v = none) :
    v ∉ ctx.members p list := by
  intro hv
  rw [h.parent hv] at hfree
  cases hfree

theorem push (h : Membered ctx) {payload : Payload}
    (empty : ∀ l, ({ payload } : Value).members l = []) : Membered (ctx.push payload) := by
  have hmembers : ∀ q l, (ctx.push payload).members q l = ctx.members q l := by
    intro q l
    simp only [members, value?_push]
    split
    · rename_i hq
      rw [hq, value?_eq_none_of_nextValue]
      exact empty l
    · rfl
  -- A listed value is an old one, so its kind is the old kind.
  have hkind : ∀ {w k}, ctx.kind? w = some k → (ctx.push payload).kind? w = some k :=
    kind?_push_of_kind?
  constructor
  · intro q l
    rw [hmembers]
    exact h.nodup q l
  · intro q l w hw
    rw [hmembers] at hw
    exact hkind (h.kind hw)
  · intro q l w hw
    rw [hmembers] at hw
    rw [parent?_push]
    exact h.parent hw
  · intro w q hw
    rw [parent?_push] at hw
    obtain ⟨l, hl⟩ := h.listed hw
    exact ⟨l, by rw [hmembers]; exact hl⟩

/-- What is attached is in one more list. -/
theorem mem_attached {k : Nat} (howner : ctx.kind? p = some list.ownerKind) :
    w ∈ (ctx.attached p list v k).members q other ↔
      (w = v ∧ q = p ∧ other = list) ∨ w ∈ ctx.members q other := by
  rw [members_attached howner]
  split
  · rename_i hq
    rw [Sequence.mem_splice, List.mem_singleton, hq.1, hq.2]
    simp
  · rename_i hq
    simp [hq]

theorem attached (h : Membered ctx) {k : Nat} (howner : ctx.kind? p = some list.ownerKind)
    (hmember : ctx.kind? v = some list.memberKind) (hfree : ctx.parent? v = none) :
    Membered (ctx.attached p list v k) := by
  have howns := ownsValue_of_kind? hmember
  constructor
  · intro q l
    rw [members_attached howner]
    split
    · rw [(Sequence.splice_perm k [v] _).nodup_iff]
      exact List.nodup_cons.2 ⟨h.not_mem_of_free hfree, h.nodup p list⟩
    · exact h.nodup q l
  · intro q l w hw
    rw [kind?_attached]
    rcases (mem_attached howner).1 hw with ⟨rfl, rfl, rfl⟩ | hw
    · exact hmember
    · exact h.kind hw
  · intro q l w hw
    rw [parent?_attached howns]
    rcases (mem_attached howner).1 hw with ⟨rfl, rfl, rfl⟩ | hw
    · exact if_pos rfl
    · have hne : w ≠ v := fun hwv => h.not_mem_of_free hfree (hwv ▸ hw)
      rw [if_neg hne]
      exact h.parent hw
  · intro w q hw
    rw [parent?_attached howns] at hw
    split at hw
    · exact ⟨list, (mem_attached howner).2 (.inl ⟨‹w = v›, (Option.some.inj hw).symm, rfl⟩)⟩
    · obtain ⟨l, hl⟩ := h.listed hw
      exact ⟨l, (mem_attached howner).2 (.inr hl)⟩

/-- What is detached is in no list, since it was in no other one. -/
theorem mem_detached (h : Membered ctx) (hv : v ∈ ctx.members p list) :
    w ∈ (ctx.detached p list v).members q other ↔ w ≠ v ∧ w ∈ ctx.members q other := by
  rw [members_detached (kind?_of_mem_members hv)]
  split
  · rename_i hq
    rw [(h.nodup p list).mem_erase_iff, hq.1, hq.2]
  · rename_i hq
    refine ⟨fun hw => ⟨?_, hw⟩, fun hw => hw.2⟩
    rintro rfl
    exact hq ⟨(h.unique hv hw).1.symm, (h.unique hv hw).2.symm⟩

theorem detached (h : Membered ctx) (hv : v ∈ ctx.members p list) :
    Membered (ctx.detached p list v) := by
  have howns := h.owned hv
  constructor
  · intro q l
    rw [members_detached (kind?_of_mem_members hv)]
    split
    · exact (h.nodup p list).erase v
    · exact h.nodup q l
  · intro q l w hw
    rw [kind?_detached]
    exact h.kind ((h.mem_detached hv).1 hw).2
  · intro q l w hw
    obtain ⟨hne, hw⟩ := (h.mem_detached hv).1 hw
    rw [parent?_detached howns, if_neg hne]
    exact h.parent hw
  · intro w q hw
    rw [parent?_detached howns] at hw
    split at hw
    · cases hw
    · obtain ⟨l, hl⟩ := h.listed hw
      exact ⟨l, (h.mem_detached hv).2 ⟨‹w ≠ v›, hl⟩⟩

section Transfer

variable {start stop k : Nat}

/-- What a cut leaves is what is not in the slice. -/
theorem mem_cut (h : Membered ctx) (horder : start ≤ stop) :
    w ∈ Sequence.cut start stop (ctx.members p list) ↔
      w ∉ Sequence.slice start stop (ctx.members p list) ∧ w ∈ ctx.members p list := by
  have hperm := Sequence.slice_append_cut_perm horder (ctx.members p list)
  obtain ⟨-, -, hdisjoint⟩ := List.nodup_append'.1 (hperm.nodup_iff.2 (h.nodup p list))
  refine ⟨fun hw => ⟨fun hw' => hdisjoint hw' hw, hperm.mem_iff.1 (List.mem_append_right _ hw)⟩,
    fun hw => ?_⟩
  rcases List.mem_append.1 (hperm.mem_iff.2 hw.2) with hw' | hw'
  · exact absurd hw' hw.1
  · exact hw'

/-- What is moved is in the target's list, and everything else is where it
was. -/
theorem mem_transferred (h : Membered ctx) {r : ValueId} {m : MemberList}
    (hsource : ctx.kind? p = some list.ownerKind) (htarget : ctx.kind? q = some list.ownerKind)
    (horder : start ≤ stop) :
    w ∈ (ctx.transferred list p q start stop k).members r m ↔
      (w ∈ Sequence.slice start stop (ctx.members p list) ∧ r = q ∧ m = list) ∨
        (w ∉ Sequence.slice start stop (ctx.members p list) ∧ w ∈ ctx.members r m) := by
  rw [members_transferred hsource htarget]
  by_cases hw : w ∈ Sequence.slice start stop (ctx.members p list)
  · by_cases hq : r = q ∧ m = list
    · simp only [hq, and_self, if_true, Sequence.mem_splice, hw, true_or, not_true_eq_false,
        false_and, or_false]
    · rw [if_neg hq]
      -- It was in the source's list alone, and has been cut out of it.
      have hother : w ∉ if r = p ∧ m = list then
          Sequence.cut start stop (ctx.members p list) else ctx.members r m := by
        split
        · exact fun hw' => ((h.mem_cut horder).1 hw').1 hw
        · rename_i hp
          exact fun hw' => hp ⟨(h.unique (Sequence.mem_of_mem_slice hw) hw').1.symm,
            (h.unique (Sequence.mem_of_mem_slice hw) hw').2.symm⟩
      simp only [hother, hw, hq, and_false, not_true_eq_false, false_and, or_self]
  · simp only [hw, false_and, not_false_eq_true, true_and, false_or]
    split
    · rename_i hq
      rw [Sequence.mem_splice, hq.1, hq.2]
      simp [hw]
    · split
      · rename_i hp
        rw [h.mem_cut horder, hp.1, hp.2]
        simp [hw]
      · exact Iff.rfl

theorem transferred (h : Membered ctx) (hne : p ≠ q)
    (hsource : ctx.kind? p = some list.ownerKind) (htarget : ctx.kind? q = some list.ownerKind)
    (horder : start ≤ stop) : Membered (ctx.transferred list p q start stop k) := by
  have hnodup : (Sequence.slice start stop (ctx.members p list) ++
      Sequence.cut start stop (ctx.members p list)).Nodup :=
    (Sequence.slice_append_cut_perm horder _).nodup_iff.2 (h.nodup p list)
  obtain ⟨hmovedNodup, hcutNodup, -⟩ := List.nodup_append'.1 hnodup
  have howned : ∀ w ∈ ctx.members p list, ctx.ownsValue w := fun w hw => h.owned hw
  have hmem := fun {r l w} =>
    h.mem_transferred (k := k) (r := r) (m := l) (w := w) hsource htarget horder
  constructor
  · intro r l
    rw [members_transferred hsource htarget]
    split
    · rw [(Sequence.splice_perm k _ _).nodup_iff]
      refine List.nodup_append'.2 ⟨hmovedNodup, h.nodup q list, ?_⟩
      intro w hw hwq
      exact hne (h.unique (Sequence.mem_of_mem_slice hw) hwq).1
    · split
      · exact hcutNodup
      · exact h.nodup r l
  · intro r l w hw
    rw [kind?_transferred]
    rcases hmem.1 hw with ⟨hw', rfl, rfl⟩ | ⟨-, hw⟩
    · exact h.kind (Sequence.mem_of_mem_slice hw')
    · exact h.kind hw
  · intro r l w hw
    rw [parent?_transferred howned]
    rcases hmem.1 hw with ⟨hw', rfl, rfl⟩ | ⟨hwm, hw⟩
    · exact if_pos hw'
    · rw [if_neg hwm]
      exact h.parent hw
  · intro w r hw
    rw [parent?_transferred howned] at hw
    split at hw
    · exact ⟨list, hmem.2 (.inl ⟨‹_›, (Option.some.inj hw).symm, rfl⟩)⟩
    · obtain ⟨l, hl⟩ := h.listed hw
      exact ⟨l, hmem.2 (.inr ⟨‹_›, hl⟩)⟩

end Transfer

/-- **No change breaks the agreement.** -/
theorem step (h : Membered ctx) {taken : List ValueId} (hc : Change ctx taken ctx') :
    Membered ctx' := by
  cases hc with
  | intern n hex =>
    unfold Context.intern
    split
    · exact h
    · have hpush : Membered (ctx.push (.constant n hex)) := h.push fun l => by cases l <;> rfl
      exact hpush.congr (.of_skeleton rfl)
  | push fresh => exact h.push fun l => by cases fresh <;> cases l <;> rfl
  | enlist c => exact h.congr (.of_skeleton rfl)
  | rename => exact h.congr (.of_skeleton skeleton?_renamed)
  | attach ho hm hok hmk hfree =>
    exact h.attached (by rw [kind?_of_value? ho, hok]) (by rw [kind?_of_value? hm, hmk])
      (by rw [parent?_of_value? hm, hfree])
  | detach _ _ _ _ _ hmem => exact h.detached hmem
  | transfer hs ht hne hsk htk horder =>
    exact h.transferred hne (by rw [kind?_of_value? hs, hsk]) (by rw [kind?_of_value? ht, htk])
      horder
  | annotate only => exact h.congr (.of_skeleton (skeleton?_update_of_keeps only.skeleton))
  | waste | create => exact h.congr .pushInst
  | place => exact h.congr .placed
  | move => exact h.congr (.trans .placed .unplaced)
  | unplace => exact h.congr .unplaced
  | destroy => exact h.congr .destroyed
  | setOperand => exact h.congr .withOperand

theorem empty (id : ContextId) : Membered { id } := by
  have hmembers : ∀ p l, ({ id } : Context).members p l = [] := by
    intro p l
    simp [members, value?]
  constructor
  · intro p l; rw [hmembers]; exact List.nodup_nil
  · intro p l v hv; rw [hmembers] at hv; exact absurd hv List.not_mem_nil
  · intro p l v hv; rw [hmembers] at hv; exact absurd hv List.not_mem_nil
  · intro v p hv; simp [parent?, value?] at hv

end Membered

namespace Reachable

variable {ctx : Context}

/-- **What no change breaks holds of every reachable context.** Changes are
those of contexts whose lists and parents agree. -/
theorem keeps {P : Context → Prop} (start : ∀ id, P { id })
    (step : ∀ {c taken c'}, Membered c → P c → Change c taken c' → P c') (h : Reachable ctx) :
    P ctx := by
  -- The agreement is carried along, since operations amount to changes only where it holds.
  suffices hboth : Membered ctx ∧ P ctx from hboth.2
  induction h with
  | empty id => exact ⟨.empty id, start id⟩
  | step operation fit _ ih =>
    have hstep : ∀ {c taken c'}, Membered c ∧ P c → Change c taken c' → Membered c' ∧ P c' :=
      fun hP hc => ⟨hP.1.step hc, step hP.1 hP.2 hc⟩
    rcases Operation.evolves_perform (fun _ _ _ hv => ih.1.owned hv) fit with hevolves | hchange
    · exact hevolves.keeps hstep ih
    · exact hstep ih hchange

theorem membered (h : Reachable ctx) : Membered ctx :=
  h.keeps Membered.empty fun hm _ hc => hm.step hc

end Reachable

/-! ## Detaching a member -/

namespace Membered

open Context

variable {ctx : Context} {v p : ValueId}

/-- The list of a member is the one for its kind. -/
theorem listed_by_kind (h : Membered ctx) (hv : ctx.parent? v = some p) :
    ∃ l, (ctx.kind? v).bind MemberList.ofKind? = some l ∧ v ∈ ctx.members p l := by
  obtain ⟨l, hl⟩ := h.listed hv
  refine ⟨l, ?_, hl⟩
  rw [h.kind hl]
  exact MemberList.ofKind?_memberKind l

theorem mem_of_kind (h : Membered ctx) {l : MemberList} (hv : ctx.parent? v = some p)
    (hkind : ctx.kind? v = some l.memberKind) : v ∈ ctx.members p l := by
  obtain ⟨m, hm, hmem⟩ := h.listed_by_kind hv
  rw [hkind, Option.bind_some, MemberList.ofKind?_memberKind] at hm
  exact Option.some.inj hm ▸ hmem

/-- **A member is taken away without fail.** -/
theorem ensures_detach_iff (h : Membered ctx) {l : MemberList} (hl : v ∈ ctx.members p l)
    {Q : Unit → Context → Prop} {E : Fault → Context → Prop} :
    (Edit.detach v).Ensures Q E ctx ↔ Q () (ctx.detached p l v) := by
  obtain ⟨x, hx, hxkind⟩ := Option.map_eq_some_iff.1 (h.kind hl)
  obtain ⟨o, ho, hokind⟩ := Option.map_eq_some_iff.1 (kind?_of_mem_members hl)
  have hparent : x.parent = some p := by
    rw [← parent?_of_value? hx]
    exact h.parent hl
  have hpair : ctx.checkPair p l v = .ok () := by
    unfold checkPair
    rw [own_eq_ok.2 ho, own_eq_ok.2 hx]
    simp [bind, Except.bind, hokind, hxkind]
    rfl
  have hleaves : ((ctx.withMembers p l ((ctx.members p l).erase v)).left p v x.name).withParent v
      none = ctx.detached p l v := by
    unfold Context.detached
    rw [hx]
    rfl
  unfold Edit.detach
  simp only [Edit.ensures_bind, Edit.ensures_context, Edit.ensures_liftM, own_eq_ok.2 hx,
    Except.ok.injEq, forall_eq', reduceCtorEq, false_implies, implies_true, and_true, hparent,
    hxkind, MemberList.ofKind?_memberKind]
  unfold Edit.removeMember
  simp only [Edit.ensures_bind, Edit.ensures_context, Edit.ensures_liftM, hpair,
    read_eq_ok.2 hx, Except.ok.injEq, forall_eq', reduceCtorEq, false_implies, implies_true,
    and_true, hl, not_true_eq_false, if_false, Edit.ensures_setMembers, Edit.ensures_leaveName,
    Edit.ensures_setParent, Edit.ensures_note, hleaves, forall_const]

/-- **A member can be taken away from its parent**, and then has none. -/
theorem ensures_detach (h : Membered ctx) (hv : ctx.parent? v = some p) :
    (Edit.detach v).Ensures (fun _ c => c.parent? v = none ∧ ∀ q l, v ∉ c.members q l)
      (fun _ _ => False) ctx := by
  obtain ⟨l, hl⟩ := h.listed hv
  have hafter : (ctx.detached p l v).parent? v = none := by
    rw [parent?_detached (h.owned hl), if_pos rfl]
  exact (h.ensures_detach_iff hl).2 ⟨hafter, fun q m => (h.detached hl).not_mem_of_free hafter⟩

end Membered

/-- **Parents and member lists agree in every reachable context.** A value's
parent is the one owner that lists it: in the list for its kind, once, and no
other list has it. A list holds values of its kind that the context holds,
constants have no parent, and a value that has a parent can be detached. -/
theorem parent_eq_some_iff_listed {ctx : Context} (reachable : Reachable ctx) :
    (∀ v p, ctx.parent? v = some p ↔
      ∃ l, (ctx.kind? v).bind MemberList.ofKind? = some l ∧ v ∈ ctx.members p l) ∧
    (∀ v p l, v ∈ ctx.members p l →
      (ctx.members p l).count v = 1 ∧ ∀ q m, v ∈ ctx.members q m → q = p ∧ m = l) ∧
    (∀ v p l, v ∈ ctx.members p l → ctx.ownsValue v ∧ ctx.kind? v = some l.memberKind ∧
      ctx.kind? p = some l.ownerKind) ∧
    (∀ v, ctx.kind? v = some .constant → ctx.parent? v = none) ∧
    (∀ v p, ctx.parent? v = some p → ((Edit.detach v).run ctx).outcome = .ok () ∧
      ((Edit.detach v).run ctx).context.parent? v = none) := by
  have h := reachable.membered
  refine ⟨fun v p => ⟨h.listed_by_kind, ?_⟩, fun v p l hv => ⟨?_, fun q m hq => ?_⟩,
    fun v p l hv => ⟨h.owned hv, h.kind hv, Context.kind?_of_mem_members hv⟩, fun v hv => ?_,
    fun v p hv => ?_⟩
  · rintro ⟨l, -, hl⟩
    exact h.parent hl
  · exact List.count_eq_one_of_mem (h.nodup p l) hv
  · exact h.unique hq hv
  · cases hp : ctx.parent? v with
    | none => rfl
    | some p =>
      obtain ⟨l, hl, -⟩ := h.listed_by_kind hp
      rw [hv] at hl
      cases hl
  · obtain ⟨_, hok, hparent, -⟩ := (h.ensures_detach hv).exists_ok
    exact ⟨hok, hparent⟩

/-- A contract with a nested one, and a function that went from the one to
the other with its local. -/
def movedFunction : Context :=
  Operation.runAll
    [.createContract "", .createSubcontract "" ⟨0, 0⟩, .createFunction true "" (some ⟨0, 0⟩),
      .createLocal "" (some ⟨0, 2⟩), .transfer .functions ⟨0, 0⟩ ⟨0, 1⟩ 0 1 none] { id := 0 }

/-- There the function is in the nested contract's list alone. -/
theorem parent_eq_some_iff_listed_movedFunction :
    Reachable movedFunction ∧ movedFunction.parent? ⟨0, 2⟩ = some ⟨0, 1⟩ ∧
      (movedFunction.members ⟨0, 1⟩ .functions).count ⟨0, 2⟩ = 1 ∧
      ((Edit.detach ⟨0, 2⟩).run movedFunction).outcome = .ok () := by
  have hreachable : Reachable movedFunction := (Reachable.empty 0).runAll (by decide)
  have hparent : movedFunction.parent? ⟨0, 2⟩ = some ⟨0, 1⟩ := by decide
  have hlisted : (⟨0, 2⟩ : ValueId) ∈ movedFunction.members ⟨0, 1⟩ .functions := by decide
  obtain ⟨-, hcount, -, -, hdetach⟩ := parent_eq_some_iff_listed hreachable
  exact ⟨hreachable, hparent, (hcount _ _ _ hlisted).1, (hdetach _ _ hparent).1⟩

end ContractIR
