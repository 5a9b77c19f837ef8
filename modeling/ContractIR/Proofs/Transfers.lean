import ContractIR.Proofs.Reinsertion
/-!
# Moving a range of members

A transfer takes a range of members out of one owner's list and puts it into
another's. The lists change in one piece, the tables name by name: first every
name leaves the old owner's table, then the members enter the new owner's one
after the other, and what is free for one of them hangs on what those before it
were given. `SymbolTable.Enrolls` says what comes out of that, and `MovedRange`
what comes out of a whole transfer.
-/

namespace ContractIR

/-! ## Entering one after the other -/

namespace SymbolTable

variable {t t' : SymbolTable} {v : ValueId} {vs : List ValueId} {name : String} {isGlobal : Bool}
variable {old new : ValueId → Option String}

/-- **Values enter a table in their order**, from the names they had to the
names they have then. -/
inductive Enrolls (isGlobal : Bool) (old new : ValueId → Option String) :
    SymbolTable → List ValueId → SymbolTable → Prop
  /-- Nobody is left to enter. -/
  | done {t : SymbolTable} : Enrolls isGlobal old new t [] t
  /-- A value without name stays without. -/
  | unnamed {t t' : SymbolTable} {v : ValueId} {vs : List ValueId} (none_before : old v = none)
      (none_after : new v = none) (rest : Enrolls isGlobal old new t vs t') :
      Enrolls isGlobal old new t (v :: vs) t'
  /-- A name that is free is kept. -/
  | kept {t t' : SymbolTable} {v : ValueId} {vs : List ValueId} {name : String}
      (before : old v = some name) (free : t.contains name = false) (after : new v = some name)
      (rest : Enrolls isGlobal old new { t with entries := t.entries.insert name v } vs t') :
      Enrolls isGlobal old new t (v :: vs) t'
  /-- A name that is taken gets the first number behind the last one used that
  makes it free. -/
  | numbered {t t' : SymbolTable} {v : ValueId} {vs : List ValueId} {name : String} {n : Nat}
      (before : old v = some name) (taken : t.contains name = true) (behind : t.lastUnique < n)
      (free : t.contains (numbered name isGlobal n) = false)
      (first : ∀ m, t.lastUnique < m → m < n → t.contains (SymbolTable.numbered name isGlobal m))
      (after : new v = some (SymbolTable.numbered name isGlobal n))
      (rest : Enrolls isGlobal old new
        ⟨t.entries.insert (SymbolTable.numbered name isGlobal n) v, n⟩ vs t') :
      Enrolls isGlobal old new t (v :: vs) t'

namespace Enrolls

/-- Only the names that the values had matter. -/
theorem congr {old' : ValueId → Option String} (h : Enrolls isGlobal old new t vs t')
    (hold : ∀ v ∈ vs, old' v = old v) : Enrolls isGlobal old' new t vs t' := by
  induction h with
  | done => exact .done
  | unnamed none_before none_after rest ih =>
    obtain ⟨hv, hvs⟩ := List.forall_mem_cons.1 hold
    exact .unnamed (hv.trans none_before) none_after (ih hvs)
  | kept before free after rest ih =>
    obtain ⟨hv, hvs⟩ := List.forall_mem_cons.1 hold
    exact .kept (hv.trans before) free after (ih hvs)
  | numbered before taken behind free first after rest ih =>
    obtain ⟨hv, hvs⟩ := List.forall_mem_cons.1 hold
    exact .numbered (hv.trans before) taken behind free first after (ih hvs)

/-- A value that is entered comes first. -/
theorem enter (before : old v = some name) (after : new v = some (t.enter name v isGlobal).1)
    (rest : Enrolls isGlobal old new (t.enter name v isGlobal).2 vs t') :
    Enrolls isGlobal old new t (v :: vs) t' := by
  rcases t.enter_cases name v isGlobal with
    ⟨hfree, henter⟩ | ⟨htaken, n, hbehind, hfree, hfirst, henter⟩
  · rw [henter] at after rest
    exact .kept before hfree after rest
  · rw [henter] at after rest
    exact .numbered before htaken hbehind hfree hfirst after rest

end Enrolls

end SymbolTable

namespace Context

variable {ctx : Context} {p q v w source target : ValueId} {vs : List ValueId} {list : MemberList}
variable {start stop k : Nat}

/-! ## Names that leave -/

theorem storedName?_left {name : Option String} :
    (ctx.left p v name).storedName? = ctx.storedName? := by
  rw [left_eq_update, storedName?_update_mapSymbols]

theorem symbols_left_of_ne {name : Option String} (hq : q ≠ p) :
    (ctx.left p v name).symbols q = ctx.symbols q := by
  rw [left_eq_update, symbols, value?_update, if_neg hq]
  rfl

theorem storedName?_leftAll :
    ∀ {ctx : Context}, (leftAll p vs ctx).storedName? = ctx.storedName? := by
  induction vs with
  | nil => intro ctx; rfl
  | cons v vs ih =>
    intro ctx
    rw [leftAll, ih, storedName?_left]

theorem symbols_leftAll_of_ne (hq : q ≠ p) :
    ∀ {ctx : Context}, (leftAll p vs ctx).symbols q = ctx.symbols q := by
  induction vs with
  | nil => intro ctx; rfl
  | cons v vs ih =>
    intro ctx
    rw [leftAll, ih, symbols_left_of_ne hq]

/-- No number is given back with a name. -/
theorem lastUnique_symbols_leftAll :
    ∀ {ctx : Context}, ctx.isOwner p →
      ((leftAll p vs ctx).symbols p).lastUnique = (ctx.symbols p).lastUnique := by
  induction vs with
  | nil => intro ctx _; rfl
  | cons v vs ih =>
    intro ctx howner
    have hstill : (ctx.left p v (ctx.storedName? v)).isOwner p := by
      rw [isOwner_congr (kind?_congr skeleton?_left)]
      exact howner
    have hleave : ((ctx.left p v (ctx.storedName? v)).symbols p).lastUnique =
        (ctx.symbols p).lastUnique := by
      rw [left_eq_update, symbols_update_mapSymbols howner, Function.update_self]
      cases ctx.storedName? v <;> simp
    exact (ih hstill).trans hleave

/-! ## Names that enter -/

/-- What adopting does: nothing for a value without name, and for any other it
enters the name and stores the one that was used. -/
theorem adopted_cases {kind : Kind} (howner : ctx.isOwner p) (hkind : ctx.kind? v = some kind) :
    (ctx.storedName? v = none ∧ ctx.adopted p v = ctx) ∨
    ∃ name, ctx.storedName? v = some name ∧
      (ctx.adopted p v).storedName? v =
        some ((ctx.symbols p).enter name v kind.isGlobalValue).1 ∧
      (ctx.adopted p v).symbols p = ((ctx.symbols p).enter name v kind.isGlobalValue).2 := by
  obtain ⟨x, hx, rfl⟩ := Option.map_eq_some_iff.1 hkind
  have hstored : ctx.storedName? v = x.name := by
    rw [storedName?, hx]
    rfl
  unfold adopted
  rw [hstored, hx]
  cases hname : x.name with
  | none =>
    refine .inl ⟨rfl, ?_⟩
    simp only [hname]
  | some name =>
    have howns : (ctx.entered p v name x.kind.isGlobalValue).ownsValue v := by
      rw [ownsValue_congr skeleton?_entered]
      exact ownsValue_of_kind? hkind
    refine .inr ⟨name, rfl, ?_, ?_⟩
    · simp only [hname]
      rw [storedName?_labelled howns, Function.update_self]
    · simp only [hname]
      rw [symbols_labelled, symbols_entered howner, Function.update_self]

theorem symbols_adopted_of_ne (hq : q ≠ p) : (ctx.adopted p v).symbols q = ctx.symbols q := by
  unfold adopted
  split
  · rfl
  split
  · rfl
  · rw [symbols_labelled, entered, symbols, value?_update, if_neg hq]
    rfl

theorem storedName?_adopted_of_ne (hw : w ≠ v) :
    (ctx.adopted p v).storedName? w = ctx.storedName? w := by
  unfold adopted
  split
  · rfl
  split
  · rfl
  · rw [storedName?, labelled, value?_update, if_neg hw]
    exact congrFun storedName?_entered w

theorem symbols_adoptedAll_of_ne (hq : q ≠ p) :
    ∀ {ctx : Context}, (adoptedAll p vs ctx).symbols q = ctx.symbols q := by
  induction vs with
  | nil => intro ctx; rfl
  | cons v vs ih =>
    intro ctx
    rw [adoptedAll, ih, symbols_adopted_of_ne hq, SameNames.withParent.symbols]

theorem storedName?_adoptedAll_of_not_mem (hw : w ∉ vs) :
    ∀ {ctx : Context}, (adoptedAll p vs ctx).storedName? w = ctx.storedName? w := by
  induction vs with
  | nil => intro ctx; rfl
  | cons v vs ih =>
    intro ctx
    obtain ⟨hne, hrest⟩ := List.ne_and_not_mem_of_not_mem_cons hw
    rw [adoptedAll, ih hrest, storedName?_adopted_of_ne hne, SameNames.withParent.name]

/-- **Values of one kind that get a new owner enter its table in their order.** -/
theorem enrolls_adoptedAll {kind : Kind} :
    ∀ {ctx : Context}, ctx.isOwner p → vs.Nodup → (∀ v ∈ vs, ctx.kind? v = some kind) →
      SymbolTable.Enrolls kind.isGlobalValue ctx.storedName? (adoptedAll p vs ctx).storedName?
        (ctx.symbols p) vs ((adoptedAll p vs ctx).symbols p) := by
  induction vs with
  | nil => intro ctx _ _ _; exact .done
  | cons v vs ih =>
    intro ctx howner hnodup hkinds
    obtain ⟨hv, hnodup⟩ := List.nodup_cons.1 hnodup
    obtain ⟨hkind, hkinds⟩ := List.forall_mem_cons.1 hkinds
    have hsame : SameNames (ctx.withParent v (some p)) ctx := .withParent
    have howner' : (ctx.withParent v (some p)).isOwner p := by
      rw [isOwner_congr kind?_withParent]
      exact howner
    have hkind' : (ctx.withParent v (some p)).kind? v = some kind := by
      rw [kind?_withParent]
      exact hkind
    have hcases := adopted_cases howner' hkind'
    have hkind? : ((ctx.withParent v (some p)).adopted p v).kind? = ctx.kind? :=
      (kind?_congr skeleton?_adopted).trans kind?_withParent
    -- The first one's name is not the others' concern, and they leave it alone.
    have hothers : ∀ w ∈ vs, ctx.storedName? w =
        ((ctx.withParent v (some p)).adopted p v).storedName? w := by
      intro w hw
      have hne : w ≠ v := fun hwv => hv (hwv ▸ hw)
      rw [storedName?_adopted_of_ne hne, hsame.name]
    rw [hsame.name, hsame.symbols] at hcases
    rw [adoptedAll]
    generalize (ctx.withParent v (some p)).adopted p v = c at hcases hkind? hothers ⊢
    have hrest := (ih ((isOwner_congr hkind?).trans howner) hnodup
      (hkind? ▸ hkinds)).congr hothers
    have hfirst : (adoptedAll p vs c).storedName? v = c.storedName? v :=
      storedName?_adoptedAll_of_not_mem hv
    rcases hcases with ⟨hname, rfl⟩ | ⟨name, hname, hused, htable⟩
    · rw [hsame.symbols] at hrest
      exact .unnamed hname (hfirst.trans (by rw [hsame.name, hname])) hrest
    · rw [htable] at hrest
      exact .enter hname (hfirst.trans hused) hrest

/-! ## A range that moves -/

theorem storedName?_transferred_of_not_mem
    (hw : w ∉ Sequence.slice start stop (ctx.members source list)) :
    (ctx.transferred list source target start stop k).storedName? w = ctx.storedName? w := by
  unfold transferred
  rw [storedName?_adoptedAll_of_not_mem hw, SameNames.withMembers.name, storedName?_leftAll,
    SameNames.withMembers.name]

theorem symbols_transferred_of_ne (hsource : p ≠ source) (htarget : p ≠ target) :
    (ctx.transferred list source target start stop k).symbols p = ctx.symbols p := by
  unfold transferred
  rw [symbols_adoptedAll_of_ne htarget, SameNames.withMembers.symbols,
    symbols_leftAll_of_ne hsource, SameNames.withMembers.symbols]

theorem lastUnique_symbols_transferred (hne : source ≠ target)
    (hsource : ctx.kind? source = some list.ownerKind) :
    ((ctx.transferred list source target start stop k).symbols source).lastUnique =
      (ctx.symbols source).lastUnique := by
  unfold transferred
  rw [symbols_adoptedAll_of_ne hne, SameNames.withMembers.symbols, lastUnique_symbols_leftAll,
    SameNames.withMembers.symbols]
  rw [isOwner_congr kind?_withMembers]
  exact isOwner_of_kind? hsource

theorem enrolls_transferred (hm : Membered ctx) (hne : source ≠ target)
    (htarget : ctx.kind? target = some list.ownerKind) :
    SymbolTable.Enrolls list.memberKind.isGlobalValue ctx.storedName?
      (ctx.transferred list source target start stop k).storedName? (ctx.symbols target)
      (Sequence.slice start stop (ctx.members source list))
      ((ctx.transferred list source target start stop k).symbols target) := by
  have hnodup := (hm.nodup source list).sublist (Sequence.slice_sublist start stop _)
  have hkinds : ∀ v ∈ Sequence.slice start stop (ctx.members source list),
      ctx.kind? v = some list.memberKind := fun v hv => hm.kind (Sequence.mem_of_mem_slice hv)
  unfold transferred
  dsimp only
  generalize Sequence.slice start stop (ctx.members source list) = moved at hnodup hkinds ⊢
  generalize hc : (leftAll source moved (ctx.withMembers source list
    (Sequence.cut start stop (ctx.members source list)))).withMembers target list
      (Sequence.splice k moved (ctx.members target list)) = c
  have hkind? : c.kind? = ctx.kind? := by
    rw [← hc, kind?_withMembers, kind?_congr skeleton?_leftAll, kind?_withMembers]
  have hnames : c.storedName? = ctx.storedName? := by
    rw [← hc, SameNames.withMembers.name, storedName?_leftAll, SameNames.withMembers.name]
  have htable : c.symbols target = ctx.symbols target := by
    rw [← hc, SameNames.withMembers.symbols, symbols_leftAll_of_ne hne.symm,
      SameNames.withMembers.symbols]
  rw [← hnames, ← htable]
  rw [← hkind?] at hkinds htarget
  exact enrolls_adoptedAll (isOwner_of_kind? htarget) hnodup hkinds

/-- **A range of members was moved** from one owner to another. -/
structure MovedRange (after ctx : Context) (list : MemberList) (source target : ValueId)
    (start stop : Nat) (before : Option ValueId) : Prop where
  /-- The source lacks the range. -/
  cut : after.members source list = Sequence.cut start stop (ctx.members source list)
  /-- The target has it, in its order, before a member or at the end. -/
  put : Sequence.Inserted before (Sequence.slice start stop (ctx.members source list))
    (ctx.members target list) (after.members target list)
  /-- All other lists are as they were. -/
  lists : ∀ p l, ¬(l = list ∧ (p = source ∨ p = target)) → after.members p l = ctx.members p l
  /-- The target is the parent of the values that moved and of no others that
  it was not the parent of. -/
  parents : ∀ v, after.parent? v =
    if v ∈ Sequence.slice start stop (ctx.members source list) then some target
    else ctx.parent? v
  /-- The other values keep their names. -/
  names : ∀ v, v ∉ Sequence.slice start stop (ctx.members source list) →
    after.storedName? v = ctx.storedName? v
  /-- And they are found under them where they were. -/
  entries : ∀ v, v ∉ Sequence.slice start stop (ctx.members source list) → ∀ p n,
    (after.symbols p).lookup? n = some v ↔ (ctx.symbols p).lookup? n = some v
  /-- The source's table has no name for a value that moved. -/
  gone : ∀ v ∈ Sequence.slice start stop (ctx.members source list), ∀ n,
    (after.symbols source).lookup? n ≠ some v
  /-- It counts on from where it was. -/
  counter : (after.symbols source).lastUnique = (ctx.symbols source).lastUnique
  /-- The values that moved enter the target's table in their order. -/
  enrolled : SymbolTable.Enrolls list.memberKind.isGlobalValue ctx.storedName? after.storedName?
    (ctx.symbols target) (Sequence.slice start stop (ctx.members source list))
    (after.symbols target)
  /-- All other tables are as they were. -/
  tables : ∀ p, p ≠ source → p ≠ target → after.symbols p = ctx.symbols p

end Context

open Context

variable {ctx : Context} {source target : ValueId} {list : MemberList} {start stop k : Nat}
variable {before : Option ValueId}

theorem Scoped.movedRange_transferred (h : Scoped ctx) (hm : Membered ctx) (hne : source ≠ target)
    (hsource : ctx.kind? source = some list.ownerKind)
    (htarget : ctx.kind? target = some list.ownerKind) (horder : start ≤ stop)
    (hk : Sequence.position? before (ctx.members target list) = some k) :
    MovedRange (ctx.transferred list source target start stop k) ctx list source target start stop
      before := by
  have hparent : ∀ v, (ctx.transferred list source target start stop k).parent? v =
      if v ∈ Sequence.slice start stop (ctx.members source list) then some target
      else ctx.parent? v := fun v => parent?_transferred fun w hw => hm.owned hw
  -- Tables are exact before and after, so they are known from parents and names.
  have hafter := h.transferred hm (k := k) hsource htarget horder
  refine ⟨?_, ?_, fun p l hother => ?_, hparent, fun v hv => storedName?_transferred_of_not_mem hv,
    fun v hv p n => ?_, fun v hv n hlookup => ?_, lastUnique_symbols_transferred hne hsource,
    enrolls_transferred hm hne htarget, fun p => symbols_transferred_of_ne⟩
  · rw [members_transferred hsource htarget, if_neg fun heq => hne heq.1, if_pos ⟨rfl, rfl⟩]
  · rw [members_transferred hsource htarget, if_pos ⟨rfl, rfl⟩]
    exact Sequence.inserted_splice hk
  · rw [members_transferred hsource htarget, if_neg fun heq => hother ⟨heq.2, .inr heq.1⟩,
      if_neg fun heq => hother ⟨heq.2, .inl heq.1⟩]
  · rw [hafter.lookup, h.lookup, hparent, if_neg hv, storedName?_transferred_of_not_mem hv]
  · have hgone := ((hafter.lookup source n v).1 hlookup).1
    rw [hparent, if_pos hv] at hgone
    exact hne (Option.some.inj hgone).symm

/-- Of the members that can be moved only blocks are asked what they refer
to. -/
theorem Sound.checkAdmissions_eq_ok (h : Sound ctx) {list : MovableList} {moved : List ValueId}
    (target : ValueId) (hmoved : ∀ v ∈ moved, v ∈ ctx.members source list.list) :
    ctx.checkAdmissions list.list target moved = .ok () ↔
      (list = .blocks → ∀ b ∈ moved, ∀ v ∈ ctx.mentions b, ctx.Belongs target v) := by
  unfold checkAdmissions
  rw [forM_eq_ok]
  cases list with
  | functions | globals | locals => exact ⟨fun _ hlist => (nomatch hlist), fun _ _ _ => rfl⟩
  | blocks =>
    have hiff : ∀ b ∈ moved, (ctx.checkAdmission .blocks target b = .ok () ↔
        ∀ v ∈ ctx.mentions b, ctx.Belongs target v) := fun b hb =>
      h.threaded.checkAdmission_blocks (h.membered.kind (hmoved b hb))
    exact ⟨fun hall _ b hb => (hiff b hb).1 (hall b hb),
      fun hall b hb => (hiff b hb).2 (hall rfl b hb)⟩

/-- **A transfer moves exactly its range.** It succeeds if and only if the
owners differ, the range is one of the source's list, the place is before a
member of the target or at the end and, where blocks move, all that their
instructions refer to belongs to the target. If it succeeds, the range was
moved. -/
theorem transfer_moves_range {ctx : Context} (reachable : Reachable ctx) {list : MovableList}
    {source target : ValueId} (owner : ctx.kind? source = some list.list.ownerKind)
    (newOwner : ctx.kind? target = some list.list.ownerKind) (start stop : Nat)
    (before : Option ValueId) :
    (((Edit.transferMembers list.list source target start stop before).run ctx).outcome = .ok () ↔
      source ≠ target ∧ start ≤ stop ∧ stop ≤ (ctx.members source list.list).length ∧
      (∀ b, before = some b → b ∈ ctx.members target list.list) ∧
      (list = .blocks → ∀ b ∈ Sequence.slice start stop (ctx.members source list.list),
        ∀ v ∈ ctx.mentions b, ctx.Belongs target v)) ∧
    (((Edit.transferMembers list.list source target start stop before).run ctx).outcome = .ok () →
      MovedRange ((Edit.transferMembers list.list source target start stop before).run ctx).context
        ctx list.list source target start stop before) := by
  have hm := reachable.membered
  have hadmits := reachable.sound.checkAdmissions_eq_ok target
    fun v (hv : v ∈ Sequence.slice start stop (ctx.members source list.list)) =>
      Sequence.mem_of_mem_slice hv
  have hspec : (Edit.transferMembers list.list source target start stop before).Ensures
      (fun _ c => source ≠ target ∧ start ≤ stop ∧
        stop ≤ (ctx.members source list.list).length ∧
        ctx.checkAdmissions list.list target
          (Sequence.slice start stop (ctx.members source list.list)) = .ok () ∧
        ∃ k, Sequence.position? before (ctx.members target list.list) = some k ∧
          c = ctx.transferred list.list source target start stop k)
      (fun _ _ => True) ctx :=
    Edit.ensures_transferMembers (fun v hv => hm.owned hv) (fun _ _ => trivial)
      fun s t k _ _ hne _ _ horder hbound hentry hk =>
        ⟨hne, horder, hbound, hentry, k, insertionIndex_eq_ok.1 hk, rfl⟩
  refine ⟨⟨fun hok => ?_, fun ⟨hne, horder, hbound, hbefore, hblocks⟩ => ?_⟩, fun hok => ?_⟩
  · obtain ⟨hne, horder, hbound, hentry, k, hk, -⟩ := hspec.of_ok hok
    exact ⟨hne, horder, hbound, Sequence.exists_position?_iff.1 ⟨k, hk⟩, hadmits.1 hentry⟩
  · obtain ⟨s, hs, hsk⟩ := Option.map_eq_some_iff.1 owner
    obtain ⟨t, ht, htk⟩ := Option.map_eq_some_iff.1 newOwner
    obtain ⟨k, hk⟩ := Sequence.exists_position?_iff.2 hbefore
    rw [Edit.outcome_transferMembers hm]
    exact checkTransfer_eq_ok hs ht hne hsk htk horder hbound (hadmits.2 hblocks)
      (insertionIndex_eq_ok.2 hk)
  · obtain ⟨hne, horder, -, -, k, hk, hcontext⟩ := hspec.of_ok hok
    rw [hcontext]
    exact reachable.scoped.movedRange_transferred hm hne owner newOwner horder hk

/-- Two functions. The first has the locals `x`, `y` and `x1`, the second `x`
and `z`. -/
def sameNames : Context :=
  Operation.runAll
    [.createFunction true "f" none, .createFunction true "g" none,
      .createLocal "x" (some ⟨0, 0⟩), .createLocal "y" (some ⟨0, 0⟩),
      .createLocal "x1" (some ⟨0, 0⟩), .createLocal "x" (some ⟨0, 1⟩),
      .createLocal "z" (some ⟨0, 1⟩)] { id := 0 }

/-- The three of the first go before `z`. There `x` becomes `x1`, so that `x1`
cannot stay `x1`, and nothing happens to the name `y`. -/
theorem transfer_moves_range_sameNames :
    Reachable sameNames ∧
    ((Edit.transferMembers .locals ⟨0, 0⟩ ⟨0, 1⟩ 0 3 (some ⟨0, 6⟩)).run sameNames).outcome =
      .ok () ∧
    ∃ after, ((Edit.transferMembers .locals ⟨0, 0⟩ ⟨0, 1⟩ 0 3 (some ⟨0, 6⟩)).run
        sameNames).context = after ∧
      MovedRange after sameNames .locals ⟨0, 0⟩ ⟨0, 1⟩ 0 3 (some ⟨0, 6⟩) ∧
      [⟨0, 2⟩, ⟨0, 3⟩, ⟨0, 4⟩].map after.storedName? = [some "x1", some "y", some "x12"] := by
  have hreachable : Reachable sameNames := (Reachable.empty 0).runAll (by decide)
  have howner : sameNames.kind? ⟨0, 0⟩ = some MovableList.locals.list.ownerKind := by decide
  have hnewOwner : sameNames.kind? ⟨0, 1⟩ = some MovableList.locals.list.ownerKind := by decide
  obtain ⟨hiff, hmoved⟩ :=
    transfer_moves_range hreachable howner hnewOwner 0 3 (some ⟨0, 6⟩)
  have hok := hiff.2 ⟨by decide, by decide, by decide, by decide, fun hlist => nomatch hlist⟩
  exact ⟨hreachable, hok, _, rfl, hmoved hok, by decide +kernel⟩

end ContractIR
