import ContractIR.Proofs.Membership
import ContractIR.Proofs.SymbolTable
/-!
# Symbol tables and stored names

A member's name is written twice: with the member, and in its owner's symbol
table. Renaming, insertion, removal and transfer change both. In between, a
value is in a table it is not a member of, or the other way round, so
`Context.Registers` says which owner's table has each value, and every step
of an edit is a statement about that. Where an edit ends, the owner is the
parent: a table has exactly the names of its owner's members.
-/

namespace ContractIR

namespace Value

variable (x : Value)

theorem symbols?_isSome_iff : x.symbols?.isSome ↔ x.kind.isOwner := by
  obtain ⟨payload, name, parent⟩ := x
  cases payload <;> simp [symbols?, kind, Payload.kind, Kind.isOwner]

theorem symbols?_mapBlock (f : BlockBody → BlockBody) : (x.mapBlock f).symbols? = x.symbols? := by
  obtain ⟨payload, name, parent⟩ := x
  cases payload <;> rfl

theorem name_mapBlock (f : BlockBody → BlockBody) : (x.mapBlock f).name = x.name := by
  obtain ⟨payload, name, parent⟩ := x
  cases payload <;> rfl

end Value

namespace Context

variable {ctx ctx' ctx'' : Context} {p q v w : ValueId} {name : String} {isGlobal : Bool}

/-- The name stored with a value. -/
def storedName? (ctx : Context) (v : ValueId) : Option String := (ctx.value? v).bind Value.name

/-- Whether a value keeps a symbol table. -/
def isOwner (ctx : Context) (p : ValueId) : Bool := (ctx.kind? p).any Kind.isOwner

/-! ## Contexts with the same names -/

/-- Symbol tables and stored names are the same in both contexts. -/
structure SameNames (ctx' ctx : Context) : Prop where
  symbols : ctx'.symbols = ctx.symbols
  name : ctx'.storedName? = ctx.storedName?

namespace SameNames

theorem trans (h : SameNames ctx'' ctx') (h' : SameNames ctx' ctx) : SameNames ctx'' ctx :=
  ⟨h.symbols.trans h'.symbols, h.name.trans h'.name⟩

theorem of_values (h : ctx'.value? = ctx.value?) : SameNames ctx' ctx := by
  refine ⟨funext fun p => ?_, funext fun v => ?_⟩
  · rw [Context.symbols, Context.symbols, h]
  · rw [storedName?, storedName?, h]

theorem update {f : Value → Value} (hsymbols : ∀ x, (f x).symbols? = x.symbols?)
    (hname : ∀ x, (f x).name = x.name) : SameNames (ctx.update v f) ctx := by
  refine ⟨funext fun p => ?_, funext fun w => ?_⟩
  · simp only [Context.symbols, value?_update]
    split
    · cases ctx.value? p <;> simp [hsymbols]
    · rfl
  · simp only [storedName?, value?_update]
    split
    · cases ctx.value? w <;> simp [hname]
    · rfl

theorem withMembers {list : MemberList} {vs : List ValueId} :
    SameNames (ctx.withMembers p list vs) ctx :=
  update (fun x => x.symbols?_setMembers list vs) fun x => x.name_setMembers list vs

theorem withParent {parent : Option ValueId} : SameNames (ctx.withParent v parent) ctx :=
  update (fun _ => rfl) fun _ => rfl

theorem update_mapBlock {f : BlockBody → BlockBody} :
    SameNames (ctx.update v fun x => x.mapBlock f) ctx :=
  update (fun x => x.symbols?_mapBlock f) fun x => x.name_mapBlock f

theorem updateCell {i : InstId} {f : Cell → Option Cell} : SameNames (ctx.updateCell i f) ctx :=
  of_values (funext fun _ => value?_updateCell)

theorem relinks (h : Relinks ctx ctx') : SameNames ctx' ctx := by
  induction h with
  | refl => exact of_values rfl
  | ends _ _ ih => exact update_mapBlock.trans ih
  | neighbours _ _ ih => exact updateCell.trans ih

theorem placed {i : InstId} {k : Nat} : SameNames (ctx.placed i v k) ctx :=
  (relinks (relinks_link _)).trans (updateCell.trans update_mapBlock)

theorem unplaced {i : InstId} : SameNames (ctx.unplaced i v) ctx :=
  (relinks relinks_unlink).trans (updateCell.trans update_mapBlock)

/-- A new value has no name, and nothing in its table. -/
theorem push {payload : Payload} (empty : ({ payload } : Value).symbols?.getD {} = {}) :
    SameNames (ctx.push payload) ctx := by
  refine ⟨funext fun p => ?_, funext fun v => ?_⟩
  · simp only [Context.symbols, value?_push]
    split
    · rename_i hp
      rw [hp, value?_eq_none_of_nextValue]
      exact empty
    · rfl
  · simp only [storedName?, value?_push]
    split
    · rename_i hv
      rw [hv, value?_eq_none_of_nextValue]
      rfl
    · rfl

end SameNames

/-! ## What a change to a table or to a name shows -/

/-- A change to the table of an owner shows in that table alone. -/
theorem symbols_update_mapSymbols {f : SymbolTable → SymbolTable} (howner : ctx.isOwner p) :
    (ctx.update p fun x => x.mapSymbols f).symbols =
      Function.update ctx.symbols p (f (ctx.symbols p)) := by
  obtain ⟨k, hk, hkind⟩ := (Option.any_eq_true _ _).1 howner
  obtain ⟨x, hx, hxk⟩ := Option.map_eq_some_iff.1 hk
  have hsome : x.symbols?.isSome := x.symbols?_isSome_iff.2 (hxk ▸ hkind)
  obtain ⟨t, ht⟩ := Option.isSome_iff_exists.1 hsome
  funext q
  by_cases hq : q = p
  · subst hq
    rw [Function.update_self]
    simp [symbols, value?_update, hx, ht]
  · rw [Function.update_of_ne hq]
    simp [symbols, value?_update, hq]

theorem storedName?_update_mapSymbols {f : SymbolTable → SymbolTable} :
    (ctx.update p fun x => x.mapSymbols f).storedName? = ctx.storedName? := by
  funext w
  simp only [storedName?, value?_update]
  split
  · cases ctx.value? w <;> simp
  · rfl

theorem storedName?_entered : (ctx.entered p v name isGlobal).storedName? = ctx.storedName? :=
  storedName?_update_mapSymbols

theorem symbols_entered (howner : ctx.isOwner p) : (ctx.entered p v name isGlobal).symbols =
    Function.update ctx.symbols p ((ctx.symbols p).enter name v isGlobal).2 :=
  symbols_update_mapSymbols howner

theorem symbols_labelled {name : Option String} : (ctx.labelled v name).symbols = ctx.symbols := by
  funext p
  simp only [symbols, labelled, value?_update]
  split
  · cases ctx.value? p <;> rfl
  · rfl

theorem storedName?_labelled {name : Option String} (howns : ctx.ownsValue v) :
    (ctx.labelled v name).storedName? = Function.update ctx.storedName? v name := by
  obtain ⟨x, hx⟩ := Option.isSome_iff_exists.1 howns
  funext w
  by_cases hw : w = v
  · subst hw
    rw [Function.update_self]
    simp [storedName?, labelled, value?_update, hx]
  · rw [Function.update_of_ne hw]
    simp [storedName?, labelled, value?_update, hw]

theorem isOwner_congr (h : ctx'.kind? = ctx.kind?) : ctx'.isOwner p = ctx.isOwner p := by
  rw [isOwner, isOwner, h]

theorem isOwner_of_kind? {list : MemberList} (h : ctx.kind? p = some list.ownerKind) :
    ctx.isOwner p := by
  rw [isOwner, h]
  exact list.isOwner_ownerKind

/-! ## Which table has a value -/

/-- **Tables and stored names agree**, with `home` for the owner whose table
has a value: a name in the table of `p` stands for the value that has `p` for
its home and the name stored. Stored names are those that text can spell. -/
structure Registers (ctx : Context) (home : ValueId → Option ValueId) : Prop where
  lookup : ∀ p n v, (ctx.symbols p).lookup? n = some v ↔
    home v = some p ∧ ctx.storedName? v = some n
  spelled : ∀ v n, ctx.storedName? v = some n → Spelled n

namespace Registers

variable {home : ValueId → Option ValueId}

theorem congr (h : ctx.Registers home) (same : SameNames ctx' ctx) : ctx'.Registers home := by
  constructor
  · rw [same.symbols, same.name]
    exact h.lookup
  · rw [same.name]
    exact h.spelled

/-- A value without name may be at home anywhere. -/
theorem of_unnamed (h : ctx.Registers home) (hname : ctx.storedName? v = none)
    (place : Option ValueId) : ctx.Registers (Function.update home v place) := by
  refine ⟨fun p n w => ?_, h.spelled⟩
  rw [h.lookup]
  by_cases hw : w = v
  · subst hw
    rw [hname]
    simp
  · rw [Function.update_of_ne hw]

/-- **What leaves its table is at home nowhere.** -/
theorem left (h : ctx.Registers home) (howner : ctx.isOwner p) (hv : home v = some p) :
    (ctx.left p v (ctx.storedName? v)).Registers (Function.update home v none) := by
  cases hname : ctx.storedName? v with
  | none => exact h.of_unnamed hname none
  | some old =>
    have hentry : (ctx.symbols p).lookup? old = some v := (h.lookup p old v).2 ⟨hv, hname⟩
    have hnames : (ctx.left p v (some old)).storedName? = ctx.storedName? :=
      storedName?_update_mapSymbols
    have hsymbols : (ctx.left p v (some old)).symbols =
        Function.update ctx.symbols p ((ctx.symbols p).leave old v) :=
      symbols_update_mapSymbols howner
    refine ⟨fun q n w => ?_, hnames ▸ h.spelled⟩
    rw [hnames, hsymbols]
    -- The value itself is in no table any more; of the others nothing changes.
    by_cases hw : w = v
    · subst hw
      rw [Function.update_self]
      refine iff_of_false (fun hlookup => ?_) fun hhome => nomatch hhome.1
      by_cases hq : q = p
      · subst hq
        rw [Function.update_self, SymbolTable.lookup?_leave] at hlookup
        split at hlookup
        · cases hlookup
        · rename_i hother
          have hn : ctx.storedName? w = some n := ((h.lookup q n w).1 hlookup).2
          exact hother ⟨Option.some.inj (hn.symm.trans hname), hentry⟩
      · rw [Function.update_of_ne hq] at hlookup
        have hhome := ((h.lookup q n w).1 hlookup).1
        exact hq (Option.some.inj (hhome.symm.trans hv))
    · rw [Function.update_of_ne hw, ← h.lookup]
      by_cases hq : q = p
      · subst hq
        rw [Function.update_self, SymbolTable.lookup?_leave]
        by_cases hn : n = old
        · subst hn
          rw [if_pos ⟨rfl, hentry⟩, hentry]
          simp [Ne.symm hw]
        · rw [if_neg fun hboth => hn hboth.1]
      · rw [Function.update_of_ne hq]

/-- **What is entered in a table is at home there**, under the name that was
used. -/
theorem entered (h : ctx.Registers home) (howner : ctx.isOwner p) (howns : ctx.ownsValue v)
    (hfree : home v = none) (hname : Spelled name) (isGlobal : Bool) :
    ((ctx.entered p v name isGlobal).labelled v
      (some ((ctx.symbols p).enter name v isGlobal).1)).Registers
        (Function.update home v (some p)) := by
  have hused := (ctx.symbols p).lookup?_enter_used name v isGlobal
  have hspelled := hname.enter (ctx.symbols p) v isGlobal
  have hentered := (ctx.symbols p).lookup?_enter name v isGlobal
  generalize hresult : (ctx.symbols p).enter name v isGlobal = result at hused hspelled hentered ⊢
  have hstill : (ctx.entered p v name isGlobal).ownsValue v := by
    rw [ownsValue_congr skeleton?_entered]
    exact howns
  have hnames : ((ctx.entered p v name isGlobal).labelled v (some result.1)).storedName? =
      Function.update ctx.storedName? v (some result.1) := by
    rw [storedName?_labelled hstill, storedName?_entered]
  have hsymbols : ((ctx.entered p v name isGlobal).labelled v (some result.1)).symbols =
      Function.update ctx.symbols p result.2 := by
    rw [symbols_labelled, symbols_entered howner, hresult]
  refine ⟨fun q n w => ?_, fun w n hw => ?_⟩
  · rw [hnames, hsymbols]
    by_cases hw : w = v
    · subst hw
      rw [Function.update_self, Function.update_self]
      by_cases hq : q = p
      · subst hq
        rw [Function.update_self, hentered]
        by_cases hn : n = result.1
        · simp [hn]
        · rw [if_neg hn, h.lookup, hfree]
          simp [Ne.symm hn]
      · rw [Function.update_of_ne hq, h.lookup, hfree]
        simp [Ne.symm hq]
    · rw [Function.update_of_ne hw, Function.update_of_ne hw, ← h.lookup]
      by_cases hq : q = p
      · subst hq
        rw [Function.update_self, hentered]
        by_cases hn : n = result.1
        · -- The name that was used was nobody's.
          rw [if_pos hn, hn, hused]
          simp [Ne.symm hw]
        · rw [if_neg hn]
      · rw [Function.update_of_ne hq]
  · rw [hnames] at hw
    by_cases hwv : w = v
    · rw [hwv, Function.update_self] at hw
      rw [← Option.some.inj hw]
      exact hspelled
    · rw [Function.update_of_ne hwv] at hw
      exact h.spelled w n hw

/-- A value that is in no table is renamed freely. -/
theorem labelled (h : ctx.Registers home) (howns : ctx.ownsValue v) (hfree : home v = none)
    {name : Option String} (hname : ∀ n, name = some n → Spelled n) :
    (ctx.labelled v name).Registers home := by
  refine ⟨fun p n w => ?_, fun w n hw => ?_⟩
  · rw [symbols_labelled, storedName?_labelled howns, h.lookup]
    by_cases hw : w = v
    · subst hw
      rw [hfree]
      simp
    · rw [Function.update_of_ne hw]
  · rw [storedName?_labelled howns] at hw
    by_cases hwv : w = v
    · rw [hwv, Function.update_self] at hw
      exact hname n hw
    · rw [Function.update_of_ne hwv] at hw
      exact h.spelled w n hw

/-- **What is adopted is at home with its new owner.** -/
theorem adopted (h : ctx.Registers home) (howner : ctx.isOwner p) (howns : ctx.ownsValue v)
    (hfree : home v = none) :
    (ctx.adopted p v).Registers (Function.update home v (some p)) := by
  obtain ⟨x, hx⟩ := Option.isSome_iff_exists.1 howns
  have hstored : ctx.storedName? v = x.name := by
    rw [storedName?, hx]
    rfl
  unfold Context.adopted
  rw [hx]
  cases hname : x.name with
  | none =>
    simp only [hname]
    exact h.of_unnamed (hstored.trans hname) (some p)
  | some name =>
    simp only [hname]
    exact h.entered howner howns hfree (h.spelled v name (hstored.trans hname)) _

/-- So is a run of values that leave their table, one after the other. -/
theorem leftAll {vs : List ValueId} :
    ∀ {ctx : Context} {home : ValueId → Option ValueId}, ctx.Registers home → ctx.isOwner p →
      vs.Nodup → (∀ v ∈ vs, home v = some p) →
      (leftAll p vs ctx).Registers fun w => if w ∈ vs then none else home w := by
  induction vs with
  | nil =>
    intro ctx home h _ _ _
    simpa [Context.leftAll] using h
  | cons v vs ih =>
    intro ctx home h howner hnodup hhome
    obtain ⟨hv, hrest⟩ := List.nodup_cons.1 hnodup
    have hstill : (ctx.left p v (ctx.storedName? v)).isOwner p := by
      rw [isOwner_congr (kind?_congr skeleton?_left)]
      exact howner
    have hothers : ∀ w ∈ vs, Function.update home v none w = some p := by
      intro w hw
      have hne : w ≠ v := fun hwv => hv (hwv ▸ hw)
      rw [Function.update_of_ne hne]
      exact hhome w (List.mem_cons_of_mem v hw)
    have hall := ih (h.left howner (hhome v List.mem_cons_self)) hstill hrest hothers
    have heq : (fun w => if w ∈ vs then none else Function.update home v none w) =
        fun w => if w ∈ v :: vs then none else home w := by
      funext w
      by_cases hwv : w = v
      · simp [hwv]
      · simp [hwv]
    rw [heq] at hall
    exact hall

/-- And a run of values that get a new owner. -/
theorem adoptedAll {vs : List ValueId} :
    ∀ {ctx : Context} {home : ValueId → Option ValueId}, ctx.Registers home → ctx.isOwner p →
      vs.Nodup → (∀ v ∈ vs, ctx.ownsValue v ∧ home v = none) →
      (adoptedAll p vs ctx).Registers fun w => if w ∈ vs then some p else home w := by
  induction vs with
  | nil =>
    intro ctx home h _ _ _
    simpa [Context.adoptedAll] using h
  | cons v vs ih =>
    intro ctx home h howner hnodup hfree
    obtain ⟨hv, hrest⟩ := List.nodup_cons.1 hnodup
    have howner' : (ctx.withParent v (some p)).isOwner p := by
      rw [isOwner_congr kind?_withParent]
      exact howner
    have howns' : ∀ w ∈ v :: vs, (ctx.withParent v (some p)).ownsValue w := by
      intro w hw
      rw [Context.withParent, ownsValue_update]
      exact (hfree w hw).1
    have hadopted := (h.congr .withParent).adopted howner' (howns' v List.mem_cons_self)
      (hfree v List.mem_cons_self).2
    have hstill : ((ctx.withParent v (some p)).adopted p v).isOwner p := by
      rw [isOwner_congr (kind?_congr skeleton?_adopted)]
      exact howner'
    have hothers : ∀ w ∈ vs, ((ctx.withParent v (some p)).adopted p v).ownsValue w ∧
        Function.update home v (some p) w = none := by
      intro w hw
      have hne : w ≠ v := fun hwv => hv (hwv ▸ hw)
      rw [ownsValue_congr skeleton?_adopted, Function.update_of_ne hne]
      exact ⟨howns' w (List.mem_cons_of_mem v hw), (hfree w (List.mem_cons_of_mem v hw)).2⟩
    have hall := ih hadopted hstill hrest hothers
    have heq : (fun w => if w ∈ vs then some p else Function.update home v (some p) w) =
        fun w => if w ∈ v :: vs then some p else home w := by
      funext w
      by_cases hwv : w = v
      · simp [hwv]
      · simp [hwv]
    rw [heq] at hall
    exact hall

end Registers

end Context

/-! ## The invariant -/

/-- **Symbol tables are exact**: the table of an owner has the names of its
members, each for the member it is stored with, and no other. -/
def Scoped (ctx : Context) : Prop := ctx.Registers ctx.parent?

namespace Scoped

open Context

variable {ctx ctx' : Context} {p q v : ValueId} {list : MemberList}

theorem congr (h : Scoped ctx) (names : SameNames ctx' ctx) (parents : ctx'.parent? = ctx.parent?) :
    Scoped ctx' := by
  unfold Scoped
  rw [parents]
  exact Registers.congr h names

theorem push (h : Scoped ctx) {payload : Payload}
    (empty : ({ payload } : Value).symbols?.getD {} = {}) : Scoped (ctx.push payload) :=
  h.congr (.push empty) parent?_push

/-- A parent keeps a table. -/
theorem isOwner_of_parent (hm : Membered ctx) (hv : ctx.parent? v = some p) : ctx.isOwner p := by
  obtain ⟨l, hl⟩ := hm.listed hv
  exact isOwner_of_kind? (kind?_of_mem_members hl)

/-- **Renaming** takes the old name out of the table before the new one goes
in, so the new one may be the old one made unique. -/
theorem renamed (h : Scoped ctx) (hm : Membered ctx) {x : Value} {name : String}
    (hx : ctx.value? v = some x) (hnul : '\x00' ∉ name.toList) : Scoped (ctx.renamed v x name) := by
  have howns : ctx.ownsValue v := by
    rw [ownsValue, hx]
    rfl
  have hparent : ctx.parent? v = x.parent := parent?_of_value? hx
  have hstored : ctx.storedName? v = x.name := by
    rw [storedName?, hx]
    rfl
  unfold Scoped
  rw [parent?_congr skeleton?_renamed]
  unfold Context.renamed
  cases hp : x.parent with
  | none =>
    have htable : ctx.tableOwner? x = none := by
      rw [tableOwner?, hp]
      rfl
    rw [htable]
    refine Registers.labelled h howns (hparent.trans hp) fun n hn => ?_
    split at hn
    · cases hn
    · rename_i hempty
      exact Option.some.inj hn ▸ ⟨hempty, hnul⟩
  | some p =>
    have howner := isOwner_of_parent hm (hparent.trans hp)
    have htable : ctx.tableOwner? x = some p := by
      rw [tableOwner?, hp]
      exact Option.filter_eq_some_iff.2 ⟨rfl, howner⟩
    have hleft := Registers.left h howner (hparent.trans hp)
    rw [hstored] at hleft
    have howns' : (ctx.left p v x.name).ownsValue v := by
      rw [ownsValue_congr skeleton?_left]
      exact howns
    have howner' : (ctx.left p v x.name).isOwner p := by
      rw [isOwner_congr (kind?_congr skeleton?_left)]
      exact howner
    have hfree : Function.update ctx.parent? v none v = none := Function.update_self ..
    -- In the end the value is at home where it was.
    have hhome : Function.update (Function.update ctx.parent? v none) v (some p) = ctx.parent? := by
      rw [Function.update_idem, ← hp, ← hparent, Function.update_eq_self]
    rw [htable]
    dsimp only
    split
    · have hnone : ((ctx.left p v x.name).labelled v none).storedName? v = none := by
        rw [storedName?_labelled howns', Function.update_self]
      rw [← hhome]
      refine (hleft.labelled howns' hfree fun n hn => ?_).of_unnamed hnone (some p)
      cases hn
    · rename_i hempty
      rw [← hhome]
      exact hleft.entered howner' howns' hfree ⟨hempty, hnul⟩ _

theorem attached (h : Scoped ctx) {k : Nat} (howner : ctx.kind? p = some list.ownerKind)
    (howns : ctx.ownsValue v) (hfree : ctx.parent? v = none) :
    Scoped (ctx.attached p list v k) := by
  have hparent : (ctx.attached p list v k).parent? = Function.update ctx.parent? v (some p) := by
    funext w
    rw [parent?_attached howns, Function.update_apply]
  unfold Scoped
  rw [hparent]
  unfold Context.attached
  refine Registers.adopted ((Registers.congr h .withMembers).congr .withParent) ?_ ?_ hfree
  · rw [isOwner_congr (kind?_withParent.trans kind?_withMembers)]
    exact isOwner_of_kind? howner
  · rw [withParent, ownsValue_update, withMembers, ownsValue_update]
    exact howns

theorem detached (h : Scoped ctx) (hm : Membered ctx) (hv : v ∈ ctx.members p list) :
    Scoped (ctx.detached p list v) := by
  have hparent : (ctx.detached p list v).parent? = Function.update ctx.parent? v none := by
    funext w
    rw [parent?_detached (hm.owned hv), Function.update_apply]
  have hsame : SameNames (ctx.withMembers p list ((ctx.members p list).erase v)) ctx :=
    .withMembers
  have hleft := Registers.left (p := p) (v := v) (Registers.congr h hsame)
    (by
      rw [isOwner_congr kind?_withMembers]
      exact isOwner_of_kind? (kind?_of_mem_members hv))
    (hm.parent hv)
  rw [hsame.name] at hleft
  unfold Scoped
  rw [hparent]
  exact hleft.congr .withParent

/-- **A transfer** empties the one table of the names that move and enters
them in the other. -/
theorem transferred (h : Scoped ctx) (hm : Membered ctx) {start stop k : Nat}
    (hsource : ctx.kind? p = some list.ownerKind) (htarget : ctx.kind? q = some list.ownerKind)
    (horder : start ≤ stop) : Scoped (ctx.transferred list p q start stop k) := by
  have hnodup : (Sequence.slice start stop (ctx.members p list)).Nodup := by
    have hall := (Sequence.slice_append_cut_perm horder _).nodup_iff.2 (hm.nodup p list)
    exact (List.nodup_append'.1 hall).1
  have hparent : (ctx.transferred list p q start stop k).parent? = fun w =>
      if w ∈ Sequence.slice start stop (ctx.members p list) then some q else ctx.parent? w := by
    funext w
    exact parent?_transferred fun v hv => hm.owned hv
  have hleft : (leftAll p (Sequence.slice start stop (ctx.members p list))
      (ctx.withMembers p list (Sequence.cut start stop (ctx.members p list)))).Registers fun w =>
        if w ∈ Sequence.slice start stop (ctx.members p list) then none else ctx.parent? w := by
    refine Registers.leftAll (Registers.congr h .withMembers) ?_ hnodup fun v hv => ?_
    · rw [isOwner_congr kind?_withMembers]
      exact isOwner_of_kind? hsource
    · exact hm.parent (Sequence.mem_of_mem_slice hv)
  have hadopted : (ctx.transferred list p q start stop k).Registers fun w =>
      if w ∈ Sequence.slice start stop (ctx.members p list) then some q
      else if w ∈ Sequence.slice start stop (ctx.members p list) then none
      else ctx.parent? w := by
    refine Registers.adoptedAll (hleft.congr .withMembers) ?_ hnodup fun v hv => ⟨?_, if_pos hv⟩
    · rw [isOwner_congr (kind?_withMembers.trans
        ((kind?_congr skeleton?_leftAll).trans kind?_withMembers))]
      exact isOwner_of_kind? htarget
    · rw [withMembers, ownsValue_update, ownsValue_congr skeleton?_leftAll, withMembers,
        ownsValue_update]
      exact hm.owned (Sequence.mem_of_mem_slice hv)
  have hhome : (fun w => if w ∈ Sequence.slice start stop (ctx.members p list) then some q
      else if w ∈ Sequence.slice start stop (ctx.members p list) then none else ctx.parent? w) =
      (ctx.transferred list p q start stop k).parent? := by
    rw [hparent]
    funext w
    split <;> rfl
  rw [hhome] at hadopted
  exact hadopted

/-- **No change breaks the tables.** -/
theorem step (hm : Membered ctx) (h : Scoped ctx) {taken : List ValueId}
    (hc : Change ctx taken ctx') : Scoped ctx' := by
  cases hc with
  | intern n hex =>
    unfold Context.intern
    split
    · exact h
    · have hpush : Scoped (ctx.push (.constant n hex)) := h.push rfl
      exact hpush.congr (.of_values rfl) rfl
  | push fresh => exact h.push (by cases fresh <;> rfl)
  | enlist c => exact h.congr (.of_values rfl) rfl
  | rename hx _ hnul => exact h.renamed hm hx hnul
  | attach ho hv hok _ hfree =>
    refine h.attached (by rw [kind?_of_value? ho, hok]) ?_ (by rw [parent?_of_value? hv, hfree])
    rw [ownsValue, hv]
    rfl
  | detach _ _ _ _ _ hmem => exact h.detached hm hmem
  | transfer hs ht _ hsk htk horder =>
    exact h.transferred hm (by rw [kind?_of_value? hs, hsk]) (by rw [kind?_of_value? ht, htk])
      horder
  | annotate only =>
    exact h.congr (.update only.symbols only.name)
      (parent?_congr (skeleton?_update_of_keeps only.skeleton))
  | waste | create => exact h.congr (.of_values rfl) rfl
  | place => exact h.congr .placed (SameMembers.placed).parent
  | move => exact h.congr (.trans .placed .unplaced) (SameMembers.placed.trans .unplaced).parent
  | unplace => exact h.congr .unplaced (SameMembers.unplaced).parent
  | destroy => exact h.congr .updateCell (SameMembers.destroyed).parent
  | setOperand => exact h.congr .updateCell (SameMembers.withOperand).parent

theorem empty (id : ContextId) : Scoped { id } := by
  have hvalue : ∀ v, ({ id } : Context).value? v = none := fun v => by simp [value?]
  refine ⟨fun p n v => iff_of_false (fun hlookup => ?_) fun hparent => ?_, fun v n hname => ?_⟩
  · rw [symbols, hvalue] at hlookup
    simp [SymbolTable.lookup?] at hlookup
  · rw [parent?, hvalue] at hparent
    cases hparent.1
  · rw [storedName?, hvalue] at hname
    cases hname

end Scoped

theorem Reachable.scoped {ctx : Context} (h : Reachable ctx) : Scoped ctx :=
  h.keeps Scoped.empty fun hm hs hc => hs.step hm hc

/-- **Symbol tables are exact in every reachable context.** A table has a name
for a value exactly if its owner is the value's parent and the name is stored
with the value. So members of one owner have different names, whichever of
its lists they are in, what a table has is listed by its owner, and stored
names are neither empty nor do they contain a NUL. -/
theorem symbols_lookup_iff_named {ctx : Context} (reachable : Reachable ctx) :
    (∀ p n v, (ctx.symbols p).lookup? n = some v ↔
      ctx.parent? v = some p ∧ ctx.storedName? v = some n) ∧
    (∀ p l m v w n, v ∈ ctx.members p l → w ∈ ctx.members p m →
      ctx.storedName? v = some n → ctx.storedName? w = some n → v = w) ∧
    (∀ p n v, (ctx.symbols p).lookup? n = some v → ∃ l, v ∈ ctx.members p l) ∧
    (∀ v n, ctx.storedName? v = some n → n ≠ "" ∧ '\x00' ∉ n.toList) := by
  have hm := reachable.membered
  have h := reachable.scoped
  refine ⟨h.lookup, fun p l m v w n hv hw hvn hwn => ?_, fun p n v hlookup => ?_, fun v n hn => ?_⟩
  · have hv' := (h.lookup p n v).2 ⟨hm.parent hv, hvn⟩
    have hw' := (h.lookup p n w).2 ⟨hm.parent hw, hwn⟩
    exact Option.some.inj (hv'.symm.trans hw')
  · exact hm.listed ((h.lookup p n v).1 hlookup).1
  · exact ⟨(h.spelled v n hn).nonempty, (h.spelled v n hn).no_nul⟩

/-- Two functions with a local each, both named `x`, of which the one went to
the other function. -/
def movedLocal : Context :=
  Operation.runAll
    [.createFunction true "" none, .createFunction true "" none, .createLocal "x" (some ⟨0, 0⟩),
      .createLocal "x" (some ⟨0, 1⟩), .transfer .locals ⟨0, 0⟩ ⟨0, 1⟩ 0 1 none] { id := 0 }

/-- There it has got another name, and is found under it. -/
theorem symbols_lookup_iff_named_movedLocal :
    Reachable movedLocal ∧ (movedLocal.symbols ⟨0, 1⟩).lookup? "x" = some ⟨0, 3⟩ ∧
      (movedLocal.symbols ⟨0, 1⟩).lookup? "x1" = some ⟨0, 2⟩ ∧
      (movedLocal.symbols ⟨0, 0⟩).lookup? "x" ≠ some ⟨0, 2⟩ := by
  have hreachable : Reachable movedLocal := (Reachable.empty 0).runAll (by decide)
  have hparent : movedLocal.parent? ⟨0, 2⟩ = some ⟨0, 1⟩ := by decide
  have hparent' : movedLocal.parent? ⟨0, 3⟩ = some ⟨0, 1⟩ := by decide
  have hname : movedLocal.storedName? ⟨0, 2⟩ = some "x1" := by decide +kernel
  have hname' : movedLocal.storedName? ⟨0, 3⟩ = some "x" := by decide +kernel
  obtain ⟨hlookup, -⟩ := symbols_lookup_iff_named hreachable
  refine ⟨hreachable, (hlookup _ _ _).2 ⟨hparent', hname'⟩, (hlookup _ _ _).2 ⟨hparent, hname⟩,
    fun hstale => ?_⟩
  have hgone := ((hlookup _ _ _).1 hstale).1
  rw [hparent] at hgone
  cases hgone

end ContractIR
