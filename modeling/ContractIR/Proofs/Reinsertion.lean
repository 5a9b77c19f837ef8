import ContractIR.Proofs.Foreign.Checks
import ContractIR.Proofs.Nesting
import ContractIR.Proofs.Scopes
/-!
# Taking a member out and putting it back

Detaching a member changes three things: the list it was in, the table that
had its name, and its parent. Each of them can be undone: the list remembers
the place by the member that came next, the name is free in the table it
left, and the number that makes names unique was not touched. So a member that
is put back before its old neighbour leaves the context as it was, down to
the last field (`Scoped.attached_detached`).

What remains is whether the member may enter where it came from. A contract
may, because it never enclosed its owner; blocks are the exception. Their
instructions are checked while the block is still outside, so a block that
its own instructions mention is taken for a stranger there.
-/

namespace ContractIR

/-! ## Undoing each part -/

/-- **A name that left a table can enter it again**, under the same spelling
and without a new number. -/
theorem SymbolTable.enter_leave {t : SymbolTable} {name : String} {value : ValueId}
    (h : t.lookup? name = some value) (isGlobal : Bool) :
    (t.leave name value).enter name value isGlobal = (name, t) := by
  have hfree : (t.leave name value).contains name = false := by
    rw [contains_eq_isSome, lookup?_leave, if_pos ⟨rfl, h⟩]
    rfl
  have hused : ((t.leave name value).enter name value isGlobal).1 = name := by
    rw [enter_of_free hfree]
  refine Prod.ext hused (ext_lookup? (fun n => ?_) ?_)
  · rw [lookup?_enter, hused, lookup?_leave]
    by_cases hn : n = name
    · rw [if_pos hn, hn, h]
    · rw [if_neg hn, if_neg fun hboth => hn hboth.1]
  · rw [enter_of_free hfree]
    exact lastUnique_leave t name value

/-- **The element that came next marks the place**: what is erased goes back
before it, or to the end if nothing came next. -/
theorem Sequence.exists_splice_erase {α : Type} [DecidableEq α] {a : α} {l : List α}
    (hnodup : l.Nodup) (ha : a ∈ l) :
    ∃ k, position? (next? a l) (l.erase a) = some k ∧ splice k [a] (l.erase a) = l := by
  obtain ⟨pre, post, rfl⟩ := List.append_of_mem ha
  obtain ⟨-, -, hdisjoint⟩ := List.nodup_append.1 hnodup
  have hpre : a ∉ pre := fun h => hdisjoint a h a List.mem_cons_self rfl
  rw [next?_append_cons hpre, List.erase_append_right _ hpre, List.erase_cons_head]
  refine ⟨pre.length, ?_, by simp [splice]⟩
  cases post with
  | nil => simp [position?]
  | cons b post =>
    have hb : b ∉ pre := fun h => hdisjoint b h b (by simp) rfl
    rw [List.head?_cons, position?, List.idxOf?, List.findIdx?_eq_some_iff_getElem]
    refine ⟨by simp, by simp, fun j hj => ?_⟩
    rw [List.getElem_append_left hj, beq_iff_eq]
    exact fun heq => hb (heq ▸ List.getElem_mem hj)

/-- There is a place before every member, and at the end. -/
theorem Sequence.exists_position?_iff {α : Type} [DecidableEq α] {before : Option α} {l : List α} :
    (∃ k, position? before l = some k) ↔ ∀ b, before = some b → b ∈ l := by
  cases before with
  | none => exact ⟨fun _ _ hb => (nomatch hb), fun _ => ⟨_, rfl⟩⟩
  | some b =>
    rw [← Option.isSome_iff_exists, position?, List.isSome_idxOf?]
    exact ⟨fun hb c hc => Option.some.inj hc ▸ hb, fun hall => hall b rfl⟩

namespace Value

variable (x : Value)

theorem setMembers_setMembers (list : MemberList) (vs ws : List ValueId) :
    (x.setMembers list vs).setMembers list ws = x.setMembers list ws := by
  obtain ⟨payload, name, parent⟩ := x
  cases payload <;> cases list <;> rfl

theorem setMembers_members (list : MemberList) : x.setMembers list (x.members list) = x := by
  obtain ⟨payload, name, parent⟩ := x
  cases payload <;> cases list <;> rfl

/-- Lists and tables are changed in any order. -/
theorem setMembers_mapSymbols (list : MemberList) (vs : List ValueId)
    (f : SymbolTable → SymbolTable) :
    (x.mapSymbols f).setMembers list vs = (x.setMembers list vs).mapSymbols f := by
  obtain ⟨payload, name, parent⟩ := x
  cases payload <;> cases list <;> rfl

theorem mapSymbols_id : (x.mapSymbols fun t => t) = x := by
  obtain ⟨payload, name, parent⟩ := x
  cases payload <;> rfl

/-- Whatever happened to the table, the old one can be set again. -/
theorem mapSymbols_symbols? (f : SymbolTable → SymbolTable) :
    (x.mapSymbols f).mapSymbols (fun _ => x.symbols?.getD {}) = x := by
  obtain ⟨payload, name, parent⟩ := x
  cases payload <;> rfl

end Value

namespace Context

variable {ctx : Context} {v w p : ValueId} {list : MemberList} {x o : Value} {k : Nat}

section Updates

variable {f g : Value → Value}

theorem update_update : (ctx.update v f).update v g = ctx.update v (g ∘ f) := by
  refine eq_of_value? (by simp) (funext fun w => ?_) (by simp) (by simp) (by simp)
  simp only [value?_update]
  split <;> simp

theorem update_comm (hne : v ≠ w) : (ctx.update v f).update w g = (ctx.update w g).update v f := by
  refine eq_of_value? (by simp) (funext fun u => ?_) (by simp) (by simp) (by simp)
  simp only [value?_update]
  by_cases hv : u = v
  · have hw : u ≠ w := fun hw => hne (hv.symm.trans hw)
    rw [if_neg hw, if_neg hw]
  · rw [if_neg hv, if_neg hv]

theorem update_congr (h : ctx.value? v = some x) (hfg : f x = g x) :
    ctx.update v f = ctx.update v g := by
  refine eq_of_value? (by simp) (funext fun w => ?_) (by simp) (by simp) (by simp)
  rw [value?_update, value?_update]
  split
  · rename_i hw
    rw [hw, h, Option.map_some, Option.map_some, hfg]
  · rfl

theorem update_id : ctx.update v (fun x => x) = ctx := by
  refine eq_of_value? (by simp) (funext fun w => ?_) (by simp) (by simp) (by simp)
  rw [value?_update]
  split <;> simp

theorem update_eq_self (h : ctx.value? v = some x) (hf : f x = x) : ctx.update v f = ctx :=
  (update_congr h hf).trans update_id

end Updates

/-- Leaving a table is a change of the owner, for a value without name too. -/
theorem left_eq_update {name : Option String} :
    ctx.left p v name = ctx.update p fun x => x.mapSymbols fun t => name.elim t (t.leave · v) := by
  cases name with
  | some n => rfl
  | none => simp only [left, Option.elim_none, Value.mapSymbols_id, update_id]

/-- With its list and its parent set again, a member that was detached lacks
nothing but its name in the table. -/
theorem withParent_withMembers_detached (ho : ctx.value? p = some o) (hx : ctx.value? v = some x)
    (hne : v ≠ p) (hparent : x.parent = some p) :
    ((ctx.detached p list v).withMembers p list (ctx.members p list)).withParent v (some p) =
      ctx.left p v x.name := by
  have hself : { x with parent := some p } = x := by
    rw [← hparent]
  unfold detached
  rw [hx, Option.bind_some, members_of_value? ho]
  -- The changes of the owner come first, then those of the member, which undo each other.
  simp only [left_eq_update, withMembers, withParent, update_comm hne, update_update]
  rw [update_comm hne.symm, update_eq_self hx hself]
  refine update_congr ho ?_
  simp only [Function.comp_apply, Value.setMembers_mapSymbols, Value.setMembers_setMembers,
    Value.setMembers_members]

/-- And its name goes back where it was. -/
theorem adopted_left (ho : ctx.value? p = some o) (hx : ctx.value? v = some x) (hne : v ≠ p)
    (howner : ctx.isOwner p)
    (htable : ∀ n, x.name = some n → (ctx.symbols p).lookup? n = some v) :
    (ctx.left p v x.name).adopted p v = ctx := by
  have hvalue : (ctx.left p v x.name).value? v = some x := by
    rw [left_eq_update, value?_update, if_neg hne, hx]
  unfold adopted
  rw [hvalue]
  cases hname : x.name with
  | none =>
    simp only [hname]
    rfl
  | some n =>
    have hsymbols : (ctx.left p v (some n)).symbols p = (ctx.symbols p).leave n v := by
      rw [left, symbols_update_mapSymbols howner, Function.update_self]
    have hlabel : { x with name := some n } = x := by
      rw [← hname]
    simp only [hname, entered, labelled, hsymbols, SymbolTable.enter_leave (htable n hname)]
    rw [left, update_update, update_comm hne.symm, update_eq_self hx hlabel]
    refine update_eq_self ho ?_
    rw [symbols, ho]
    exact o.mapSymbols_symbols? _

/-! ## What a detached member leaves -/

theorem storedName?_detached : (ctx.detached p list v).storedName? = ctx.storedName? := by
  unfold detached
  rw [SameNames.withParent.name, left_eq_update, storedName?_update_mapSymbols,
    SameNames.withMembers.name]

theorem symbols_detached (howner : ctx.isOwner p) : (ctx.detached p list v).symbols =
    Function.update ctx.symbols p
      ((ctx.storedName? v).elim (ctx.symbols p) ((ctx.symbols p).leave · v)) := by
  have hstill : (ctx.withMembers p list ((ctx.members p list).erase v)).isOwner p := by
    rw [isOwner_congr kind?_withMembers]
    exact howner
  unfold detached
  rw [SameNames.withParent.symbols, left_eq_update, symbols_update_mapSymbols hstill,
    SameNames.withMembers.symbols]
  rfl

/-- No table forgets its last number. -/
theorem lastUnique_symbols_detached (howner : ctx.isOwner p) (q : ValueId) :
    ((ctx.detached p list v).symbols q).lastUnique = (ctx.symbols q).lastUnique := by
  rw [symbols_detached howner]
  by_cases hq : q = p
  · rw [hq, Function.update_self]
    cases ctx.storedName? v <;> simp
  · rw [Function.update_of_ne hq]

/-- The member after another in its owner's list. -/
def nextMember? (ctx : Context) (owner : ValueId) (list : MemberList) (v : ValueId) :
    Option ValueId :=
  Sequence.next? v (ctx.members owner list)

/-- The values that the instructions of a block refer to. -/
def mentions (ctx : Context) (b : ValueId) : List ValueId :=
  (ctx.body b).flatMap fun i => ((ctx.inst? i).map Instruction.references).getD []

theorem mem_mentions {b : ValueId} : v ∈ ctx.mentions b ↔
    ∃ i ∈ ctx.body b, ∃ x, ctx.inst? i = some x ∧ v ∈ x.references := by
  rw [mentions, List.mem_flatMap]
  refine exists_congr fun i => and_congr_right fun _ => ?_
  cases ctx.inst? i <;> simp

theorem mentions_detached {b : ValueId} : (ctx.detached p list v).mentions b = ctx.mentions b := by
  rw [mentions, mentions, body_of_block block_detached, OffValues.inst?.detached]

/-- **A block that can come back** to a function: what it mentions belongs
there, and it does not mention itself. -/
def Returnable (ctx : Context) (f b : ValueId) : Prop :=
  ∀ v ∈ ctx.mentions b, ctx.Belongs f v ∧ v ≠ b

theorem insertionIndex_eq_ok {before : Option ValueId} :
    ctx.insertionIndex p list before = .ok k ↔
      Sequence.position? before (ctx.members p list) = some k := by
  cases before with
  | none => rw [insertionIndex, Sequence.position?, Except.ok.injEq, Option.some.injEq]
  | some b =>
    simp only [insertionIndex, Sequence.position?]
    cases (ctx.members p list).idxOf? b with
    | some n => rw [Except.ok.injEq, Option.some.injEq]
    | none =>
      refine iff_of_false (fun h => ?_) (Option.some_ne_none k).symm
      obtain ⟨x, -, h⟩ := bind_eq_ok.1 h
      cases h

end Context

open Context

variable {ctx : Context} {v p f b : ValueId} {list : MemberList}

namespace Scoped

/-- **A member that is put back where it was was never away.** -/
theorem attached_detached (h : Scoped ctx) (hm : Membered ctx) (hv : v ∈ ctx.members p list)
    (hne : v ≠ p) {k : Nat}
    (hk : Sequence.splice k [v] ((ctx.members p list).erase v) = ctx.members p list) :
    (ctx.detached p list v).attached p list v k = ctx := by
  have howner := kind?_of_mem_members hv
  obtain ⟨o, ho, -⟩ := Option.map_eq_some_iff.1 howner
  obtain ⟨x, hx, -⟩ := Option.map_eq_some_iff.1 (hm.kind hv)
  have hparent : x.parent = some p := by
    rw [← parent?_of_value? hx]
    exact hm.parent hv
  have hmembers : (ctx.detached p list v).members p list = (ctx.members p list).erase v := by
    rw [members_detached howner, if_pos ⟨rfl, rfl⟩]
  unfold Context.attached
  rw [hmembers, hk, withParent_withMembers_detached ho hx hne hparent]
  refine adopted_left ho hx hne (isOwner_of_kind? howner) fun n hn => ?_
  refine (h.lookup p n v).2 ⟨hm.parent hv, ?_⟩
  rw [storedName?, hx]
  exact hn

/-- The tables have everyone's name but that of the member that was
detached. -/
theorem lookup?_detached (h : Scoped ctx) (hm : Membered ctx) (hv : v ∈ ctx.members p list)
    (q w : ValueId) (n : String) :
    ((ctx.detached p list v).symbols q).lookup? n = some w ↔
      w ≠ v ∧ (ctx.symbols q).lookup? n = some w := by
  rw [(h.detached hm hv).lookup, h.lookup, parent?_detached (hm.owned hv), storedName?_detached]
  by_cases hw : w = v
  · simp [hw]
  · simp [hw]

end Scoped

namespace Membered

/-- The lists have everyone but the member that was detached, in the order
they had. -/
theorem members_detached_eq_erase (h : Membered ctx) (hv : v ∈ ctx.members p list) (q : ValueId)
    (l : MemberList) : (ctx.detached p list v).members q l = (ctx.members q l).erase v := by
  rw [members_detached (kind?_of_mem_members hv)]
  split
  · rename_i hq
    rw [hq.1, hq.2]
  · rename_i hq
    refine (List.erase_of_not_mem fun hmem => hq ?_).symm
    exact ⟨(h.unique hv hmem).1.symm, (h.unique hv hmem).2.symm⟩

/-- The place of a member that was detached is still found. -/
theorem exists_insertionIndex_detached (h : Membered ctx) (hv : v ∈ ctx.members p list) :
    ∃ k, (ctx.detached p list v).insertionIndex p list (ctx.nextMember? p list v) = .ok k ∧
      Sequence.splice k [v] ((ctx.members p list).erase v) = ctx.members p list := by
  obtain ⟨k, hposition, hsplice⟩ := Sequence.exists_splice_erase (h.nodup p list) hv
  refine ⟨k, insertionIndex_eq_ok.2 ?_, hsplice⟩
  rw [h.members_detached_eq_erase hv]
  exact hposition

theorem checkInsertion_detached (h : Membered ctx) (hv : v ∈ ctx.members p list) :
    (ctx.detached p list v).checkInsertion p list v (ctx.nextMember? p list v) =
      (ctx.detached p list v).checkAdmission list p v := by
  obtain ⟨k, hk, -⟩ := h.exists_insertionIndex_detached hv
  have howner : (ctx.detached p list v).kind? p = some list.ownerKind := by
    rw [kind?_detached]
    exact kind?_of_mem_members hv
  have hmember : (ctx.detached p list v).kind? v = some list.memberKind := by
    rw [kind?_detached]
    exact h.kind hv
  obtain ⟨o, ho, hok⟩ := Option.map_eq_some_iff.1 howner
  obtain ⟨m, hm, hmk⟩ := Option.map_eq_some_iff.1 hmember
  have hfree : m.parent = none := by
    rw [← parent?_of_value? hm, parent?_detached (h.owned hv), if_pos rfl]
  exact checkInsertion_eq_checkAdmission ho hm hok hmk hfree hk

/-- Outside its function a block is a stranger there, and nothing else is. -/
theorem belongs_detached (h : Membered ctx) (hb : b ∈ ctx.members f .blocks) :
    (ctx.detached f .blocks b).Belongs f v ↔ ctx.Belongs f v ∧ v ≠ b := by
  unfold Belongs
  rw [kind?_detached, parent?_detached (h.owned hb)]
  by_cases hv : v = b
  · subst hv
    rw [h.kind hb]
    simp [MemberList.memberKind, Kind.isFunctionLocal]
  · simp [hv]

end Membered

/-! ## Whether a member may enter again -/

namespace Rooted

theorem ne_of_parent? (h : Rooted ctx) (hparent : ctx.parent? v = some p) : v ≠ p := by
  rintro rfl
  exact h.wellFounded.irrefl.irrefl v hparent

/-- A member is not met on the way up from its owner. -/
theorem not_mem_enclosing_detached (h : Rooted ctx) (hm : Membered ctx)
    (hv : v ∈ ctx.members p list) : v ∉ (ctx.detached p list v).enclosing p := by
  obtain ⟨vs, hvs⟩ := h.ascends p
  obtain ⟨hnot, -⟩ := List.nodup_cons.1 (Ascends.up (hm.parent hv) hvs).nodup
  have hsame : (ctx.detached p list v).Ascends p vs := by
    refine hvs.congr fun w hw => ?_
    have hne : w ≠ v := fun hwv => hnot (hwv ▸ hw)
    rw [parent?_detached (hm.owned hv), if_neg hne]
  have howner : (ctx.detached p list v).ownsValue p := by
    refine ownsValue_of_kind? (k := list.ownerKind) ?_
    rw [kind?_detached]
    exact kind?_of_mem_members hv
  rw [hsame.enclosing_eq (hm.detached hv) howner]
  exact hnot

/-- **Everything but a block may enter where it was.** -/
theorem checkAdmission_detached (h : Rooted ctx) (hm : Membered ctx)
    (hv : v ∈ ctx.members p list) (hother : list ≠ .blocks) :
    (ctx.detached p list v).checkAdmission list p v = .ok () := by
  have hnot := h.not_mem_enclosing_detached hm hv
  unfold checkAdmission
  rw [if_neg fun hboth => hnot hboth.2, if_neg hother]
  rfl

end Rooted

/-- A block may enter a function if all it mentions belongs there. -/
theorem Threaded.checkAdmission_blocks (h : Threaded ctx) (hb : ctx.kind? b = some .block) :
    ctx.checkAdmission .blocks f b = .ok () ↔ ∀ v ∈ ctx.mentions b, ctx.Belongs f v := by
  refine ⟨fun hok v hv => ?_, fun hall => ?_⟩
  · obtain ⟨i, hi, x, hx, hmem⟩ := mem_mentions.1 hv
    exact belongs_of_checkAdmission hok hi hx v hmem
  · unfold checkAdmission
    rw [if_neg (by simp), if_pos rfl, readBody_eq_ok.2 ⟨hb, rfl⟩, ok_bind]
    refine forM_eq_ok.2 fun i hi => ?_
    obtain ⟨x, hx, -⟩ := h.live hi
    rw [readInst_eq_ok.2 hx, ok_bind]
    exact checkReferences_eq_ok.2 fun v hv => hall v (mem_mentions.2 ⟨i, hi, x, hx, hv⟩)

theorem Sound.detached (h : Sound ctx) (hv : v ∈ ctx.members p list) :
    Sound (ctx.detached p list v) := by
  obtain ⟨o, ho, hok⟩ := Option.map_eq_some_iff.1 (kind?_of_mem_members hv)
  obtain ⟨x, hx, hxk⟩ := Option.map_eq_some_iff.1 (h.membered.kind hv)
  have hparent : x.parent = some p := by
    rw [← parent?_of_value? hx]
    exact h.membered.parent hv
  exact h.step (.detach ho hx hparent hok hxk hv)

/-- **A block may enter its function again** unless it mentions itself or a
stranger. -/
theorem Sound.checkAdmission_detached_block (h : Sound ctx) (hb : b ∈ ctx.members f .blocks) :
    (ctx.detached f .blocks b).checkAdmission .blocks f b = .ok () ↔
      ctx.Returnable f b := by
  have hkind : (ctx.detached f .blocks b).kind? b = some .block := by
    rw [kind?_detached]
    exact h.membered.kind hb
  rw [(h.detached hb).threaded.checkAdmission_blocks hkind, mentions_detached]
  exact forall₂_congr fun v _ => h.membered.belongs_detached hb

/-! ## Putting a member back -/

namespace Reachable

theorem run_detach (h : Reachable ctx) (hv : v ∈ ctx.members p list) :
    ((Edit.detach v).run ctx).outcome = .ok () ∧
      ((Edit.detach v).run ctx).context = ctx.detached p list v := by
  obtain ⟨_, hok, hcontext⟩ := Edit.Ensures.exists_ok
    ((h.membered.ensures_detach_iff hv (Q := fun _ c => c = ctx.detached p list v)).2 rfl)
  exact ⟨hok, hcontext⟩

theorem outcome_putBack (h : Reachable ctx) (hv : v ∈ ctx.members p list) :
    ((Edit.insertMember p list v (ctx.nextMember? p list v)).run
      (ctx.detached p list v)).outcome = (ctx.detached p list v).checkAdmission list p v :=
  Edit.outcome_insertMember.trans (h.membered.checkInsertion_detached hv)

/-- **Putting a member back** restores the context, or is refused and leaves
the member out. -/
theorem ensures_putBack (h : Reachable ctx) (hv : v ∈ ctx.members p list) :
    (Edit.insertMember p list v (ctx.nextMember? p list v)).Ensures (fun _ c => c = ctx)
      (fun _ c => c = ctx.detached p list v) (ctx.detached p list v) := by
  obtain ⟨k, hk, hsplice⟩ := h.membered.exists_insertionIndex_detached hv
  refine Edit.ensures_insertMember (fun _ _ => rfl) fun _ _ k' _ _ _ _ _ _ hk' => ?_
  obtain rfl : k = k' := Except.ok.inj (hk.symm.trans hk')
  have hne : v ≠ p := h.rooted.ne_of_parent? (h.membered.parent hv)
  exact h.scoped.attached_detached h.membered hv hne hsplice

end Reachable

/-- **A member that is taken out and put back leaves no trace.** A function,
storage slot, nested contract, argument or local can be detached from its
owner. It then has no parent and keeps its name, which the owner's table no
longer has; the lists have everyone else in the order they had, and the tables
everyone else's name and the same last number. Put back before the member
that came next, or at the end if none did, it leaves the context exactly as it
was. -/
theorem detach_insert_restores {ctx : Context} (reachable : Reachable ctx) {v p : ValueId}
    {list : MemberList} (member : ctx.parent? v = some p)
    (kind : ctx.kind? v = some list.memberKind) (other : list ≠ .blocks) :
    ∃ apart : Context,
      ((Edit.detach v).run ctx).outcome = .ok () ∧ ((Edit.detach v).run ctx).context = apart ∧
      apart.parent? v = none ∧ apart.storedName? v = ctx.storedName? v ∧
      (∀ q l, apart.members q l = (ctx.members q l).erase v) ∧
      (∀ q n w, (apart.symbols q).lookup? n = some w ↔
        w ≠ v ∧ (ctx.symbols q).lookup? n = some w) ∧
      (∀ q, (apart.symbols q).lastUnique = (ctx.symbols q).lastUnique) ∧
      ((Edit.insertMember p list v (ctx.nextMember? p list v)).run apart).outcome = .ok () ∧
      ((Edit.insertMember p list v (ctx.nextMember? p list v)).run apart).context = ctx := by
  have hm := reachable.membered
  have hv : v ∈ ctx.members p list := hm.mem_of_kind member kind
  obtain ⟨hdetach, hcontext⟩ := reachable.run_detach hv
  have hback := reachable.outcome_putBack hv
  rw [reachable.rooted.checkAdmission_detached hm hv other] at hback
  refine ⟨ctx.detached p list v, hdetach, hcontext, ?_, congrFun storedName?_detached v,
    hm.members_detached_eq_erase hv, fun q n w => reachable.scoped.lookup?_detached hm hv q w n,
    lastUnique_symbols_detached (isOwner_of_kind? (kind?_of_mem_members hv)), hback,
    (reachable.ensures_putBack hv).of_ok hback⟩
  rw [parent?_detached (hm.owned hv), if_pos rfl]

/-- A contract with three functions that were given one name. -/
def namesakes : Context :=
  Operation.runAll
    [.createContract "bank", .createFunction true "pay" (some ⟨0, 0⟩),
      .createFunction true "pay" (some ⟨0, 0⟩), .createFunction true "pay" (some ⟨0, 0⟩)]
    { id := 0 }

/-- The one in the middle comes back with the number it had, between the
others. -/
theorem detach_insert_restores_namesakes :
    Reachable namesakes ∧ namesakes.storedName? ⟨0, 2⟩ = some "pay.1" ∧
    namesakes.nextMember? ⟨0, 0⟩ .functions ⟨0, 2⟩ = some ⟨0, 3⟩ ∧
    ∃ apart : Context, ((Edit.detach ⟨0, 2⟩).run namesakes).context = apart ∧
      apart.storedName? ⟨0, 2⟩ = some "pay.1" ∧
      apart.members ⟨0, 0⟩ .functions = [⟨0, 1⟩, ⟨0, 3⟩] ∧
      ((Edit.insertMember ⟨0, 0⟩ .functions ⟨0, 2⟩ (some ⟨0, 3⟩)).run apart).context =
        namesakes := by
  have hreachable : Reachable namesakes := (Reachable.empty 0).runAll (by decide)
  have hname : namesakes.storedName? ⟨0, 2⟩ = some "pay.1" := by decide +kernel
  have hnext : namesakes.nextMember? ⟨0, 0⟩ .functions ⟨0, 2⟩ = some ⟨0, 3⟩ := by decide
  have hmembers : (namesakes.members ⟨0, 0⟩ .functions).erase ⟨0, 2⟩ = [⟨0, 1⟩, ⟨0, 3⟩] := by
    decide
  have hparent : namesakes.parent? ⟨0, 2⟩ = some ⟨0, 0⟩ := by decide
  have hkind : namesakes.kind? ⟨0, 2⟩ = some MemberList.functions.memberKind := by decide
  obtain ⟨apart, -, hcontext, -, hkept, hlists, -, -, -, hback⟩ :=
    detach_insert_restores hreachable hparent hkind (by decide)
  rw [hnext] at hback
  refine ⟨hreachable, hname, hnext, apart, hcontext, hkept.trans hname, ?_, hback⟩
  rw [hlists, hmembers]

/-- **A block comes back unless it mentions itself.** A block can be detached
from its function, and then has no parent and keeps its name. Put back before
the block that came next, or at the end if none did, it is accepted exactly if
everything its instructions mention belongs to the function and is not the
block itself; the context is then exactly as it was. Otherwise it is refused,
as an ownership violation, and stays out. -/
theorem block_restored_iff {ctx : Context} (reachable : Reachable ctx) {f b : ValueId}
    (block : b ∈ ctx.members f .blocks) :
    ∃ apart : Context,
      ((Edit.detach b).run ctx).outcome = .ok () ∧ ((Edit.detach b).run ctx).context = apart ∧
      apart.parent? b = none ∧ apart.storedName? b = ctx.storedName? b ∧
      (((Edit.insertMember f .blocks b (ctx.nextMember? f .blocks b)).run apart).outcome =
        .ok () ↔ ctx.Returnable f b) ∧
      (ctx.Returnable f b →
        ((Edit.insertMember f .blocks b (ctx.nextMember? f .blocks b)).run apart).context = ctx) ∧
      (¬ctx.Returnable f b → ∃ cause,
        ((Edit.insertMember f .blocks b (ctx.nextMember? f .blocks b)).run apart).outcome =
          .error (.refused cause) ∧ cause.kind = .ownershipViolation ∧
        ((Edit.insertMember f .blocks b (ctx.nextMember? f .blocks b)).run apart).context =
          apart) := by
  have hm := reachable.membered
  obtain ⟨hdetach, hcontext⟩ := reachable.run_detach block
  have hback := reachable.outcome_putBack block
  have hadmits := reachable.sound.checkAdmission_detached_block block
  have hparent : (ctx.detached f .blocks b).parent? b = none := by
    rw [parent?_detached (hm.owned block), if_pos rfl]
  refine ⟨ctx.detached f .blocks b, hdetach, hcontext, hparent, congrFun storedName?_detached b,
    by rw [hback, hadmits], fun hreturns => ?_, fun hrefused => ?_⟩
  · exact (reachable.ensures_putBack block).of_ok (hback.trans (hadmits.2 hreturns))
  · cases hcheck : (ctx.detached f .blocks b).checkAdmission .blocks f b with
    | ok _ => exact absurd (hadmits.1 hcheck) hrefused
    | error fault =>
      have herror := hback.trans hcheck
      have hkind : (ctx.detached f .blocks b).kind? b = some .block := by
        rw [kind?_detached]
        exact hm.kind block
      have hproper : fault.Proper (.ok ()) :=
        proper_checkAdmission (reachable.sound.detached block) hkind hcheck
      obtain ⟨cause, rfl, hviolation | hown⟩ := hproper
      · exact ⟨cause, herror, hviolation, (reachable.ensures_putBack block).of_error herror⟩
      · cases hown

/-- A function whose second block branches to the first and jumps to the
third. -/
def betweenSiblings : Context :=
  Operation.runAll
    [.createFunction true "f" none, .createArgument "c" (some ⟨0, 0⟩),
      .createBlock "a" (some ⟨0, 0⟩) none, .createBlock "b" (some ⟨0, 0⟩) none,
      .createBlock "d" (some ⟨0, 0⟩) none,
      .createForm (.branch ⟨0, 1⟩ ⟨0, 2⟩) (.atEnd ⟨0, 3⟩),
      .createForm (.jump ⟨0, 4⟩) (.atEnd ⟨0, 3⟩)] { id := 0 }

/-- It comes back between the two. -/
theorem block_restored_iff_betweenSiblings :
    Reachable betweenSiblings ∧
    betweenSiblings.members ⟨0, 0⟩ .blocks = [⟨0, 2⟩, ⟨0, 3⟩, ⟨0, 4⟩] ∧
    betweenSiblings.mentions ⟨0, 3⟩ = [⟨0, 1⟩, ⟨0, 2⟩, ⟨0, 4⟩] ∧
    ∃ apart : Context, ((Edit.detach ⟨0, 3⟩).run betweenSiblings).context = apart ∧
      apart.parent? ⟨0, 3⟩ = none ∧
      ((Edit.insertMember ⟨0, 0⟩ .blocks ⟨0, 3⟩ (some ⟨0, 4⟩)).run apart).outcome = .ok () ∧
      ((Edit.insertMember ⟨0, 0⟩ .blocks ⟨0, 3⟩ (some ⟨0, 4⟩)).run apart).context =
        betweenSiblings := by
  have hreachable : Reachable betweenSiblings := (Reachable.empty 0).runAll (by decide)
  have hblocks : betweenSiblings.members ⟨0, 0⟩ .blocks = [⟨0, 2⟩, ⟨0, 3⟩, ⟨0, 4⟩] := by decide
  have hmentions : betweenSiblings.mentions ⟨0, 3⟩ = [⟨0, 1⟩, ⟨0, 2⟩, ⟨0, 4⟩] := by decide
  have hnext : betweenSiblings.nextMember? ⟨0, 0⟩ .blocks ⟨0, 3⟩ = some ⟨0, 4⟩ := by decide
  have hreturns : betweenSiblings.Returnable ⟨0, 0⟩ ⟨0, 3⟩ := by
    rw [Returnable, hmentions]
    simp only [List.forall_mem_cons, List.not_mem_nil, false_implies, implies_true, and_true]
    exact ⟨⟨⟨.argument, by decide, fun _ => by decide⟩, by decide⟩,
      ⟨⟨.block, by decide, fun _ => by decide⟩, by decide⟩,
      ⟨.block, by decide, fun _ => by decide⟩, by decide⟩
  obtain ⟨apart, -, hcontext, hparent, -, haccepts, hrestores, -⟩ :=
    block_restored_iff hreachable (f := ⟨0, 0⟩) (b := ⟨0, 3⟩) (by decide)
  rw [hnext] at haccepts hrestores
  exact ⟨hreachable, hblocks, hmentions, apart, hcontext, hparent, haccepts.2 hreturns,
    hrestores hreturns⟩

/-- A function whose only block branches to itself. -/
def selfLoop : Context :=
  Operation.runAll
    [.createFunction true "f" none, .createArgument "c" (some ⟨0, 0⟩),
      .createBlock "b" (some ⟨0, 0⟩) none,
      .createForm (.branch ⟨0, 1⟩ ⟨0, 2⟩) (.atEnd ⟨0, 2⟩)] { id := 0 }

/-- **A loop of one block cannot be taken out and put back**: all it mentions
are members of the function, but once outside it is no longer one itself. -/
theorem selfLoop_stays_out :
    Reachable selfLoop ∧ selfLoop.members ⟨0, 0⟩ .blocks = [⟨0, 2⟩] ∧
    (∀ v ∈ selfLoop.mentions ⟨0, 2⟩, selfLoop.parent? v = some ⟨0, 0⟩) ∧
    ((Edit.detach ⟨0, 2⟩).run selfLoop).outcome = .ok () ∧
    ((Edit.insertMember ⟨0, 0⟩ .blocks ⟨0, 2⟩ none).run
      ((Edit.detach ⟨0, 2⟩).run selfLoop).context).outcome =
        .error (.refused (.outsider .block "b" .br "f")) := by
  have hreachable : Reachable selfLoop := (Reachable.empty 0).runAll (by decide)
  exact ⟨hreachable, by decide, by decide, by decide, by decide⟩

end ContractIR
