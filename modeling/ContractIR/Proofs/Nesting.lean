import Mathlib.Order.WellFounded
import ContractIR.Proofs.Texts
/-!
# Nesting

A value has an owner, which may have an owner in turn. Contracts nest, and
they are detached and attached in any order, so what keeps the owners of a
value from coming back to it is one check: a contract is refused where it
encloses its new owner. The check climbs from owner to owner itself, and ends
only because what it protects holds already. `Ascends` is that climb without a
bound, and the invariant is that every value has one. It follows that the
bounded climb of the check is never cut short, and that writing out a contract,
which goes down where the climb goes up, reaches an end.
-/

namespace ContractIR

namespace Context

/-- **The climb to the outermost owner**: the value and its owners, innermost
first, up to one that has none. -/
inductive Ascends (ctx : Context) : ValueId → List ValueId → Prop
  | top {v : ValueId} : ctx.parent? v = none → Ascends ctx v [v]
  | up {v p : ValueId} {vs : List ValueId} : ctx.parent? v = some p → Ascends ctx p vs →
      Ascends ctx v (v :: vs)

/-- A value is a member of another. -/
def IsMember (ctx : Context) (owner v : ValueId) : Prop := ctx.parent? v = some owner

variable {ctx ctx' : Context} {v w p t : ValueId} {vs ws : List ValueId} {list : MemberList}

namespace Ascends

/-- There is one way up. -/
theorem unique (h : ctx.Ascends v vs) (h' : ctx.Ascends v ws) : vs = ws := by
  induction h generalizing ws with
  | top hv =>
    cases h' with
    | top => rfl
    | up hp => rw [hv] at hp; cases hp
  | @up v p vs hv _ ih =>
    cases h' with
    | top hnone => rw [hv] at hnone; cases hnone
    | up hp hrest =>
      obtain rfl : p = _ := Option.some.inj (hv.symm.trans hp)
      rw [ih hrest]

/-- From any value on the way, the rest of the way is its own. -/
theorem rest (h : ctx.Ascends v vs) {pre post : List ValueId} (hvs : vs = pre ++ w :: post) :
    ctx.Ascends w (w :: post) := by
  induction h generalizing pre with
  | top hv =>
    cases pre with
    | nil =>
      obtain ⟨rfl, rfl⟩ := List.cons.inj hvs
      exact .top hv
    | cons u pre => exact absurd (List.cons.inj hvs).2 (by simp)
  | up hv hrest ih =>
    cases pre with
    | nil =>
      obtain ⟨rfl, rfl⟩ := List.cons.inj hvs
      exact .up hv hrest
    | cons u pre => exact ih (List.cons.inj hvs).2

/-- **Nothing is met twice**: the way up from there would have two lengths. -/
theorem nodup (h : ctx.Ascends v vs) : vs.Nodup := by
  induction h with
  | top => exact List.nodup_singleton _
  | @up v p vs hv hrest ih =>
    refine List.nodup_cons.2 ⟨fun hmem => ?_, ih⟩
    obtain ⟨pre, post, hsplit⟩ := List.append_of_mem hmem
    have hlength := congrArg List.length ((Ascends.up hv hrest).unique (hrest.rest hsplit))
    rw [hsplit, List.length_cons, List.length_append, List.length_cons] at hlength
    omega

/-- What is met are the value and those it is a member of, through others or
not. -/
theorem mem_iff (h : ctx.Ascends v vs) :
    w ∈ vs ↔ w = v ∨ Relation.TransGen ctx.IsMember w v := by
  induction h with
  | @top v hv =>
    rw [List.mem_singleton, or_iff_left]
    intro htrans
    obtain ⟨p, -, hp⟩ := Relation.TransGen.tail'_iff.1 htrans
    rw [IsMember, hv] at hp
    cases hp
  | @up v p vs hv _ ih =>
    rw [List.mem_cons, ih]
    refine or_congr_right ⟨?_, fun htrans => ?_⟩
    · rintro (rfl | htrans)
      · exact .single hv
      · exact htrans.tail hv
    · obtain ⟨q, hq, hqv⟩ := Relation.TransGen.tail'_iff.1 htrans
      obtain rfl : p = q := Option.some.inj (hv.symm.trans hqv)
      exact (Relation.reflTransGen_iff_eq_or_transGen.1 hq).imp Eq.symm fun hp => hp

/-- The bounded climb is a front part of the whole. -/
theorem enclosingUpTo_eq (h : ctx.Ascends v vs) (n : Nat) :
    ctx.enclosingUpTo n v = vs.take n := by
  induction h generalizing n with
  | top hv =>
    cases n with
    | zero => rfl
    | succ n => simp [enclosingUpTo, hv]
  | up hv _ ih =>
    cases n with
    | zero => rfl
    | succ n => simp [enclosingUpTo, hv, ih]

/-- A climb that nothing on its way changes stays. -/
theorem congr (h : ctx.Ascends v vs) (hsame : ∀ w ∈ vs, ctx'.parent? w = ctx.parent? w) :
    ctx'.Ascends v vs := by
  induction h with
  | top hv =>
    refine .top ?_
    rw [hsame _ List.mem_cons_self, hv]
  | @up v p vs hv _ ih =>
    refine .up ?_ (ih fun w hw => hsame w (List.mem_cons_of_mem v hw))
    rw [hsame _ List.mem_cons_self, hv]

end Ascends

/-! ## How far a climb goes -/

/-- How far down a value of the kind stands: contracts may stand in contracts,
functions stand in contracts, and everything else stands below. -/
def kindLevel : Kind → Nat
  | .contract => 0
  | .function => 1
  | _ => 2

/-- How far down a value stands. -/
def level (ctx : Context) (v : ValueId) : Nat := ((ctx.kind? v).map kindLevel).getD 2

theorem level_of_kind? {k : Kind} (h : ctx.kind? v = some k) : ctx.level v = kindLevel k := by
  rw [level, h]
  rfl

/-- An owner does not stand further down than its member. -/
theorem level_parent_le (hm : Membered ctx) (h : ctx.parent? v = some p) :
    ctx.level p ≤ ctx.level v := by
  obtain ⟨l, hl⟩ := hm.listed h
  rw [level_of_kind? (kind?_of_mem_members hl), level_of_kind? (hm.kind hl)]
  cases l <;> decide

/-- It stands further up, unless both are contracts. -/
theorem kindLevel_ownerKind_lt (h : list ≠ .contracts) :
    kindLevel list.ownerKind < kindLevel list.memberKind := by
  cases list <;> first | decide | exact absurd rfl h

/-- Values that are told apart and held are no more than there are values. -/
theorem length_le_size (hnodup : vs.Nodup) (howned : ∀ w ∈ vs, ctx.ownsValue w) :
    vs.length ≤ ctx.values.size := by
  have hheld : ∀ w ∈ vs, w.context = ctx.id ∧ w.index < ctx.values.size := by
    intro w hw
    have hvalue := howned w hw
    unfold ownsValue value? at hvalue
    split at hvalue
    · exact ⟨‹_›, by simpa using hvalue⟩
    · cases hvalue
  have hindices : (vs.map ValueId.index).Nodup := by
    refine hnodup.map_on fun u hu w hw hindex => ?_
    obtain ⟨huc, -⟩ := hheld u hu
    obtain ⟨hwc, -⟩ := hheld w hw
    cases u
    cases w
    simp_all
  have hrange : vs.map ValueId.index ⊆ List.range ctx.values.size := by
    intro k hk
    obtain ⟨w, hw, rfl⟩ := List.mem_map.1 hk
    exact List.mem_range.2 (hheld w hw).2
  have hle := (List.subperm_of_subset hindices hrange).length_le
  rwa [List.length_map, List.length_range] at hle

namespace Ascends

theorem level_le (hm : Membered ctx) (h : ctx.Ascends v vs) (hw : w ∈ vs) :
    ctx.level w ≤ ctx.level v := by
  induction h with
  | top => exact Nat.le_of_eq (congrArg ctx.level (List.mem_singleton.1 hw))
  | up hv _ ih =>
    rcases List.mem_cons.1 hw with rfl | hw
    · exact Nat.le_refl _
    · exact Nat.le_trans (ih hw) (level_parent_le hm hv)

/-- A value of the context has owners of the context, so there are no more of
them than there are values. -/
theorem length_le (hm : Membered ctx) (h : ctx.Ascends v vs) (hv : ctx.ownsValue v) :
    vs.length ≤ ctx.values.size := by
  refine length_le_size h.nodup ?_
  induction h with
  | top => exact fun w hw => List.mem_singleton.1 hw ▸ hv
  | up hp _ ih =>
    obtain ⟨l, hl⟩ := hm.listed hp
    have hrest := ih (ownsValue_of_kind? (kind?_of_mem_members hl))
    exact List.forall_mem_cons.2 ⟨hv, hrest⟩

/-- **The bound never cuts a climb short.** -/
theorem enclosing_eq (hm : Membered ctx) (h : ctx.Ascends v vs) (hv : ctx.ownsValue v) :
    ctx.enclosing v = vs := by
  rw [enclosing, h.enclosingUpTo_eq, List.take_of_length_le (h.length_le hm hv)]

/-- **What may enter is not met on the way up from where it enters**: a
contract because of the check, anything else because of its kind. -/
theorem not_mem_of_admitted (hm : Membered ctx) (h : ctx.Ascends t vs)
    (ht : ctx.kind? t = some list.ownerKind) (hw : ctx.kind? w = some list.memberKind)
    (admitted : ctx.checkAdmission list t w = .ok ()) : w ∉ vs := by
  intro hmem
  by_cases hlist : list = .contracts
  · rw [← h.enclosing_eq hm (ownsValue_of_kind? ht)] at hmem
    rw [checkAdmission, if_pos ⟨hlist, hmem⟩] at admitted
    cases admitted
  · have hle := h.level_le hm hmem
    rw [level_of_kind? ht, level_of_kind? hw] at hle
    have hlt := kindLevel_ownerKind_lt hlist
    omega

/-- **A climb after values went to a new owner**: it ends as before, or joins
the way up from the new owner, where none of these values is met. -/
theorem redirected {moved : List ValueId} (h : ctx.Ascends v vs)
    (hparent : ∀ w, ctx'.parent? w = if w ∈ moved then some t else ctx.parent? w)
    (ht : ctx.Ascends t ws) (hclear : ∀ w ∈ moved, w ∉ ws) : ∃ us, ctx'.Ascends v us := by
  have hjoin : ctx'.Ascends t ws := by
    refine ht.congr fun w hw => ?_
    rw [hparent, if_neg fun hmoved => hclear w hmoved hw]
  induction h with
  | @top v hv =>
    by_cases hmoved : v ∈ moved
    · exact ⟨v :: ws, .up (by rw [hparent, if_pos hmoved]) hjoin⟩
    · exact ⟨[v], .top (by rw [hparent, if_neg hmoved, hv])⟩
  | @up v p vs hv _ ih =>
    by_cases hmoved : v ∈ moved
    · exact ⟨v :: ws, .up (by rw [hparent, if_pos hmoved]) hjoin⟩
    · obtain ⟨us, hus⟩ := ih
      exact ⟨v :: us, .up (by rw [hparent, if_neg hmoved, hv]) hus⟩

/-- A climb after a value was taken from its owner ends there. -/
theorem cut (h : ctx.Ascends v vs)
    (hparent : ∀ w, ctx'.parent? w = if w = t then none else ctx.parent? w) :
    ∃ us, ctx'.Ascends v us := by
  induction h with
  | @top v hv =>
    refine ⟨[v], .top ?_⟩
    rw [hparent, hv, ite_self]
  | @up v p vs hv _ ih =>
    by_cases hvt : v = t
    · exact ⟨[v], .top (by rw [hparent, if_pos hvt])⟩
    · obtain ⟨us, hus⟩ := ih
      exact ⟨v :: us, .up (by rw [hparent, if_neg hvt, hv]) hus⟩

end Ascends

end Context

/-! ## The invariant -/

/-- **Every value has an outermost owner.** -/
structure Rooted (ctx : Context) : Prop where
  ascends : ∀ v, ∃ vs, ctx.Ascends v vs

namespace Rooted

open Context

variable {ctx ctx' : Context}

/-- **No change makes owners come back to a value.** -/
theorem step (h : Rooted ctx) (hm : Membered ctx) {taken : List ValueId}
    (hc : Change ctx taken ctx') : Rooted ctx' := by
  have hsame : ctx'.parent? = ctx.parent? → Rooted ctx' := by
    refine fun hparent => ⟨fun v => ?_⟩
    obtain ⟨vs, hvs⟩ := h.ascends v
    exact ⟨vs, hvs.congr fun w _ => by rw [hparent]⟩
  cases hc with
  | intern => exact hsame parent?_intern
  | push => exact hsame parent?_push
  | enlist => exact hsame rfl
  | rename => exact hsame (parent?_congr skeleton?_renamed)
  | @attach owner member list before o m k ho hmem hok hmk _ hadmit =>
    have howner : ctx.kind? owner = some list.ownerKind := by rw [kind?_of_value? ho, hok]
    have hmember : ctx.kind? member = some list.memberKind := by rw [kind?_of_value? hmem, hmk]
    have hparent : ∀ w, (ctx.attached owner list member k).parent? w =
        if w ∈ [member] then some owner else ctx.parent? w := by
      intro w
      simp only [parent?_attached (ownsValue_of_kind? hmember), List.mem_singleton]
    obtain ⟨ws, hws⟩ := h.ascends owner
    refine ⟨fun v => ?_⟩
    obtain ⟨vs, hvs⟩ := h.ascends v
    refine hvs.redirected hparent hws fun w hw => ?_
    rw [List.mem_singleton.1 hw]
    exact hws.not_mem_of_admitted hm howner hmember hadmit
  | @detach owner member list o m _ hmem =>
    have howned : ctx.ownsValue member := by
      rw [ownsValue, hmem]
      rfl
    refine ⟨fun v => ?_⟩
    obtain ⟨vs, hvs⟩ := h.ascends v
    exact hvs.cut fun w => parent?_detached howned
  | @transfer list source target start stop k before s t hs ht _ _ htk _ _ hadmit =>
    have htarget : ctx.kind? target = some list.ownerKind := by rw [kind?_of_value? ht, htk]
    obtain ⟨ws, hws⟩ := h.ascends target
    refine ⟨fun v => ?_⟩
    obtain ⟨vs, hvs⟩ := h.ascends v
    refine hvs.redirected (fun w => parent?_transferred fun u hu => hm.owned hu) hws fun w hw => ?_
    exact hws.not_mem_of_admitted hm htarget (hm.kind (Sequence.mem_of_mem_slice hw))
      (forM_eq_ok.1 hadmit w hw)
  | annotate only => exact hsame (parent?_congr (skeleton?_update_of_keeps only.skeleton))
  | waste | create => exact hsame SameMembers.pushInst.parent
  | place => exact hsame SameMembers.placed.parent
  | move => exact hsame (SameMembers.placed.trans .unplaced).parent
  | unplace => exact hsame SameMembers.unplaced.parent
  | destroy => exact hsame SameMembers.destroyed.parent
  | setOperand => exact hsame SameMembers.withOperand.parent

theorem empty (id : ContextId) : Rooted { id } :=
  ⟨fun v => ⟨[v], .top (by simp [parent?, value?])⟩⟩

/-- **Membership is well founded.** -/
theorem wellFounded (h : Rooted ctx) : WellFounded ctx.IsMember := by
  refine ⟨fun v => ?_⟩
  obtain ⟨vs, hvs⟩ := h.ascends v
  induction hvs with
  | top hv =>
    refine ⟨_, fun p hp => ?_⟩
    rw [IsMember, hv] at hp
    cases hp
  | up hv _ ih =>
    refine ⟨_, fun q hq => ?_⟩
    obtain rfl := Option.some.inj (hv.symm.trans hq)
    exact ih

end Rooted

theorem Reachable.rooted {ctx : Context} (h : Reachable ctx) : Rooted ctx :=
  h.keeps .empty fun hm hrooted hc => hrooted.step hm hc

/-! ## Writing contracts out -/

namespace Context

variable {ctx : Context} {c : ValueId} {n m : Nat} {text : String}

theorem contractTextUpTo_succ (h : ctx.contractTextUpTo n c = .ok text) :
    ctx.contractTextUpTo (n + 1) c = .ok text := by
  induction n generalizing c text with
  | zero => cases h
  | succ n ih =>
    rw [contractTextUpTo, bind_eq_ok] at h ⊢
    obtain ⟨x, hx, h⟩ := h
    obtain ⟨nested, hnested, h⟩ := bind_eq_ok.1 h
    refine ⟨x, hx, bind_eq_ok.2 ⟨nested, ?_, h⟩⟩
    exact mapM_mono (fun sub _ _ hsub => ih hsub) hnested

/-- More levels of nesting than needed change nothing. -/
theorem contractTextUpTo_mono (hnm : n ≤ m) (h : ctx.contractTextUpTo n c = .ok text) :
    ctx.contractTextUpTo m c = .ok text := by
  induction hnm with
  | refl => exact h
  | step _ ih => exact contractTextUpTo_succ ih

/-- **A contract has a text**, if the levels of nesting that are allowed and
those above it are more than there are values. Going down one level uses one
up and adds one above. -/
theorem Ascends.exists_contractTextUpTo (h : Sound ctx) (haddressed : Addressed ctx) :
    ∀ {n c vs}, ctx.Ascends c vs → ctx.ownsValue c → ctx.values.size < n + vs.length →
      ∃ text, ctx.contractTextUpTo n c = .ok text := by
  intro n
  induction n with
  | zero =>
    intro c vs hvs hc hsize
    have hle := hvs.length_le h.membered hc
    omega
  | succ n ih =>
    intro c vs hvs hc hsize
    obtain ⟨x, hx⟩ := Option.isSome_iff_exists.1 hc
    have hmembers := fun list => (members_of_value? hx list).symm
    have hsub : ∀ sub ∈ ctx.members c .contracts, ∃ text,
        ctx.contractTextUpTo n sub = .ok text := by
      intro sub hsub
      refine ih (.up (h.membered.parent hsub) hvs) (h.membered.owned hsub) ?_
      rw [List.length_cons]
      omega
    have hslot : ∀ v ∈ ctx.members c .globals, ∃ text, ctx.globalText v = .ok text :=
      fun v hv => exists_globalText haddressed (h.membered.owned hv)
    have hfunction : ∀ f ∈ ctx.members c .functions, ∃ text, ctx.functionText f = .ok text :=
      fun f hf => exists_functionText h (h.membered.owned hf)
    obtain ⟨nested, hnested, -⟩ := exists_mapM_eq_ok hsub
    obtain ⟨slots, hslots, -⟩ := exists_mapM_eq_ok hslot
    obtain ⟨functions, hfunctions, -⟩ := exists_mapM_eq_ok hfunction
    simp only [contractTextUpTo, read_eq_ok.2 hx, ok_bind, hmembers, hnested, hslots, hfunctions]
    exact ⟨_, rfl⟩

end Context

/-- **Nesting never becomes cyclic.** Membership is well founded, so no value
is a member of itself, through others or not. The climb from owner to owner
ends for every value of the context, and it meets the value and exactly those
it is a member of, through others or not. And a contract has a text, however
many levels of nesting are allowed beyond the number of values. -/
theorem membership_well_founded {ctx : Context} (reachable : Reachable ctx) :
    WellFounded ctx.IsMember ∧
    (∀ v, ¬Relation.TransGen ctx.IsMember v v) ∧
    (∀ contract, ctx.ownsValue contract →
      ctx.Ascends contract (ctx.enclosing contract) ∧
      ∀ candidate, candidate ∈ ctx.enclosing contract ↔
        candidate = contract ∨ Relation.TransGen ctx.IsMember candidate contract) ∧
    ∀ contract, ctx.kind? contract = some .contract →
      ∃ text, ctx.contractText contract = .ok text ∧
        ∀ n, ctx.values.size < n → ctx.contractTextUpTo n contract = .ok text := by
  have h := reachable.sound
  have hwf := reachable.rooted.wellFounded
  refine ⟨hwf, fun v => hwf.transGen.irrefl.irrefl v, fun c hc => ?_, fun c hc => ?_⟩
  · obtain ⟨vs, hvs⟩ := reachable.rooted.ascends c
    rw [hvs.enclosing_eq h.membered hc]
    exact ⟨hvs, fun candidate => hvs.mem_iff⟩
  · obtain ⟨vs, hvs⟩ := reachable.rooted.ascends c
    obtain ⟨text, htext⟩ := hvs.exists_contractTextUpTo h reachable.addressed
      (n := ctx.values.size + 1) (Context.ownsValue_of_kind? hc) (by omega)
    exact ⟨text, htext, fun n hn => Context.contractTextUpTo_mono hn htext⟩

/-- Three contracts, each nested in the one before; then the second is taken
out, and the first is put into the third. To close the circle is refused. -/
def turnedInsideOut : Context :=
  Operation.runAll
    [.createContract "", .createSubcontract "" ⟨0, 0⟩, .createSubcontract "" ⟨0, 1⟩,
      .detach ⟨0, 1⟩, .insert .contracts ⟨0, 2⟩ ⟨0, 0⟩ none,
      .insert .contracts ⟨0, 0⟩ ⟨0, 1⟩ none] { id := 0 }

/-- The second contract now encloses the first, through the third; the first
does not enclose itself; and the second can be written out. -/
theorem membership_well_founded_turnedInsideOut :
    Reachable turnedInsideOut ∧
    Relation.TransGen turnedInsideOut.IsMember ⟨0, 1⟩ ⟨0, 0⟩ ∧
    ¬Relation.TransGen turnedInsideOut.IsMember ⟨0, 0⟩ ⟨0, 0⟩ ∧
    turnedInsideOut.Ascends ⟨0, 0⟩ [⟨0, 0⟩, ⟨0, 2⟩, ⟨0, 1⟩] ∧
    ∃ text, turnedInsideOut.contractText ⟨0, 1⟩ = .ok text := by
  have hreachable : Reachable turnedInsideOut := (Reachable.empty 0).runAll (by decide)
  obtain ⟨-, hacyclic, hclimb, htext⟩ := membership_well_founded hreachable
  obtain ⟨hascends, hmem⟩ := hclimb ⟨0, 0⟩ (by decide)
  have hencloses : (⟨0, 1⟩ : ValueId) = ⟨0, 0⟩ ∨
      Relation.TransGen turnedInsideOut.IsMember ⟨0, 1⟩ ⟨0, 0⟩ := (hmem _).1 (by decide)
  obtain ⟨text, hok, -⟩ := htext ⟨0, 1⟩ (by decide)
  exact ⟨hreachable, hencloses.resolve_left (by decide), hacyclic _, hascends, text, hok⟩

end ContractIR
