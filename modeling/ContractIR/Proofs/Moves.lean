import ContractIR.Proofs.Belonging
import ContractIR.Proofs.Bodies
/-!
# Moving a run of instructions

A run is moved one instruction after the other: each is taken out of its block
and put at the point, behind those that went before it. The block it comes from
may be the one it goes to, and then every step works on the list that the steps
before it have changed.

What comes out is said by `Context.Moved`: every block has lost the run, and
the block of the point has it again, in its order, at the point. One step moves
a run of one (`Threaded.moved_single`), and runs moved to one point add up
(`Context.Moved.cons`), so a whole run is moved as if in one piece.
-/

namespace ContractIR

/-! ## Runs in sequences -/

/-- What a slice leaves of a list without duplicates is what is not in it. -/
theorem Sequence.filter_not_mem_slice {α : Type} [DecidableEq α] {start stop : Nat} {l : List α}
    (h : start ≤ stop) (hl : l.Nodup) :
    l.filter (fun a => a ∉ slice start stop l) = cut start stop l := by
  have hsplit := take_append_slice_append_drop h l
  generalize slice start stop l = run at hsplit ⊢
  have hnodup : (l.take start ++ (run ++ l.drop stop)).Nodup := by rwa [hsplit]
  obtain ⟨-, hrest, hfront⟩ := List.nodup_append.1 hnodup
  obtain ⟨-, -, hback⟩ := List.nodup_append.1 hrest
  have hkept : ∀ part : List α, (∀ a ∈ part, a ∉ run) → part.filter (fun a => a ∉ run) = part :=
    fun part hpart => List.filter_eq_self.2 fun a ha => decide_eq_true (hpart a ha)
  have hgone : run.filter (fun a => a ∉ run) = [] :=
    List.filter_eq_nil_iff.2 fun a ha => by simpa using ha
  conv_lhs => rw [← hsplit]
  rw [List.filter_append, List.filter_append, hgone, List.nil_append,
    hkept _ fun a ha hmem => hfront a ha a (List.mem_append_left _ hmem) rfl,
    hkept _ fun a ha hmem => hback a hmem a ha rfl, cut]

namespace Sequence.Inserted

variable {α : Type} {before : Option α} {run old mid new : List α} {a : α}

/-- Leaving out others than the element behind the run does not matter. -/
theorem filter (h : Inserted before run old new) {p : α → Bool}
    (hp : ∀ b, before = some b → p b = true) :
    Inserted before (run.filter p) (old.filter p) (new.filter p) := by
  cases before with
  | none =>
    subst h
    exact List.filter_append _ _
  | some b =>
    obtain ⟨pre, post, rfl, rfl⟩ := h
    have hb := hp b rfl
    refine ⟨pre.filter p, post.filter p, ?_, ?_⟩
    · rw [List.filter_append, List.filter_cons_of_pos hb]
    · rw [List.filter_append, List.filter_append, List.filter_cons_of_pos hb]

/-- A run goes behind an element that was inserted at the same place. -/
theorem cons (hfirst : Inserted before [a] old mid) (hrest : Inserted before run mid new)
    (hmid : mid.Nodup) : Inserted before (a :: run) old new := by
  cases before with
  | none =>
    subst hfirst hrest
    rw [Inserted, List.append_assoc]
    rfl
  | some b =>
    obtain ⟨pre, post, rfl, hfirst⟩ := hfirst
    obtain ⟨pre', post', hrest, rfl⟩ := hrest
    -- The element behind the run is there once, so both split the list alike.
    rw [hrest, List.nodup_middle, List.nodup_cons, List.mem_append, not_or] at hmid
    obtain ⟨rfl, -, rfl⟩ :=
      (List.append_cons_inj_of_notMem hmid.1.1 hmid.1.2).1 (hrest.symm.trans hfirst)
    refine ⟨pre, post', rfl, ?_⟩
    simp only [List.append_assoc, List.cons_append, List.nil_append]

end Sequence.Inserted

namespace Context

variable {ctx ctx' ctx'' : Context} {b target : ValueId} {i : InstId} {run : List InstId}
variable {point : Point}

/-- A point lies in a block: at its end, or before one of its instructions. -/
def LiesIn (ctx : Context) (b : ValueId) : Point → Prop
  | .atEnd c => c = b
  | .before j => ctx.blockOf? j = some b

theorem liesIn_of_pointBlock (h : ctx.pointBlock point = .ok b) : ctx.LiesIn b point := by
  cases point with
  | atEnd c => exact eq_of_pointBlock_atEnd h
  | before j => exact blockOf?_of_pointBlock h

/-- A point stays where it is if the instruction behind it does. -/
theorem SameMembers.point_stays (same : SameMembers ctx' ctx)
    (hfollower : ∀ j, point.follower? = some j → ctx'.inst? j = ctx.inst? j)
    (hpoint : ctx.pointBlock point = .ok b ∧ ∀ u ∈ point.uses, ctx.fits u.1 u.2) :
    ctx'.pointBlock point = .ok b ∧ ∀ u ∈ point.uses, ctx'.fits u.1 u.2 := by
  refine ⟨pointBlock_congr same.ownsValue hfollower hpoint.1, fun u hu => ?_⟩
  rw [fits, same.kind]
  exact hpoint.2 u hu

/-- **A run of instructions was moved to a point**: no block has it any more
but that of the point, which has it there and nowhere else. The instructions
of the run are in that block now and otherwise as they were, and so are all
others. -/
structure Moved (ctx' ctx : Context) (run : List InstId) (target : ValueId) (point : Point) :
    Prop where
  same : SameMembers ctx' ctx
  put : Sequence.Inserted point.follower? run ((ctx.body target).filter fun i => i ∉ run)
    (ctx'.body target)
  others : ∀ b, b ≠ target → ctx'.body b = (ctx.body b).filter fun i => i ∉ run
  insts : ∀ i, ctx'.inst? i =
    (ctx.inst? i).map fun x => if i ∈ run then { x with block := some target } else x

/-- Moving nothing changes nothing. -/
theorem moved_nil {k : Nat} (hk : Sequence.position? point.follower? (ctx.body target) = some k) :
    Moved ctx ctx [] target point := by
  have hall : ∀ l : List InstId, l.filter (fun i => i ∉ ([] : List InstId)) = l :=
    fun l => List.filter_eq_self.2 fun _ _ => rfl
  refine ⟨.refl ctx, ?_, fun b _ => (hall _).symm, fun i => ?_⟩
  · have hput : Sequence.Inserted point.follower? [] (ctx.body target) _ :=
      Sequence.inserted_splice hk
    rw [Sequence.splice, List.append_nil, List.take_append_drop] at hput
    rwa [hall]
  · cases ctx.inst? i <;> rfl

/-- **Moving on**: after its first instruction, the rest of a run. -/
theorem Moved.cons (hfirst : Moved ctx' ctx [i] target point)
    (hrest : Moved ctx'' ctx' run target point) (hi : i ∉ run)
    (hfollower : ∀ j, point.follower? = some j → j ∉ run) (hnodup : (ctx'.body target).Nodup) :
    Moved ctx'' ctx (i :: run) target point := by
  have hfilter : ∀ l : List InstId,
      (l.filter fun j => j ∉ [i]).filter (fun j => j ∉ run) = l.filter fun j => j ∉ i :: run := by
    intro l
    rw [List.filter_filter]
    refine List.filter_congr fun j _ => ?_
    simp [Bool.and_comm]
  refine ⟨hrest.same.trans hfirst.same, ?_, fun b hb => ?_, fun j => ?_⟩
  · have hkept : [i].filter (fun j => j ∉ run) = [i] := by simp [hi]
    have hput := hfirst.put.filter (p := fun j => j ∉ run) (by simpa using hfollower)
    rw [hkept, hfilter] at hput
    exact hput.cons hrest.put (hnodup.filter _)
  · rw [hrest.others b hb, hfirst.others b hb, hfilter]
  · rw [hrest.insts, hfirst.insts, Option.map_map]
    refine congrFun (congrArg Option.map (funext fun x => ?_)) _
    by_cases hj : j = i
    · simp [hj, hi]
    · simp [hj]

end Context

open Context

namespace Threaded

variable {ctx : Context} {b target : ValueId} {i : InstId} {x : Instruction} {point : Point}

/-- An insertion point in a block of the context is a position of its body. -/
theorem exists_position (h : Threaded ctx)
    (hb : ctx.pointBlock point = .ok b) (hfits : ∀ u ∈ point.uses, ctx.fits u.1 u.2) :
    ctx.kind? b = some .block ∧ ∃ k, Sequence.position? point.follower? (ctx.body b) = some k := by
  cases point with
  | before j =>
    have hblock := blockOf?_of_pointBlock hb
    have hmem : j ∈ ctx.body b := h.mem_iff.2 hblock
    exact ⟨kind?_of_mem_body hmem, Option.isSome_iff_exists.1 (List.isSome_idxOf?.2 hmem)⟩
  | atEnd c =>
    obtain rfl := eq_of_pointBlock_atEnd hb
    obtain ⟨x, hx, -⟩ := bind_eq_ok.1 hb
    have hkind := kind?_of_value? (own_eq_ok.1 hx)
    have hblock := hfits (.block, c) List.mem_cons_self
    rw [fits, hkind, Option.all_some] at hblock
    exact ⟨hkind.trans (congrArg some (eq_of_beq hblock)), _, rfl⟩

/-- **A step**: an instruction that is taken out and placed again was moved. -/
theorem moved_single (h : Threaded ctx) {k : Nat} (hx : ctx.inst? i = some x)
    (hb : x.block = some b) (hkind : ctx.kind? target = some .block)
    (hk : Sequence.position? point.follower? ((ctx.unplaced i b).body target) = some k) :
    Moved ((ctx.unplaced i b).placed i target k) ctx [i] target point := by
  have hkind' : (ctx.unplaced i b).kind? target = some .block := by
    rw [SameMembers.unplaced.kind]
    exact hkind
  have htaken : ∀ c, (ctx.body c).filter (fun j => j ∉ [i]) = (ctx.unplaced i b).body c := by
    intro c
    rw [h.body_unplaced_eq_filter hx hb]
    exact List.filter_congr fun j _ => by simp
  refine ⟨SameMembers.placed.trans .unplaced, ?_, fun c hc => ?_, fun j => ?_⟩
  · rw [body_placed hkind', Function.update_self, htaken]
    exact Sequence.inserted_splice hk
  · rw [body_placed hkind', Function.update_of_ne hc, htaken]
  · rw [inst?_moved hx]
    by_cases hj : j = i
    · rw [if_pos hj, hj, hx]
      simp
    · rw [if_neg hj]
      simp [hj]

/-- What is in a slice of one block is in no other. -/
theorem filter_slice_of_ne (h : Threaded ctx) {source : ValueId} {start stop : Nat}
    (hne : b ≠ source) :
    (ctx.body b).filter (fun i => i ∉ Sequence.slice start stop (ctx.body source)) =
      ctx.body b := by
  refine List.filter_eq_self.2 fun i hi => decide_eq_true fun hslice => hne ?_
  have hsource := h.mem_iff.1 (Sequence.mem_of_mem_slice hslice)
  exact Option.some.inj ((h.mem_iff.1 hi).symm.trans hsource)

end Threaded

namespace Edit

variable {ctx : Context} {i : InstId} {source target : ValueId} {point : Point}
variable {E : Fault → Context → Prop}

/-- An instruction is placed without fail where there is a position. -/
theorem ensures_place_iff {Q : Unit → Context → Prop} {b : ValueId} {k : Nat}
    (hb : ctx.pointBlock point = .ok b) (hkind : ctx.kind? b = some .block)
    (hk : Sequence.position? point.follower? (ctx.body b) = some k) :
    (place i point).Ensures Q E ctx ↔ Q () (ctx.placed i b k) := by
  unfold place
  simp only [ensures_bind, ensures_context, ensures_liftM, hb, readBody_eq_ok.2 ⟨hkind, rfl⟩,
    Except.ok.injEq, forall_eq', reduceCtorEq, false_implies, implies_true, and_true, hk]
  rw [placed, Sequence.getElem?_of_position? hk]
  exact Iff.rfl

/-- An instruction that is in a block is taken out without fail. -/
theorem ensures_unplace_iff {Q : Unit → Context → Prop} {x : Instruction} {b : ValueId}
    (hx : ctx.inst? i = some x) (hb : x.block = some b) :
    (unplace i).Ensures Q E ctx ↔ Q () (ctx.unplaced i b) := by
  unfold unplace
  simp only [ensures_bind, ensures_context, ensures_liftM, ownInst_eq_ok.2 hx, Except.ok.injEq,
    forall_eq', reduceCtorEq, false_implies, implies_true, and_true, hb]
  exact Iff.rfl

/-- **A run of instructions is moved**, to its end. Each of them is in a block
when its turn comes, and the point stays where it is, since the instruction
behind it is none of them. -/
theorem ensures_moveInsts (is : List InstId) :
    ∀ {ctx : Context}, Threaded ctx →
      (ctx.pointBlock point = .ok target ∧ ∀ u ∈ point.uses, ctx.fits u.1 u.2) →
      (∀ j, point.follower? = some j → j ∉ is) → is.Nodup →
      (∀ i ∈ is, ∃ b, ctx.blockOf? i = some b) →
      (moveInsts point is).Ensures (fun _ c => c.Moved ctx is target point)
        (fun _ _ => False) ctx := by
  induction is with
  | nil =>
    intro ctx h hpoint _ _ _
    obtain ⟨-, k, hk⟩ := h.exists_position hpoint.1 hpoint.2
    exact moved_nil hk
  | cons i is ih =>
    intro ctx h hpoint hfollower hnodup hplaced
    obtain ⟨hi, hrest⟩ := List.nodup_cons.1 hnodup
    obtain ⟨b, hblock⟩ := hplaced i List.mem_cons_self
    obtain ⟨x, hx, hb⟩ := blockOf?_eq_some.1 hblock
    have hfixed : ∀ j, point.follower? = some j → j ≠ i := by
      rintro j hj rfl
      exact hfollower j hj List.mem_cons_self
    have hfollower' : ∀ j, point.follower? = some j → j ∉ is :=
      fun j hj hmem => hfollower j hj (List.mem_cons_of_mem i hmem)
    -- The instruction is taken out ...
    have hout : SameMembers (ctx.unplaced i b) ctx := .unplaced
    have htaken := hout.point_stays
      (fun j hj => by rw [inst?_unplaced hx, if_neg (hfixed j hj)]) hpoint
    obtain ⟨hkind, k, hk⟩ := (h.unplaced hx hb).exists_position htaken.1 htaken.2
    unfold moveInsts
    rw [ensures_bind, ensures_unplace_iff hx hb, ensures_bind,
      ensures_place_iff htaken.1 hkind hk]
    -- ... and put at the point, where the others will follow it.
    have hthreaded : Threaded ((ctx.unplaced i b).placed i target k) :=
      (h.unplaced hx hb).placed (inst?_unplaced_self hx) rfl hkind
    have hback : SameMembers ((ctx.unplaced i b).placed i target k) ctx :=
      SameMembers.placed.trans hout
    have hput := hback.point_stays
      (fun j hj => by rw [inst?_moved hx, if_neg (hfixed j hj)]) hpoint
    rw [hout.kind] at hkind
    have hmoved : Moved ((ctx.unplaced i b).placed i target k) ctx [i] target point :=
      h.moved_single hx hb hkind hk
    refine (ih hthreaded hput hfollower' hrest fun j hj => ?_).imp
      (fun _ _ hmore => hmoved.cons hmore hi hfollower' (hthreaded.nodup target)) fun _ _ => id
    have hne : j ≠ i := fun hji => hi (hji ▸ hj)
    rw [blockOf?, inst?_moved hx, if_neg hne]
    exact hplaced j (List.mem_cons_of_mem i hj)

/-- **A transfer** fails and changes nothing, or passes its checks and moves the
slice. -/
theorem ensures_transferInsts (h : Threaded ctx) (source : ValueId) (start stop : Nat)
    (hfits : ∀ u ∈ point.uses, ctx.fits u.1 u.2) :
    (transferInsts source start stop point).Ensures
      (fun _ c => ∃ target, ctx.pointBlock point = .ok target ∧ start ≤ stop ∧
        (Sequence.slice start stop (ctx.body source)).length = stop - start ∧
        ctx.checkMove (Sequence.slice start stop (ctx.body source)) source target = .ok () ∧
        c.Moved ctx (Sequence.slice start stop (ctx.body source)) target point)
      (fun _ c => c = ctx) ctx := by
  have hsame : ∀ fault : Fault, (fun _ c => c = ctx) fault ctx := fun _ => rfl
  unfold transferInsts
  refine .look (.check hsame fun _ _ => .check hsame fun b hb => .check hsame fun is his => ?_)
  obtain ⟨-, rfl⟩ := readBody_eq_ok.1 his
  dsimp only
  split
  · rfl
  rename_i hrange
  obtain ⟨horder, hlength⟩ := not_or.1 hrange
  split
  · rfl
  rename_i hfollower
  refine .check hsame fun _ hmove => ?_
  refine (ensures_moveInsts _ h ⟨hb, hfits⟩ (fun j hj hmem => ?_) ?_ fun i hi => ?_).imp
    (fun _ _ hmoved =>
      ⟨b, hb, Nat.le_of_not_lt horder, Decidable.not_not.1 hlength, hmove, hmoved⟩)
    fun _ _ => False.elim
  · rw [hj] at hfollower
    exact hfollower (by simpa using hmem)
  · exact (h.nodup source).sublist (Sequence.slice_sublist start stop _)
  · exact ⟨source, h.mem_iff.1 (Sequence.mem_of_mem_slice hi)⟩

end Edit

/-- **A transfer of instructions moves a slice of one block to any place.** If
it succeeds, its range is one of the source's body. The slice there is taken
out of the source and put at the point, in its order, in another block or in
what is left of the source. All other blocks are as they were, and so are all
instructions up to the block that those of the slice are in; if the target is
in another function than the source, they refer only to what belongs there. If
the transfer fails, every block and every instruction is as it was. -/
theorem transferInsts_moves_slice {ctx : Context} (reachable : Reachable ctx) {source : ValueId}
    {start stop : Nat} {point : Point}
    (fit : (Operation.transferInsts source start stop point).typed ctx) :
    ∃ after moved,
      ((Edit.transferInsts source start stop point).run ctx).context = after ∧
      Sequence.slice start stop (ctx.body source) = moved ∧
      (((Edit.transferInsts source start stop point).run ctx).outcome = .ok () →
        start ≤ stop ∧ moved.length = stop - start ∧
        ∃ target, ctx.LiesIn target point ∧
          (target ≠ source → after.body source = Sequence.cut start stop (ctx.body source) ∧
            Sequence.Inserted point.follower? moved (ctx.body target) (after.body target)) ∧
          (target = source → Sequence.Inserted point.follower? moved
            (Sequence.cut start stop (ctx.body source)) (after.body source)) ∧
          (∀ b, b ≠ source → b ≠ target → after.body b = ctx.body b) ∧
          (∀ i, after.inst? i = (ctx.inst? i).map fun x =>
            if i ∈ moved then { x with block := some target } else x) ∧
          (∀ i ∈ moved, ∃ x, after.inst? i = some x ∧ x.block = some target) ∧
          (∀ f, after.parentOfKind? .function target = some f →
            after.parentOfKind? .function source ≠ some f →
            ∀ i ∈ moved, ∀ x, after.inst? i = some x → ∀ v ∈ x.references, after.Belongs f v)) ∧
      (∀ fault, ((Edit.transferInsts source start stop point).run ctx).outcome = .error fault →
        after.body = ctx.body ∧ after.inst? = ctx.inst?) := by
  have h := reachable.threaded
  have hfits : ∀ u ∈ point.uses, ctx.fits u.1 u.2 := fun u hu =>
    List.all_eq_true.1 fit u (List.mem_cons_of_mem _ hu)
  have hspec := Edit.ensures_transferInsts h source start stop hfits
  refine ⟨_, _, rfl, rfl, fun hok => ?_, fun fault herror => ?_⟩
  · obtain ⟨target, hpoint, horder, hlength, hcheck, hmoved⟩ := hspec.of_ok hok
    generalize ((Edit.transferInsts source start stop point).run ctx).context = after at hmoved
    have hcut := Sequence.filter_not_mem_slice horder (h.nodup source)
    refine ⟨horder, hlength, target, liesIn_of_pointBlock hpoint, fun hne => ⟨?_, ?_⟩,
      fun heq => ?_, fun b hsource htarget => ?_, hmoved.insts, fun i hi => ?_,
      fun f hf hother i hi x hx => ?_⟩
    · rw [hmoved.others source hne.symm, hcut]
    · rw [← h.filter_slice_of_ne hne]
      exact hmoved.put
    · subst heq
      rw [← hcut]
      exact hmoved.put
    · rw [hmoved.others b htarget, h.filter_slice_of_ne hsource]
    · obtain ⟨x, hx, -⟩ := h.live (Sequence.mem_of_mem_slice hi)
      refine ⟨{ x with block := some target }, ?_, rfl⟩
      rw [hmoved.insts, hx, Option.map_some, if_pos hi]
    · obtain ⟨y, hy, -⟩ := h.live (Sequence.mem_of_mem_slice hi)
      obtain rfl : { y with block := some target } = x := by
        rw [hmoved.insts, hy, Option.map_some, if_pos hi] at hx
        exact Option.some.inj hx
      rw [hmoved.same.parentOfKind?] at hf hother
      intro v hv
      rcases of_checkMove hcheck with hsame | hadmits
      · exact absurd (hsame.trans hf) hother
      · exact hmoved.same.belongs_iff.2 (hadmits i hi y hy f hf v hv)
  · rw [hspec.of_error herror]
    exact ⟨rfl, rfl⟩

/-- Two functions with a block each, the first of four instructions and the
second of one. -/
def twoBodies : Context :=
  Operation.runAll
    [.createFunction true "f" none, .createBlock "a" (some ⟨0, 0⟩) none,
      .createFunction true "g" none, .createBlock "b" (some ⟨0, 2⟩) none,
      .createForm .retVoid (.atEnd ⟨0, 1⟩), .createForm .retVoid (.atEnd ⟨0, 1⟩),
      .createForm .retVoid (.atEnd ⟨0, 1⟩), .createForm .retVoid (.atEnd ⟨0, 1⟩),
      .createForm .retVoid (.atEnd ⟨0, 3⟩)] { id := 0 }

/-- The two in the middle of the first block go before the instruction of the
second, and the first two go within their block before its last one. -/
theorem transferInsts_moves_slice_twoBodies :
    Reachable twoBodies ∧
    (∃ after, ((Edit.transferInsts ⟨0, 1⟩ 1 3 (.before ⟨0, 4⟩)).run twoBodies).context = after ∧
      after.body ⟨0, 1⟩ = [⟨0, 0⟩, ⟨0, 3⟩] ∧
      Sequence.Inserted (some ⟨0, 4⟩) [⟨0, 1⟩, ⟨0, 2⟩] [⟨0, 4⟩] (after.body ⟨0, 3⟩)) ∧
    (∃ after, ((Edit.transferInsts ⟨0, 1⟩ 0 2 (.before ⟨0, 3⟩)).run twoBodies).context = after ∧
      Sequence.Inserted (some ⟨0, 3⟩) [⟨0, 0⟩, ⟨0, 1⟩] [⟨0, 2⟩, ⟨0, 3⟩] (after.body ⟨0, 1⟩) ∧
      after.body ⟨0, 3⟩ = [⟨0, 4⟩]) := by
  have hreachable : Reachable twoBodies := (Reachable.empty 0).runAll (by decide)
  refine ⟨hreachable, ?_, ?_⟩
  · have hfit : (Operation.transferInsts ⟨0, 1⟩ 1 3 (.before ⟨0, 4⟩)).typed twoBodies := by decide
    obtain ⟨after, moved, hafter, rfl, hok, -⟩ := transferInsts_moves_slice hreachable hfit
    obtain ⟨-, -, target, hin, hacross, -⟩ := hok (by rfl)
    obtain rfl : ⟨0, 3⟩ = target := Option.some.inj hin
    exact ⟨after, hafter, hacross (by decide)⟩
  · have hfit : (Operation.transferInsts ⟨0, 1⟩ 0 2 (.before ⟨0, 3⟩)).typed twoBodies := by decide
    obtain ⟨after, moved, hafter, rfl, hok, -⟩ := transferInsts_moves_slice hreachable hfit
    obtain ⟨-, -, target, hin, -, hwithin, hothers, -⟩ := hok (by rfl)
    obtain rfl : ⟨0, 1⟩ = target := Option.some.inj hin
    exact ⟨after, hafter, hwithin rfl, hothers ⟨0, 3⟩ (by decide) (by decide)⟩

end ContractIR
