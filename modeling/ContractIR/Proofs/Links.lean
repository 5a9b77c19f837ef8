import Mathlib.Logic.Function.Basic
import ContractIR.Context.Links
import ContractIR.Proofs.Skeleton
/-!
# What threading changes

Threading an instruction into a block or out of it writes links, and nothing
else: every instruction is as it was, every block lists what it listed, and
kinds, parents and members stay. The links that are written are those of the
instruction itself and those on either side of it.
-/

namespace ContractIR

namespace Context

variable {ctx ctx' : Context} {b c : ValueId} {i j : InstId}

/-! ## What a block holds -/

/-- A change to what a block holds shows there alone. -/
theorem block_update_mapBlock {f : BlockBody → BlockBody} (h : ctx.kind? b = some .block) :
    (ctx.update b fun x => x.mapBlock f).block = Function.update ctx.block b (f (ctx.block b)) := by
  obtain ⟨x, hx, hkind⟩ := Option.map_eq_some_iff.1 h
  obtain ⟨y, hy⟩ := Option.isSome_iff_exists.1 (x.block?_isSome_iff.2 hkind)
  funext c
  by_cases hc : c = b
  · subst hc
    rw [Function.update_self]
    simp only [block, value?_update, if_pos, hx, Option.map_some, Option.bind_some,
      Value.block?_mapBlock, hy, Option.getD_some]
  · rw [Function.update_of_ne hc]
    simp only [block, value?_update, if_neg hc]

/-- What is no block holds nothing that could change. -/
theorem block_update_mapBlock_of_ne {f : BlockBody → BlockBody} (h : ctx.kind? b ≠ some .block) :
    (ctx.update b fun x => x.mapBlock f).block = ctx.block := by
  funext c
  simp only [block, value?_update]
  split
  · rename_i hc
    subst hc
    cases hx : ctx.value? c with
    | none => rfl
    | some x =>
      have hnone : x.block? = none := by
        rw [← Option.not_isSome_iff_eq_none, x.block?_isSome_iff]
        rw [kind?, hx] at h
        exact fun hkind => h (congrArg some hkind)
      simp [Value.block?_mapBlock, hnone]
  · rfl

/-- Setting the body of a block shows there alone. -/
theorem body_update_setBody {is : List InstId} (h : ctx.kind? b = some .block) :
    (ctx.update b fun x => x.setBody is).body = Function.update ctx.body b is := by
  funext c
  simp only [Value.setBody, body, block_update_mapBlock h]
  by_cases hc : c = b
  · subst hc
    rw [Function.update_self, Function.update_self]
  · rw [Function.update_of_ne hc, Function.update_of_ne hc]
    rfl

/-- What is no block has no body to set. -/
theorem body_update_setBody_of_ne {is : List InstId} (h : ctx.kind? b ≠ some .block) :
    (ctx.update b fun x => x.setBody is).body = ctx.body :=
  body_of_block (block_update_mapBlock_of_ne h)

/-! ## Only links change -/

/-- **Only links differ**: the second context comes from the first by changes
to the ends and lengths of blocks and to the neighbours of instructions. -/
inductive Relinks (ctx : Context) : Context → Prop
  | refl : Relinks ctx ctx
  | ends {ctx' : Context} {b : ValueId} {f : BlockBody → BlockBody} :
      Relinks ctx ctx' → (∀ y, (f y).toList = y.toList) →
      Relinks ctx (ctx'.update b fun x => x.mapBlock f)
  | neighbours {ctx' : Context} {i : InstId} {f : Cell → Cell} :
      Relinks ctx ctx' → (∀ c, (f c).instruction = c.instruction) →
      Relinks ctx (ctx'.updateCell i fun c => some (f c))

namespace Relinks

theorem inst? (h : Relinks ctx ctx') : ctx'.inst? = ctx.inst? := by
  induction h with
  | refl => rfl
  | ends _ _ ih => exact (funext fun _ => inst?_update).trans ih
  | @neighbours ctx' i f _ hf ih =>
    rw [← ih]
    funext j
    simp only [Context.inst?, cell?_updateCell]
    split
    · cases ctx'.cell? j with
      | none => rfl
      | some c => exact congrArg some (hf c)
    · rfl

theorem body (h : Relinks ctx ctx') : ctx'.body = ctx.body := by
  induction h with
  | refl => rfl
  | @ends ctx' b f _ hf ih =>
    rw [← ih]
    funext c
    by_cases hkind : ctx'.kind? b = some .block
    · simp only [Context.body, block_update_mapBlock hkind]
      by_cases hc : c = b
      · rw [hc, Function.update_self]
        exact hf _
      · rw [Function.update_of_ne hc]
    · rw [body_of_block (block_update_mapBlock_of_ne hkind)]
  | neighbours _ _ ih => exact (body_congr skeleton?_updateCell).trans ih

theorem sameMembers (h : Relinks ctx ctx') : SameMembers ctx' ctx := by
  induction h with
  | refl => exact .refl ctx
  | ends _ _ ih => exact SameMembers.update_mapBlock.trans ih
  | neighbours _ _ ih => exact (SameMembers.of_skeleton skeleton?_updateCell).trans ih

/-- Values differ in what blocks hold. -/
theorem value? (h : Relinks ctx ctx') (v : ValueId) :
    ∃ f, ctx'.value? v = (ctx.value? v).map fun x => x.mapBlock f := by
  induction h with
  | refl => exact ⟨fun y => y, by simp⟩
  | @ends ctx' b g _ _ ih =>
    obtain ⟨f, hf⟩ := ih
    rw [value?_update, hf]
    split
    · exact ⟨g ∘ f, by simp [Function.comp_def]⟩
    · exact ⟨f, rfl⟩
  | neighbours _ _ ih => rwa [value?_updateCell]

theorem joinNext {prev next : Option InstId} (h : Relinks ctx ctx') :
    Relinks ctx (ctx'.joinNext b prev next) := by
  unfold Context.joinNext
  split
  · exact .neighbours h fun _ => rfl
  · exact .ends h fun _ => rfl

theorem joinPrev {prev next : Option InstId} (h : Relinks ctx ctx') :
    Relinks ctx (ctx'.joinPrev b prev next) := by
  unfold Context.joinPrev
  split
  · exact .neighbours h fun _ => rfl
  · exact .ends h fun _ => rfl

end Relinks

/-- The instruction's own links are written first. -/
theorem relinks_own {prev next : Option InstId} :
    Relinks ctx (ctx.updateCell i fun c => some { c with prev, next }) :=
  .neighbours .refl fun _ => rfl

theorem relinks_link (before : Option InstId) : Relinks ctx (ctx.link i b before) := by
  unfold link
  exact .ends relinks_own.joinNext.joinPrev fun _ => rfl

theorem relinks_unlink : Relinks ctx (ctx.unlink i b) := by
  unfold unlink
  refine .neighbours (.ends (Relinks.joinPrev (Relinks.joinNext .refl)) fun _ => ?_) fun _ => ?_
  · rfl
  · rfl

/-! ## Which links change

A link of an instruction is one side of what is kept at its place, so what
holds of both sides is said once. -/

section Sides

variable {side : Cell → Option InstId}

theorem side_updateCell {f : Cell → Option Cell} :
    ((ctx.updateCell i f).cell? j).bind side =
      if j = i then (ctx.cell? j).bind fun c => (f c).bind side
      else (ctx.cell? j).bind side := by
  rw [cell?_updateCell]
  split
  · exact Option.bind_assoc _ _ _
  · rfl

theorem side_updateCell_of_keeps {f : Cell → Cell} (h : ∀ c, side (f c) = side c) :
    ((ctx.updateCell i fun c => some (f c)).cell? j).bind side = (ctx.cell? j).bind side := by
  rw [side_updateCell]
  split
  · exact congrArg (Option.bind _) (funext h)
  · rfl

/-- Emptying the place of an instruction that has no link clears none. -/
theorem side_updateCell_of_free (h : (ctx.cell? i).bind side = none) :
    ((ctx.updateCell i fun _ => none).cell? j).bind side = (ctx.cell? j).bind side := by
  rw [side_updateCell]
  split
  · rename_i hj
    rw [hj, h]
    exact Option.bind_fun_none _
  · rfl

/-- An instruction that is created has no links. -/
theorem side_pushInst {x : Option Instruction} (h : ∀ x, side { instruction := x } = none) :
    ((ctx.pushInst x).cell? j).bind side = (ctx.cell? j).bind side := by
  rw [cell?_pushInst]
  split
  · rename_i hj
    rw [hj, cell?_nextInst]
    cases x with
    | none => rfl
    | some x => exact h x
  · rfl

end Sides

theorem nextInst?_update {f : Value → Value} : (ctx.update b f).nextInst? = ctx.nextInst? := by
  funext j
  rw [nextInst?, nextInst?, cell?_update]

theorem prevInst?_update {f : Value → Value} : (ctx.update b f).prevInst? = ctx.prevInst? := by
  funext j
  rw [prevInst?, prevInst?, cell?_update]

theorem nextInst?_updateCell {f : Cell → Cell} :
    (ctx.updateCell i fun c => some (f c)).nextInst? j =
      if j = i then (ctx.cell? j).bind fun c => (f c).next else ctx.nextInst? j :=
  side_updateCell

theorem prevInst?_updateCell {f : Cell → Cell} :
    (ctx.updateCell i fun c => some (f c)).prevInst? j =
      if j = i then (ctx.cell? j).bind fun c => (f c).prev else ctx.prevInst? j :=
  side_updateCell

theorem nextInst?_updateInst {f : Instruction → Instruction} :
    (ctx.updateInst i f).nextInst? = ctx.nextInst? :=
  funext fun _ => side_updateCell_of_keeps fun _ => rfl

theorem prevInst?_updateInst {f : Instruction → Instruction} :
    (ctx.updateInst i f).prevInst? = ctx.prevInst? :=
  funext fun _ => side_updateCell_of_keeps fun _ => rfl

theorem ownsInst_updateInst {f : Instruction → Instruction} :
    (ctx.updateInst i f).ownsInst = ctx.ownsInst := by
  funext j
  rw [ownsInst, inst?_updateInst, ownsInst]
  split
  · exact Option.isSome_map
  · rfl

theorem exists_cell (h : ctx.ownsInst i) : ∃ c, ctx.cell? i = some c := by
  rw [ownsInst, inst?, Option.isSome_map] at h
  exact Option.isSome_iff_exists.1 h

theorem ownsInst_congr (h : ctx'.inst? = ctx.inst?) : ctx'.ownsInst = ctx.ownsInst := by
  funext i
  rw [ownsInst, ownsInst, h]

section Join

variable {prev next : Option InstId}

theorem nextInst?_joinNext (live : ∀ p, prev = some p → ctx.ownsInst p) :
    (ctx.joinNext b prev next).nextInst? j = if prev = some j then next else ctx.nextInst? j := by
  cases prev with
  | none => exact congrFun nextInst?_update j
  | some p =>
    obtain ⟨c, hc⟩ := exists_cell (live p rfl)
    rw [joinNext, nextInst?_updateCell]
    by_cases hj : j = p
    · rw [hj, if_pos rfl, if_pos rfl, hc]
      rfl
    · rw [if_neg hj, if_neg fun h => hj (Option.some.inj h).symm]

theorem prevInst?_joinNext : (ctx.joinNext b prev next).prevInst? = ctx.prevInst? := by
  cases prev with
  | none => exact prevInst?_update
  | some p => exact funext fun _ => side_updateCell_of_keeps fun _ => rfl

theorem block_joinNext (h : ctx.kind? b = some .block) :
    (ctx.joinNext b prev next).block = Function.update ctx.block b
      { ctx.block b with head? := if prev = none then next else (ctx.block b).head? } := by
  cases prev with
  | none => exact block_update_mapBlock h
  | some p =>
    rw [joinNext, block_congr skeleton?_updateCell]
    exact (Function.update_eq_self b ctx.block).symm

theorem prevInst?_joinPrev (live : ∀ n, next = some n → ctx.ownsInst n) :
    (ctx.joinPrev b prev next).prevInst? j = if next = some j then prev else ctx.prevInst? j := by
  cases next with
  | none => exact congrFun prevInst?_update j
  | some n =>
    obtain ⟨c, hc⟩ := exists_cell (live n rfl)
    rw [joinPrev, prevInst?_updateCell]
    by_cases hj : j = n
    · rw [hj, if_pos rfl, if_pos rfl, hc]
      rfl
    · rw [if_neg hj, if_neg fun h => hj (Option.some.inj h).symm]

theorem nextInst?_joinPrev : (ctx.joinPrev b prev next).nextInst? = ctx.nextInst? := by
  cases next with
  | none => exact nextInst?_update
  | some n => exact funext fun _ => side_updateCell_of_keeps fun _ => rfl

theorem block_joinPrev (h : ctx.kind? b = some .block) :
    (ctx.joinPrev b prev next).block = Function.update ctx.block b
      { ctx.block b with getLast? := if next = none then prev else (ctx.block b).getLast? } := by
  cases next with
  | none => exact block_update_mapBlock h
  | some n =>
    rw [joinPrev, block_congr skeleton?_updateCell]
    exact (Function.update_eq_self b ctx.block).symm

end Join

section Link

variable {before : Option InstId}

/-- **An instruction that is threaded in** follows what preceded the place,
and what the place is before follows it. -/
theorem nextInst?_link (hi : ctx.ownsInst i)
    (live : ∀ p, ctx.preceding? b before = some p → ctx.ownsInst p) :
    (ctx.link i b before).nextInst? j =
      if ctx.preceding? b before = some j then some i
      else if j = i then before else ctx.nextInst? j := by
  obtain ⟨c, hc⟩ := exists_cell hi
  rw [← ownsInst_congr relinks_own.inst?] at live
  rw [link, nextInst?_update, nextInst?_joinPrev, nextInst?_joinNext live, nextInst?_updateCell]
  split
  · rfl
  · split
    · rename_i hj
      rw [hj, hc]
      rfl
    · rfl

/-- It precedes what the place is before, and what preceded the place precedes
it. -/
theorem prevInst?_link (hi : ctx.ownsInst i) (live : ∀ n, before = some n → ctx.ownsInst n) :
    (ctx.link i b before).prevInst? j =
      if before = some j then some i
      else if j = i then ctx.preceding? b before else ctx.prevInst? j := by
  obtain ⟨c, hc⟩ := exists_cell hi
  rw [← ownsInst_congr relinks_own.joinNext.inst?] at live
  rw [link, prevInst?_update, prevInst?_joinPrev live, prevInst?_joinNext, prevInst?_updateCell]
  split
  · rfl
  · split
    · rename_i hj
      rw [hj, hc]
      rfl
    · rfl

/-- The block has one instruction more, which is its first or its last where
nothing precedes or follows the place. -/
theorem block_link (h : ctx.kind? b = some .block) :
    (ctx.link i b before).block = Function.update ctx.block b
      { ctx.block b with
        head? := if ctx.preceding? b before = none then some i else (ctx.block b).head?
        getLast? := if before = none then some i else (ctx.block b).getLast?
        length := (ctx.block b).length + 1 } := by
  rw [link, block_update_mapBlock, block_joinPrev, block_joinNext,
    block_congr skeleton?_updateCell]
  · simp only [Function.update_self, Function.update_idem]
  · rw [relinks_own.sameMembers.kind, h]
  · rw [relinks_own.joinNext.sameMembers.kind, h]
  · rw [relinks_own.joinNext.joinPrev.sameMembers.kind, h]

end Link

/-- **An instruction that is threaded out** has no neighbours, and what
followed it follows what preceded it. -/
theorem nextInst?_unlink (live : ∀ p, ctx.prevInst? i = some p → ctx.ownsInst p) :
    (ctx.unlink i b).nextInst? j =
      if j = i then none
      else if ctx.prevInst? i = some j then ctx.nextInst? i else ctx.nextInst? j := by
  rw [unlink, nextInst?_updateCell, nextInst?_update, nextInst?_joinPrev, nextInst?_joinNext live]
  split
  · exact Option.bind_fun_none _
  · rfl

theorem prevInst?_unlink (live : ∀ n, ctx.nextInst? i = some n → ctx.ownsInst n) :
    (ctx.unlink i b).prevInst? j =
      if j = i then none
      else if ctx.nextInst? i = some j then ctx.prevInst? i else ctx.prevInst? j := by
  rw [← ownsInst_congr (Relinks.joinNext .refl).inst?] at live
  rw [unlink, prevInst?_updateCell, prevInst?_update, prevInst?_joinPrev live, prevInst?_joinNext]
  split
  · exact Option.bind_fun_none _
  · rfl

/-- The block has one instruction less; where it was the first or the last,
its neighbour is now. -/
theorem block_unlink (h : ctx.kind? b = some .block) :
    (ctx.unlink i b).block = Function.update ctx.block b
      { ctx.block b with
        head? := if ctx.prevInst? i = none then ctx.nextInst? i else (ctx.block b).head?
        getLast? := if ctx.nextInst? i = none then ctx.prevInst? i else (ctx.block b).getLast?
        length := (ctx.block b).length - 1 } := by
  rw [unlink, block_congr skeleton?_updateCell, block_update_mapBlock, block_joinPrev,
    block_joinNext h]
  · simp only [Function.update_self, Function.update_idem]
  · rw [(Relinks.joinNext .refl).sameMembers.kind, h]
  · rw [(Relinks.joinPrev (Relinks.joinNext .refl)).sameMembers.kind, h]

end Context

end ContractIR
