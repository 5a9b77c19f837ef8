import ContractIR.Optimize.Pass
import ContractIR.Proofs.Trimming.Steps
/-!
# What an edit sees and does within a region

A region is some blocks and some instructions of a context. Two contexts are
alike from within a region if they have the same blocks and instructions there
and differ elsewhere in what blocks hold and in instructions only. An edit
stays within a region if it cannot tell such contexts apart: it has the same
outcome in both and leaves contexts that are alike again. This is so of every
edit the optimizer makes in blocks of the region, since the rest of a context is
asked only for kinds, parents, members and names.
-/

namespace ContractIR

open Context

/-- Some blocks and some instructions. -/
structure Region where
  /-- The blocks. -/
  blocks : ValueId → Prop
  /-- The instructions. -/
  insts : InstId → Prop

/-- **Contexts that are alike from within a region.** The region is closed in
the first of them: it has the instructions of its blocks, and the blocks that its
instructions are in. -/
structure Region.Alike (r : Region) (ctx ctx' : Context) : Prop where
  value : ∀ v, ∃ y, ctx'.value? v = (ctx.value? v).map fun x => x.mapBlock fun _ => y
  block : ∀ {b}, r.blocks b → ctx'.value? b = ctx.value? b
  cell : ∀ {i}, r.insts i → ctx'.cell? i = ctx.cell? i
  inside : ∀ {b i}, r.blocks b → i ∈ ctx.body b → r.insts i
  home : ∀ {i x b}, r.insts i → ctx.inst? i = some x → x.block = some b → r.blocks b

namespace Region.Alike

variable {r : Region} {ctx ctx' : Context} {b v : ValueId} {i : InstId}

/-! ## What is seen -/

theorem sameMembers (h : r.Alike ctx ctx') : SameMembers ctx' ctx :=
  .of_mapBlock fun v => (h.value v).elim fun _ hv => ⟨_, hv⟩

theorem nameOf (h : r.Alike ctx ctx') : ctx'.nameOf = ctx.nameOf :=
  funext fun v => (h.value v).elim fun _ hv => nameOf_of_mapBlock hv

theorem isLocal (h : r.Alike ctx ctx') : ctx'.isLocal = ctx.isLocal := by
  funext v
  rw [Context.isLocal, Context.isLocal, h.sameMembers.kind]

theorem localCopy? (h : r.Alike ctx ctx') : ctx'.localCopy? = ctx.localCopy? := by
  unfold Context.localCopy?
  rw [h.isLocal]

theorem block_eq (h : r.Alike ctx ctx') (hb : r.blocks b) : ctx'.block b = ctx.block b := by
  rw [Context.block, Context.block, h.block hb]

theorem body (h : r.Alike ctx ctx') (hb : r.blocks b) : ctx'.body b = ctx.body b := by
  rw [Context.body, Context.body, h.block_eq hb]

theorem instCount (h : r.Alike ctx ctx') (hb : r.blocks b) :
    ctx'.instCount b = ctx.instCount b := by
  rw [Context.instCount, Context.instCount, h.block_eq hb]

theorem inst (h : r.Alike ctx ctx') (hi : r.insts i) : ctx'.inst? i = ctx.inst? i := by
  rw [inst?, inst?, h.cell hi]

theorem readBody (h : r.Alike ctx ctx') (hb : r.blocks b) : ctx'.readBody b = ctx.readBody b := by
  rw [Context.readBody, Context.readBody, Context.read, Context.read, h.block hb]

theorem insts_of_readBody {is : List InstId} (h : r.Alike ctx ctx') (hb : r.blocks b)
    (his : ctx.readBody b = .ok is) : ∀ i ∈ is, r.insts i := by
  rw [← (readBody_eq_ok.1 his).2]
  exact fun i hi => h.inside hb hi

theorem readInst (h : r.Alike ctx ctx') (hi : r.insts i) : ctx'.readInst i = ctx.readInst i := by
  rw [Context.readInst, Context.readInst, h.inst hi]

theorem ownInst (h : r.Alike ctx ctx') (hi : r.insts i) : ctx'.ownInst i = ctx.ownInst i := by
  rw [Context.ownInst, Context.ownInst, h.inst hi]

/-- What depends on a value, but not on what it holds as a block, is the same. -/
theorem read_congr {α : Type} {F : Except Fault Value → α} (h : r.Alike ctx ctx')
    (hF : ∀ x g, F (.ok (x.mapBlock g)) = F (.ok x)) (v : ValueId) :
    F (ctx'.read v) = F (ctx.read v) := by
  obtain ⟨y, hv⟩ := h.value v
  rw [Context.read, Context.read, hv]
  cases ctx.value? v with
  | none => rfl
  | some x => exact hF x _

/-- So is what depends on whether the value is there. -/
theorem own_bind {α : Type} {k : Edit α} (h : r.Alike ctx ctx') (v : ValueId) :
    ((liftM (ctx'.own v) : Edit Value) >>= fun _ => k) =
      (liftM (ctx.own v) : Edit Value) >>= fun _ => k := by
  obtain ⟨y, hv⟩ := h.value v
  rw [Context.own, Context.own, hv]
  cases ctx.value? v <;> rfl

theorem valueText (h : r.Alike ctx ctx') : ctx'.valueText = ctx.valueText := by
  funext v
  refine h.read_congr (F := fun x => do return Assembly.valueText (← x)) (fun x g => ?_) v
  obtain ⟨payload, name, parent⟩ := x
  cases payload <;> rfl

theorem instText (h : r.Alike ctx ctx') (hi : r.insts i) : ctx'.instText i = ctx.instText i := by
  rw [Context.instText, Context.instText, h.readInst hi, h.valueText]

theorem checkMember (h : r.Alike ctx ctx') : ctx'.checkMember = ctx.checkMember := by
  funext opcode function v
  unfold Context.checkMember
  rw [h.nameOf]
  refine h.read_congr (F := fun x => do
    let x ← x
    if x.kind.isFunctionLocal ∧ x.parent ≠ some function then
      refuse (.outsider x.kind x.label opcode (ctx.nameOf function))) (fun x g => ?_) v
  simp only [ok_bind, Value.kind_mapBlock, Value.parent_mapBlock, Value.label_mapBlock]

theorem checkOperand (h : r.Alike ctx ctx') : ctx'.checkOperand = ctx.checkOperand := by
  funext x k v
  unfold Context.checkOperand Context.parentOfKind?
  rw [h.sameMembers.kind, h.sameMembers.parent, h.checkMember]

theorem nextInst? (h : r.Alike ctx ctx') (hi : r.insts i) : ctx'.nextInst? i = ctx.nextInst? i := by
  rw [Context.nextInst?, Context.nextInst?, h.cell hi]

theorem prevInst? (h : r.Alike ctx ctx') (hi : r.insts i) : ctx'.prevInst? i = ctx.prevInst? i := by
  rw [Context.prevInst?, Context.prevInst?, h.cell hi]

theorem copyBound (h : r.Alike ctx ctx') (hb : r.blocks b) :
    ctx'.copyBound b = ctx.copyBound b := by
  have hinsts : (ctx.body b).filterMap ctx'.inst? = (ctx.body b).filterMap ctx.inst? :=
    List.filterMap_congr fun i hi => h.inst (h.inside hb hi)
  rw [Context.copyBound, Context.copyBound, h.body hb, hinsts]

theorem isDead (h : r.Alike ctx ctx') (hi : r.insts i) (l : Liveness) :
    ctx'.isDead l i = ctx.isDead l i := by
  unfold Context.isDead Liveness.hasLiveResult
  rw [h.readInst hi]

/-! ## What is done -/

/-- What a block holds is changed, and the blocks of the region still have
instructions of the region. -/
theorem update_mapBlock {g : BlockBody → BlockBody} (h : r.Alike ctx ctx')
    (hinside : ∀ {c i}, r.blocks c → i ∈ (ctx.update b fun x => x.mapBlock g).body c →
      r.insts i) :
    r.Alike (ctx.update b fun x => x.mapBlock g) (ctx'.update b fun x => x.mapBlock g) where
  value v := by
    obtain ⟨y, hv⟩ := h.value v
    rw [value?_update, value?_update, hv]
    split
    · exact ⟨g y, by simp [Function.comp_def]⟩
    · exact ⟨y, rfl⟩
  block hc := by rw [value?_update, value?_update, h.block hc]
  cell hi := by rw [cell?_update, cell?_update, h.cell hi]
  inside := hinside
  home hi hx := by
    rw [inst?_update] at hx
    exact h.home hi hx

/-- A block of the region gets another body, with instructions of the region. -/
theorem update_setBody {is : List InstId} (h : r.Alike ctx ctx') (his : ∀ i ∈ is, r.insts i) :
    r.Alike (ctx.update b fun x => x.setBody is) (ctx'.update b fun x => x.setBody is) := by
  refine h.update_mapBlock fun {c i} hc hi => ?_
  by_cases hkind : ctx.kind? b = some .block
  · have hi : i ∈ Function.update ctx.body b is c := body_update_setBody hkind ▸ hi
    by_cases hcb : c = b
    · rw [hcb, Function.update_self] at hi
      exact his i hi
    · rw [Function.update_of_ne hcb] at hi
      exact h.inside hc hi
  · exact h.inside hc (body_update_setBody_of_ne hkind ▸ hi)

/-- The place of an instruction is changed: the instruction is destroyed, taken
out of its block, or changed where it is. -/
theorem updateCell {g : Cell → Option Cell} (h : r.Alike ctx ctx')
    (hblock : ∀ c c' b, g c = some c' → c'.instruction.block = some b →
      c.instruction.block = some b) :
    r.Alike (ctx.updateCell i g) (ctx'.updateCell i g) where
  value v := by
    rw [value?_updateCell, value?_updateCell]
    exact h.value v
  block hb := by rw [value?_updateCell, value?_updateCell, h.block hb]
  cell hi := by rw [cell?_updateCell, cell?_updateCell, h.cell hi]
  inside hb hi := by
    rw [body_congr skeleton?_updateCell] at hi
    exact h.inside hb hi
  home {j y b} hj hy hb := by
    obtain ⟨c', hc', rfl⟩ := Option.map_eq_some_iff.1 hy
    rw [cell?_updateCell] at hc'
    split at hc'
    · obtain ⟨c, hc, hg⟩ := Option.bind_eq_some_iff.1 hc'
      have hx : ctx.inst? j = some c.instruction := Option.map_eq_some_iff.2 ⟨c, hc, rfl⟩
      exact h.home hj hx (hblock c c' b hg hb)
    · exact h.home hj (Option.map_eq_some_iff.2 ⟨c', hc', rfl⟩) hb

/-! Links are written alike on both sides, wherever they are. -/

theorem ends {g : BlockBody → BlockBody} (h : r.Alike ctx ctx')
    (hg : ∀ y, (g y).toList = y.toList) :
    r.Alike (ctx.update b fun x => x.mapBlock g) (ctx'.update b fun x => x.mapBlock g) :=
  h.update_mapBlock fun hc hi => h.inside hc ((Relinks.ends .refl hg).body ▸ hi)

theorem neighbours {g : Cell → Cell} (h : r.Alike ctx ctx')
    (hg : ∀ c, (g c).instruction = c.instruction) :
    r.Alike (ctx.updateCell i fun c => some (g c)) (ctx'.updateCell i fun c => some (g c)) := by
  refine h.updateCell fun c c' b hc hb => ?_
  rwa [← Option.some.inj hc, hg] at hb

theorem joinNext {prev next : Option InstId} (h : r.Alike ctx ctx') :
    r.Alike (ctx.joinNext b prev next) (ctx'.joinNext b prev next) := by
  cases prev with
  | none => exact h.ends fun _ => rfl
  | some p => exact h.neighbours fun _ => rfl

theorem joinPrev {prev next : Option InstId} (h : r.Alike ctx ctx') :
    r.Alike (ctx.joinPrev b prev next) (ctx'.joinPrev b prev next) := by
  cases next with
  | none => exact h.ends fun _ => rfl
  | some n => exact h.neighbours fun _ => rfl

theorem unlink (h : r.Alike ctx ctx') (hi : r.insts i) :
    r.Alike (ctx.unlink i b) (ctx'.unlink i b) := by
  unfold Context.unlink
  rw [h.nextInst? hi, h.prevInst? hi]
  refine neighbours (ends h.joinNext.joinPrev fun _ => ?_) fun _ => ?_
  · rfl
  · rfl

end Region.Alike

/-- **Steps that are alike from within a region**: the outcome is the same, and
so is what they leave there. -/
structure Region.Matches {α : Type} (r : Region) (s s' : Step α) : Prop where
  outcome : s'.outcome = s.outcome
  context : r.Alike s.context s'.context

/-- **An edit that stays within a region** cannot tell contexts apart that are
alike from there. -/
def Edit.Within {α : Type} (e : Edit α) (r : Region) : Prop :=
  ∀ ⦃ctx ctx'⦄, r.Alike ctx ctx' → r.Matches (e.run ctx) (e.run ctx')

variable {α β : Type} {r : Region} {ctx ctx' : Context}

namespace Region.Matches

/-- One edit after another: if the first ends alike with a result, so must the
second. -/
theorem bind {e e' : Edit α} {f f' : α → Edit β} (h : r.Matches (e.run ctx) (e'.run ctx'))
    (hf : ∀ a, (e.run ctx).outcome = .ok a →
      r.Matches ((f a).run (e.run ctx).context) ((f' a).run (e'.run ctx').context)) :
    r.Matches ((e >>= f).run ctx) ((e' >>= f').run ctx') := by
  cases hout : (e.run ctx).outcome with
  | ok a =>
    have hnext := hf a hout
    rw [Edit.run_bind_of_ok hout, Edit.run_bind_of_ok (h.outcome.trans hout)]
    exact ⟨hnext.outcome, hnext.context⟩
  | error fault =>
    rw [Edit.run_bind_of_error hout, Edit.run_bind_of_error (h.outcome.trans hout)]
    exact ⟨rfl, h.context⟩

/-- An edit that first looks at the context. -/
theorem look {f f' : Context → Edit α} (h : r.Matches ((f ctx).run ctx) ((f' ctx').run ctx')) :
    r.Matches ((Edit.context >>= f).run ctx) ((Edit.context >>= f').run ctx') :=
  ⟨h.outcome, h.context⟩

/-- Edits that first make the same check. -/
theorem check {x : Except Fault α} {f f' : α → Edit β} (h : r.Alike ctx ctx')
    (hf : ∀ a, x = .ok a → r.Matches ((f a).run ctx) ((f' a).run ctx')) :
    r.Matches (((liftM x : Edit α) >>= f).run ctx) (((liftM x : Edit α) >>= f').run ctx') := by
  have hx : r.Matches ((liftM x : Edit α).run ctx) ((liftM x : Edit α).run ctx') := ⟨rfl, h⟩
  exact hx.bind hf

/-- A report that ends the same way. -/
theorem report {q q' : Report α} (h : r.Alike ctx ctx') (houtcome : q'.outcome = q.outcome) :
    r.Matches ((liftM q : Edit α).run ctx) ((liftM q' : Edit α).run ctx') :=
  ⟨houtcome, h⟩

end Region.Matches

namespace Edit

namespace Within

theorem bind {e : Edit α} {f : α → Edit β} (h : e.Within r) (hf : ∀ a, (f a).Within r) :
    (e >>= f).Within r :=
  fun _ _ halike => (h halike).bind fun a _ => hf a (h halike).context

theorem pure (a : α) : (Pure.pure a : Edit α).Within r := fun _ _ h => ⟨rfl, h⟩

theorem note (e : Event) : (Edit.note e).Within r := fun _ _ h => ⟨rfl, h⟩

theorem refuse (c : Cause) : (ContractIR.refuse c : Edit α).Within r := fun _ _ h => ⟨rfl, h⟩

theorem modify {f : Context → Context}
    (hf : ∀ {ctx ctx'}, r.Alike ctx ctx' → r.Alike (f ctx) (f ctx')) :
    (Edit.modify f).Within r :=
  fun _ _ h => ⟨rfl, hf h⟩

/-- An edit that first makes a check. -/
theorem check {x : Except Fault α} {f : α → Edit β} (hf : ∀ a, x = .ok a → (f a).Within r) :
    ((liftM x : Edit α) >>= f).Within r :=
  fun _ _ h => .check h fun a ha => hf a ha h

/-- An edit that first looks at the context: it must go on in the same way. -/
theorem look {f : Context → Edit β}
    (hf : ∀ {ctx ctx'}, r.Alike ctx ctx' → f ctx' = f ctx ∧ (f ctx).Within r) :
    (context >>= f).Within r := by
  intro ctx ctx' h
  obtain ⟨heq, hwithin⟩ := hf h
  refine .look ?_
  rw [heq]
  exact hwithin h

end Within

variable {i : InstId} {is : List InstId} {b f s t v : ValueId} {blocks : List ValueId}

/-! ## Single instructions -/

theorem within_setOperand (hi : r.insts i) (k : Nat) : (setOperand i k v).Within r := by
  refine .look fun {ctx ctx'} h => ⟨?_, ?_⟩
  · rw [h.ownInst hi, h.checkOperand]
    exact h.own_bind v
  · refine .check fun _ _ => .check fun _ _ => .check fun _ _ => .modify fun h => ?_
    refine h.updateCell fun c c' b hc hb => ?_
    rwa [← Option.some.inj hc] at hb

theorem within_unplace (hi : r.insts i) : (unplace i).Within r := by
  refine .look fun {ctx ctx'} h => ⟨by rw [h.ownInst hi], .check fun x hx => ?_⟩
  cases hblock : x.block with
  | none => exact .refuse _
  | some b =>
    have hb : r.blocks b := h.home hi (ownInst_eq_ok.1 hx) hblock
    refine .modify fun {c c'} h => ?_
    rw [h.body hb]
    refine ((h.update_setBody fun j hj => ?_).updateCell fun c c' d hc hd => ?_).unlink hi
    · exact h.inside hb (List.mem_of_mem_erase hj)
    · rw [← Option.some.inj hc] at hd
      cases hd

theorem within_eraseInst (hi : r.insts i) : (eraseInst i).Within r := by
  refine .look fun h => ⟨by rw [h.nextInst? hi], ?_⟩
  refine (within_unplace hi).bind fun _ => .bind (.modify fun h => ?_) fun _ =>
    .bind (.note _) fun _ => .pure _
  exact h.updateCell fun c c' b hc => nomatch hc

/-! ## Copy propagation -/

theorem within_replaceOperands (hi : r.insts i) :
    ∀ ks, (replaceOperands i v ks).Within r
  | [] => .pure ()
  | k :: ks => (within_setOperand hi k).bind fun _ => within_replaceOperands hi ks

theorem within_forwardCopy (his : ∀ i ∈ is, r.insts i) : (forwardCopy t s is).Within r := by
  induction is with
  | nil => exact .pure 0
  | cons i is ih =>
    have hi := his i List.mem_cons_self
    have hrest := ih fun j hj => his j (List.mem_cons_of_mem i hj)
    rw [forwardCopy]
    refine .look fun h => ⟨by rw [h.readInst hi], .check fun x _ => ?_⟩
    refine (within_replaceOperands hi _).bind fun _ => ?_
    split
    · exact .pure _
    · exact hrest.bind fun _ => .pure _

theorem within_noteForwarded (reads : Nat) : (noteForwarded t s reads).Within r := by
  refine .look fun h => ⟨by rw [h.nameOf], ?_⟩
  split
  · exact .pure ()
  · exact .note _

/-- **A sweep** over instructions of the region. -/
theorem within_sweepCopies (his : ∀ i ∈ is, r.insts i) : (sweepCopies is).Within r := by
  induction is with
  | nil => exact .pure _
  | cons i is ih =>
    have hi := his i List.mem_cons_self
    have his' := fun j hj => his j (List.mem_cons_of_mem i hj)
    rw [sweepCopies]
    refine .look fun h => ⟨by rw [h.readInst hi, h.localCopy?, h.nameOf], .check fun x _ => ?_⟩
    split
    · exact ih his'
    · split
      · exact .bind (.note _) fun _ => (within_eraseInst hi).bind fun _ =>
          (ih his').bind fun _ => .pure _
      · exact (within_forwardCopy his').bind fun reads => (within_noteForwarded reads).bind fun _ =>
          (ih his').bind fun _ => .pure _

theorem within_settleCopies (hb : r.blocks b) : ∀ bound, (settleCopies b bound).Within r
  | 0 => .pure _
  | bound + 1 => by
    refine .look fun h => ⟨by rw [h.readBody hb], .check fun is his => ?_⟩
    refine (within_sweepCopies (h.insts_of_readBody hb his)).bind fun tally => ?_
    split
    · exact .pure _
    · exact (within_settleCopies hb bound).bind fun _ => .pure _

theorem within_propagateCopies (hb : r.blocks b) : (propagateCopies b).Within r :=
  .look fun h => ⟨by rw [h.copyBound hb], within_settleCopies hb _⟩

/-- **Copy propagation** in blocks of the region. -/
theorem within_copyStage (options : OptimizerOptions) (hblocks : ∀ b ∈ blocks, r.blocks b) :
    (copyStage options blocks).Within r := by
  unfold copyStage
  split
  · induction blocks with
    | nil => exact .pure _
    | cons b blocks ih =>
      refine (within_propagateCopies (hblocks b List.mem_cons_self)).bind fun _ => ?_
      exact (ih fun c hc => hblocks c (List.mem_cons_of_mem b hc)).bind fun _ => .pure _
  · exact .pure _

/-! ## Dead code elimination -/

theorem within_eraseDead {l : Liveness} (his : ∀ i ∈ is, r.insts i) :
    (eraseDead l is).Within r := by
  induction is with
  | nil => exact .pure 0
  | cons i is ih =>
    have hi := his i List.mem_cons_self
    have hrest := ih fun j hj => his j (List.mem_cons_of_mem i hj)
    rw [eraseDead]
    refine .look fun h => ⟨by rw [h.isDead hi, h.instText hi], .check fun dead _ => ?_⟩
    split
    · exact .check fun _ _ => .bind (.note _) fun _ => (within_eraseInst hi).bind fun _ =>
        hrest.bind fun _ => .pure _
    · exact hrest

theorem within_eraseDeadIn {l : Liveness} (hblocks : ∀ b ∈ blocks, r.blocks b) :
    (eraseDeadIn l blocks).Within r := by
  induction blocks with
  | nil => exact .pure 0
  | cons b blocks ih =>
    have hb := hblocks b List.mem_cons_self
    refine .look fun h => ⟨by rw [h.readBody hb], .check fun is his => ?_⟩
    refine (within_eraseDead (h.insts_of_readBody hb his)).bind fun _ => ?_
    exact (ih fun c hc => hblocks c (List.mem_cons_of_mem b hc)).bind fun _ => .pure _

end Edit

end ContractIR
