import ContractIR.Proofs.Chains
import ContractIR.Proofs.Membership
/-!
# The instructions of a block

A block lists its instructions and keeps its two ends and its length; an
instruction knows its block and its two neighbours there. All of these are
written separately, and they agree in every reachable context: the body of a
block names, once each, exactly the instructions that are in it, and ends,
length and neighbours are those of the body. So the chain of next
instructions from the first one visits the body and ends, the chain of
previous ones from the last visits it backward, and each edit does to the
body what it says and touches no other block.
-/

namespace ContractIR

/-- What a block with given instructions holds. -/
def BlockBody.ofList (l : List InstId) : BlockBody := ⟨l, l.head?, l.getLast?, l.length⟩

namespace BlockBody

variable {i : InstId} {pre post : List InstId}

theorem ofList_insert :
    ofList (pre ++ i :: post) =
      { toList := pre ++ i :: post
        head? := if pre.getLast? = none then some i else (pre ++ post).head?
        getLast? := if post.head? = none then some i else (pre ++ post).getLast?
        length := (pre ++ post).length + 1 } := by
  rw [ofList, BlockBody.mk.injEq]
  refine ⟨rfl, ?_, ?_, ?_⟩
  · cases pre <;> simp
  · cases post <;> simp [List.getLast?_append, List.getLast?_cons]
  · simp [Nat.add_assoc]

theorem ofList_remove :
    ofList (pre ++ post) =
      { toList := pre ++ post
        head? := if pre.getLast? = none then post.head? else (pre ++ i :: post).head?
        getLast? := if post.head? = none then pre.getLast? else (pre ++ i :: post).getLast?
        length := (pre ++ i :: post).length - 1 } := by
  rw [ofList, BlockBody.mk.injEq]
  refine ⟨rfl, ?_, ?_, ?_⟩
  · cases pre <;> simp
  · cases post <;> simp [List.getLast?_append, List.getLast?_cons]
  · simp

end BlockBody

namespace Context

variable (ctx : Context)

/-- The block an instruction is in. -/
def blockOf? (i : InstId) : Option ValueId := (ctx.inst? i).bind Instruction.block

variable {ctx} {ctx' : Context} {v p q b : ValueId} {i j : InstId} {list : MemberList}

theorem blockOf?_eq_some : ctx.blockOf? i = some b ↔ ∃ x, ctx.inst? i = some x ∧ x.block = some b :=
  Option.bind_eq_some_iff

theorem blockOf?_of_live {x : Instruction} (h : ctx.inst? i = some x) :
    ctx.blockOf? i = x.block := by
  rw [blockOf?, h]
  rfl

/-- An instruction is kept with its neighbours. -/
theorem cell?_eq : ctx.cell? i =
    (ctx.inst? i).map fun x => ⟨x, ctx.prevInst? i, ctx.nextInst? i⟩ := by
  rw [inst?, prevInst?, nextInst?]
  cases ctx.cell? i <;> rfl

/-! ## Changes that leave the blocks alone -/

theorem block_update_of_keeps {f : Value → Value} (h : ∀ x, (f x).block? = x.block?) :
    (ctx.update v f).block = ctx.block := by
  funext w
  simp only [block, value?_update]
  split
  · cases ctx.value? w <;> simp [h]
  · rfl

theorem block_withMembers {vs : List ValueId} : (ctx.withMembers p list vs).block = ctx.block :=
  block_update_of_keeps fun x => x.block?_setMembers list vs

theorem block_withParent {parent : Option ValueId} : (ctx.withParent v parent).block = ctx.block :=
  block_update_of_keeps fun _ => rfl

theorem block_attached {k : Nat} : (ctx.attached p list v k).block = ctx.block := by
  unfold attached
  rw [block_congr skeleton?_adopted, block_withParent, block_withMembers]

theorem block_detached : (ctx.detached p list v).block = ctx.block := by
  unfold detached
  rw [block_withParent, block_congr skeleton?_left, block_withMembers]

theorem block_adoptedAll {vs : List ValueId} :
    ∀ {ctx : Context}, (adoptedAll p vs ctx).block = ctx.block := by
  induction vs with
  | nil => intro ctx; rfl
  | cons v vs ih =>
    intro ctx
    rw [adoptedAll, ih, block_congr skeleton?_adopted, block_withParent]

theorem block_transferred {start stop k : Nat} :
    (ctx.transferred list p q start stop k).block = ctx.block := by
  unfold transferred
  rw [block_adoptedAll, block_withMembers, block_congr skeleton?_leftAll, block_withMembers]

theorem block_push {payload : Payload} (empty : (({ payload } : Value).block?).getD {} = {}) :
    (ctx.push payload).block = ctx.block := by
  funext w
  simp only [block, value?_push]
  split
  · rename_i hw
    rw [hw, value?_eq_none_of_nextValue]
    exact empty
  · rfl

/-- A number that goes to no instruction, or to one that is in no block, shows
in no block. -/
theorem blockOf?_pushInst {x : Option Instruction} (free : x.bind Instruction.block = none) :
    (ctx.pushInst x).blockOf? = ctx.blockOf? := by
  funext j
  rw [blockOf?, blockOf?, inst?_pushInst]
  split
  · rename_i hj
    rw [hj, inst?_nextInst, free]
    rfl
  · rfl

/-! ## Changes to a block -/

theorem body_destroyed : (ctx.destroyed i).body = ctx.body := body_congr skeleton?_updateCell

theorem blockOf?_placed {x : Instruction} {k : Nat} (h : ctx.inst? i = some x) :
    (ctx.placed i b k).blockOf? = Function.update ctx.blockOf? i (some b) := by
  funext j
  rw [blockOf?, inst?_placed h]
  by_cases hj : j = i
  · rw [hj, if_pos rfl, Function.update_self]
    rfl
  · rw [if_neg hj, Function.update_of_ne hj]
    rfl

theorem blockOf?_unplaced {x : Instruction} (h : ctx.inst? i = some x) :
    (ctx.unplaced i b).blockOf? = Function.update ctx.blockOf? i none := by
  funext j
  rw [blockOf?, inst?_unplaced h]
  by_cases hj : j = i
  · rw [hj, if_pos rfl, Function.update_self]
    rfl
  · rw [if_neg hj, Function.update_of_ne hj]
    rfl

theorem blockOf?_destroyed {x : Instruction} (h : ctx.inst? i = some x) (free : x.block = none) :
    (ctx.destroyed i).blockOf? = ctx.blockOf? := by
  funext j
  rw [blockOf?, inst?_destroyed]
  split
  · rename_i hj
    rw [hj, blockOf?_of_live h, free]
    rfl
  · rfl

theorem blockOf?_withOperand {x : Instruction} {index : Nat} (h : ctx.inst? i = some x) :
    (ctx.withOperand i index v).blockOf? = ctx.blockOf? := by
  funext j
  rw [blockOf?, inst?_withOperand h]
  split
  · rename_i hj
    rw [hj, blockOf?_of_live h]
    rfl
  · rfl

/-- Only blocks have instructions. -/
theorem kind?_of_mem_body (h : i ∈ ctx.body b) : ctx.kind? b = some .block := by
  unfold body block at h
  cases hx : ctx.value? b with
  | none =>
    rw [hx] at h
    exact absurd h List.not_mem_nil
  | some x =>
    rw [hx] at h
    cases hblock : x.block? with
    | none =>
      rw [Option.bind_some, hblock] at h
      exact absurd h List.not_mem_nil
    | some y =>
      have hkind : x.kind = .block := x.block?_isSome_iff.1 (by rw [hblock]; rfl)
      rw [kind?_of_value? hx, hkind]

/-! ## Links around a place -/

section Listed

variable {is : List InstId} {f : Instruction → Instruction} {before : Option InstId}

/-- Listing an instruction in a block and telling it so writes no links. -/
theorem nextInst?_listed :
    ((ctx.update b fun x => x.setBody is).updateInst i f).nextInst? = ctx.nextInst? :=
  nextInst?_updateInst.trans nextInst?_update

theorem prevInst?_listed :
    ((ctx.update b fun x => x.setBody is).updateInst i f).prevInst? = ctx.prevInst? :=
  prevInst?_updateInst.trans prevInst?_update

theorem block_listed (h : ctx.kind? b = some .block) :
    ((ctx.update b fun x => x.setBody is).updateInst i f).block =
      Function.update ctx.block b { ctx.block b with toList := is } :=
  (block_congr skeleton?_updateInst).trans (block_update_mapBlock h)

theorem kind?_listed :
    ((ctx.update b fun x => x.setBody is).updateInst i f).kind? = ctx.kind? :=
  (kind?_congr skeleton?_updateInst).trans SameMembers.update_mapBlock.kind

theorem ownsInst_listed :
    ((ctx.update b fun x => x.setBody is).updateInst i f).ownsInst = ctx.ownsInst :=
  ownsInst_updateInst.trans (ownsInst_congr (funext fun _ => inst?_update))

theorem preceding?_listed (h : ctx.kind? b = some .block) :
    ((ctx.update b fun x => x.setBody is).updateInst i f).preceding? b before =
      ctx.preceding? b before := by
  cases before with
  | some n => exact congrFun prevInst?_listed n
  | none =>
    simp only [preceding?, lastInst?]
    rw [block_listed h, Function.update_self]

end Listed

end Context

/-! ## The invariant -/

/-- **Bodies, blocks and links agree**: a body names nothing twice, it names
exactly the instructions that are in the block, neighbours in the body are
linked both ways, and the block's ends and length are those of the body. -/
structure Threaded (ctx : Context) : Prop where
  next : Chained ctx.nextInst? ctx.blockOf? ctx.body
  prev : Chained ctx.prevInst? ctx.blockOf? (List.reverse ∘ ctx.body)
  ends : ∀ b, ctx.block b = .ofList (ctx.body b)

namespace Threaded

open Context

variable {ctx ctx' : Context} {b : ValueId} {i j : InstId} {x : Instruction}
variable {pre post : List InstId}

theorem nodup (h : Threaded ctx) (b : ValueId) : (ctx.body b).Nodup := h.next.nodup b

theorem mem_iff (h : Threaded ctx) : i ∈ ctx.body b ↔ ctx.blockOf? i = some b := h.next.mem_iff

theorem firstInst?_eq (h : Threaded ctx) : ctx.firstInst? b = (ctx.body b).head? :=
  congrArg BlockBody.head? (h.ends b)

theorem lastInst?_eq (h : Threaded ctx) : ctx.lastInst? b = (ctx.body b).getLast? :=
  congrArg BlockBody.getLast? (h.ends b)

theorem instCount_eq (h : Threaded ctx) : ctx.instCount b = (ctx.body b).length :=
  congrArg BlockBody.length (h.ends b)

theorem congr (h : Threaded ctx) (hblock : ctx'.block = ctx.block)
    (hhome : ctx'.blockOf? = ctx.blockOf?) (hnext : ctx'.nextInst? = ctx.nextInst?)
    (hprev : ctx'.prevInst? = ctx.prevInst?) : Threaded ctx' := by
  have hbody := body_of_block hblock
  constructor
  · rw [hnext, hhome, hbody]
    exact h.next
  · rw [hprev, hhome, hbody]
    exact h.prev
  · rw [hblock, hbody]
    exact h.ends

/-- A change to values that leaves the blocks alone. -/
theorem of_cell? (h : Threaded ctx) (hblock : ctx'.block = ctx.block)
    (hcell : ctx'.cell? = ctx.cell?) : Threaded ctx' := by
  refine h.congr hblock (funext fun i => ?_) (funext fun i => ?_) (funext fun i => ?_)
  · rw [blockOf?, blockOf?, inst?, inst?, hcell]
  · rw [nextInst?, nextInst?, hcell]
  · rw [prevInst?, prevInst?, hcell]

/-- Bodies determine what their blocks hold and how their instructions are
linked. -/
theorem block_eq_of_body (h : Threaded ctx) (h' : Threaded ctx')
    (hbody : ctx'.body b = ctx.body b) : ctx'.block b = ctx.block b := by
  rw [h'.ends, h.ends, hbody]

theorem cell?_eq_of_body (h : Threaded ctx) (h' : Threaded ctx')
    (hinst : ctx'.inst? i = ctx.inst? i)
    (hbody : ∀ b, ctx.blockOf? i = some b → ctx'.body b = ctx.body b) :
    ctx'.cell? i = ctx.cell? i := by
  have hhome : ctx'.blockOf? i = ctx.blockOf? i := by rw [blockOf?, blockOf?, hinst]
  rw [cell?_eq, cell?_eq, hinst, h.next.step_eq, h'.next.step_eq, h.prev.step_eq, h'.prev.step_eq,
    hhome]
  cases hb : ctx.blockOf? i with
  | none => rfl
  | some b => simp only [Option.bind_some, Function.comp_apply, hbody b hb]

/-- A body names live instructions. -/
theorem live (h : Threaded ctx) (hi : i ∈ ctx.body b) :
    ∃ x, ctx.inst? i = some x ∧ x.block = some b :=
  blockOf?_eq_some.1 (h.mem_iff.1 hi)

theorem ownsInst_of_mem (h : Threaded ctx) (hi : i ∈ ctx.body b) : ctx.ownsInst i := by
  obtain ⟨x, hx, -⟩ := h.live hi
  rw [ownsInst, hx]
  rfl

theorem mem_of_block (h : Threaded ctx) (hx : ctx.inst? i = some x) (hb : x.block = some b) :
    i ∈ ctx.body b :=
  h.mem_iff.2 (blockOf?_eq_some.2 ⟨x, hx, hb⟩)

theorem kind?_of_block (h : Threaded ctx) (hx : ctx.inst? i = some x) (hb : x.block = some b) :
    ctx.kind? b = some .block :=
  kind?_of_mem_body (h.mem_of_block hx hb)

/-- An instruction of a body is live, in that block, and not named before. -/
theorem once (h : Threaded ctx) (hb : ctx.body b = pre ++ i :: post) :
    i ∉ pre ∧ ∃ x, ctx.inst? i = some x ∧ x.block = some b := by
  obtain ⟨hnot, hhome⟩ := h.next.once hb
  exact ⟨hnot, blockOf?_eq_some.1 hhome⟩

theorem nextInst?_eq (h : Threaded ctx) (hb : ctx.body b = pre ++ i :: post) :
    ctx.nextInst? i = post.head? :=
  h.next.step_of_eq hb

/-- The body of a block read backward. -/
theorem reverse_body (hb : ctx.body b = pre ++ i :: post) :
    (List.reverse ∘ ctx.body) b = post.reverse ++ i :: pre.reverse := by
  simp [hb]

theorem prevInst?_eq (h : Threaded ctx) (hb : ctx.body b = pre ++ i :: post) :
    ctx.prevInst? i = pre.getLast? := by
  rw [h.prev.step_of_eq (reverse_body hb), List.head?_reverse]

/-- What precedes a place is the last instruction before it. -/
theorem preceding?_eq (h : Threaded ctx) (hb : ctx.body b = pre ++ post) :
    ctx.preceding? b post.head? = pre.getLast? := by
  cases post with
  | nil => rw [List.head?_nil, preceding?, h.lastInst?_eq, hb, List.append_nil]
  | cons n post => exact h.prevInst?_eq hb

/-- **Placing keeps bodies and links in step.** -/
theorem placed (h : Threaded ctx) {k : Nat} (hx : ctx.inst? i = some x) (free : x.block = none)
    (hkind : ctx.kind? b = some .block) : Threaded (ctx.placed i b k) := by
  obtain ⟨pre, hpre⟩ : ∃ pre, (ctx.body b).take k = pre := ⟨_, rfl⟩
  obtain ⟨post, hpost⟩ : ∃ post, (ctx.body b).drop k = post := ⟨_, rfl⟩
  have hbody : ctx.body b = pre ++ post := by rw [← hpre, ← hpost, List.take_append_drop]
  have hbefore : (ctx.body b)[k]? = post.head? := by rw [← hpost, List.head?_drop]
  have hsplice : Sequence.splice k [i] (ctx.body b) = pre ++ i :: post := by
    rw [Sequence.splice, hpre, hpost, List.append_assoc]
    rfl
  have hhome : ctx.blockOf? i = none := (blockOf?_of_live hx).trans free
  have howns : ctx.ownsInst i := by
    rw [ownsInst, hx]
    rfl
  have hprev : ctx.preceding? b post.head? = pre.getLast? := h.preceding?_eq hbody
  constructor
  · rw [blockOf?_placed hx, body_placed hkind, hsplice]
    refine h.next.insert hbody hhome fun j => ?_
    rw [Context.placed, hbefore, nextInst?_link, preceding?_listed hkind, hprev, nextInst?_listed]
    · rwa [ownsInst_listed]
    · intro p hp
      rw [preceding?_listed hkind, hprev] at hp
      rw [ownsInst_listed]
      exact h.ownsInst_of_mem (hbody ▸ List.mem_append_left post (List.mem_of_getLast? hp))
  · have hreverse : (pre ++ i :: post).reverse = post.reverse ++ i :: pre.reverse := by simp
    rw [blockOf?_placed hx, body_placed hkind, hsplice, Function.comp_update, hreverse]
    refine h.prev.insert (by simp [hbody]) hhome fun j => ?_
    rw [Context.placed, hbefore, prevInst?_link, preceding?_listed hkind, hprev, prevInst?_listed,
      List.getLast?_reverse, List.head?_reverse]
    · rwa [ownsInst_listed]
    · intro n hn
      rw [ownsInst_listed]
      exact h.ownsInst_of_mem (hbody ▸ List.mem_append_right pre (List.mem_of_head? hn))
  · intro c
    rw [body_placed hkind, Context.placed, hbefore,
      block_link ((congrFun kind?_listed b).trans hkind), block_listed hkind,
      preceding?_listed hkind, hprev, hsplice, Function.update_idem, Function.update_self]
    by_cases hc : c = b
    · rw [hc, Function.update_self, Function.update_self, BlockBody.ofList_insert, h.ends b, hbody]
      rfl
    · rw [Function.update_of_ne hc, Function.update_of_ne hc]
      exact h.ends c

/-- **So does taking an instruction out.** -/
theorem unplaced (h : Threaded ctx) (hx : ctx.inst? i = some x) (hb : x.block = some b) :
    Threaded (ctx.unplaced i b) := by
  obtain ⟨pre, post, hbody⟩ := List.append_of_mem (h.mem_of_block hx hb)
  have hkind := h.kind?_of_block hx hb
  have herase : (ctx.body b).erase i = pre ++ post := by
    rw [hbody, List.erase_append_right _ (h.once hbody).1, List.erase_cons_head]
  have hnext := h.nextInst?_eq hbody
  have hprev := h.prevInst?_eq hbody
  constructor
  · rw [blockOf?_unplaced hx, body_unplaced hkind, herase]
    refine h.next.remove hbody fun j => ?_
    rw [Context.unplaced, nextInst?_unlink, prevInst?_listed, nextInst?_listed, hnext, hprev]
    intro p hp
    rw [prevInst?_listed, hprev] at hp
    rw [ownsInst_listed]
    exact h.ownsInst_of_mem (hbody ▸ List.mem_append_left _ (List.mem_of_getLast? hp))
  · rw [blockOf?_unplaced hx, body_unplaced hkind, herase, Function.comp_update,
      List.reverse_append]
    refine h.prev.remove (reverse_body hbody) fun j => ?_
    rw [Context.unplaced, prevInst?_unlink, prevInst?_listed, nextInst?_listed, hnext, hprev,
      List.getLast?_reverse, List.head?_reverse]
    intro n hn
    rw [nextInst?_listed, hnext] at hn
    rw [ownsInst_listed]
    exact h.ownsInst_of_mem
      (hbody ▸ List.mem_append_right pre (List.mem_cons_of_mem i (List.mem_of_head? hn)))
  · intro c
    rw [body_unplaced hkind, Context.unplaced, block_unlink ((congrFun kind?_listed b).trans hkind),
      block_listed hkind, prevInst?_listed, nextInst?_listed, hnext, hprev, herase,
      Function.update_idem, Function.update_self]
    by_cases hc : c = b
    · rw [hc, Function.update_self, Function.update_self, BlockBody.ofList_remove, h.ends b, hbody]
      rfl
    · rw [Function.update_of_ne hc, Function.update_of_ne hc]
      exact h.ends c

/-- What is in no block has no links that destroying it could clear. -/
theorem destroyed (h : Threaded ctx) (hx : ctx.inst? i = some x) (free : x.block = none) :
    Threaded (ctx.destroyed i) := by
  have hhome : ctx.blockOf? i = none := (blockOf?_of_live hx).trans free
  exact h.congr (block_congr skeleton?_updateCell) (blockOf?_destroyed hx free)
    (funext fun _ => side_updateCell_of_free (h.next.step_of_free hhome))
    (funext fun _ => side_updateCell_of_free (h.prev.step_of_free hhome))

theorem pushInst (h : Threaded ctx) {x : Option Instruction}
    (free : x.bind Instruction.block = none) : Threaded (ctx.pushInst x) :=
  h.congr rfl (blockOf?_pushInst free) (funext fun _ => side_pushInst fun _ => rfl)
    (funext fun _ => side_pushInst fun _ => rfl)

/-- **No change breaks the agreement.** -/
theorem step (h : Threaded ctx) {taken : List ValueId} (hc : Change ctx taken ctx') :
    Threaded ctx' := by
  cases hc with
  | intern n hex =>
    unfold Context.intern
    split
    · exact h
    · have hpush : Threaded (ctx.push (.constant n hex)) := h.of_cell? (block_push rfl) rfl
      exact hpush.of_cell? rfl rfl
  | push fresh => exact h.of_cell? (block_push (by cases fresh <;> rfl)) rfl
  | enlist c => exact h.of_cell? rfl rfl
  | rename => exact h.of_cell? (block_congr skeleton?_renamed) OffValues.cell?.renamed
  | attach => exact h.of_cell? block_attached OffValues.cell?.attached
  | detach => exact h.of_cell? block_detached OffValues.cell?.detached
  | transfer => exact h.of_cell? block_transferred OffValues.cell?.transferred
  | annotate only =>
    exact h.of_cell? (block_congr (skeleton?_update_of_keeps only.skeleton)) OffValues.cell?.update
  | waste => exact h.pushInst rfl
  | create _ free => exact h.pushInst free
  | place hx free hkind => exact h.placed hx free hkind
  | move hx hb hkind =>
    refine (h.unplaced hx hb).placed (inst?_unplaced_self hx) rfl ?_
    rw [SameMembers.unplaced.kind]
    exact hkind
  | unplace hx hb => exact h.unplaced hx hb
  | destroy hx free => exact h.destroyed hx free
  | setOperand hx =>
    exact h.congr (block_congr skeleton?_updateInst) (blockOf?_withOperand hx)
      nextInst?_updateInst prevInst?_updateInst

theorem empty (id : ContextId) : Threaded { id } := by
  have hbody : ∀ b, ({ id } : Context).body b = [] := fun b => by simp [body, block, value?]
  have hhome : ∀ i, ({ id } : Context).blockOf? i = none := fun i => by simp [blockOf?]
  refine ⟨⟨fun b => ?_, fun {b i} => ?_, fun i => ?_⟩, ⟨fun b => ?_, fun {b i} => ?_, fun i => ?_⟩,
    fun b => ?_⟩
  · simp [hbody]
  · simp [hbody, hhome]
  · simp [nextInst?, hhome]
  · simp [hbody]
  · simp [hbody, hhome]
  · simp [prevInst?, hhome]
  · rw [hbody]
    simp [block, value?, BlockBody.ofList]

end Threaded

theorem Reachable.threaded {ctx : Context} (h : Reachable ctx) : Threaded ctx :=
  h.keeps Threaded.empty fun _ ht hc => ht.step hc

/-! ## What edits do to bodies -/

namespace Context

variable (ctx ctx' : Context) (i : InstId)

/-- **An instruction was put at a point**: after all others of the block, or
right before the one the point names. Other blocks are as they were. -/
def PutAt : Point → Prop
  | .atEnd b => ctx'.body = Function.update ctx.body b (ctx.body b ++ [i])
  | .before j => ∃ b pre post, ctx.blockOf? j = some b ∧ ctx.body b = pre ++ j :: post ∧
      ctx'.body = Function.update ctx.body b (pre ++ i :: j :: post)

/-- **An instruction was taken out**, and `next` is what followed it. Other
instructions and other blocks are as they were. -/
def TakenOut (next : Option InstId) : Prop :=
  ∃ b pre post, ctx.blockOf? i = some b ∧ ctx.body b = pre ++ i :: post ∧ post.head? = next ∧
    ctx'.body = Function.update ctx.body b (pre ++ post)

variable {ctx} {b : ValueId} {x : Instruction} {k : Nat} {point : Point} {i}

/-- The block of a point before an instruction is the instruction's. -/
theorem blockOf?_of_pointBlock {j : InstId} (h : ctx.pointBlock (.before j) = .ok b) :
    ctx.blockOf? j = some b := by
  obtain ⟨x, hx, h⟩ := bind_eq_ok.1 h
  rw [blockOf?_of_live (ownInst_eq_ok.1 hx)]
  cases hb : x.block with
  | none => rw [hb] at h; cases h
  | some c => rw [hb] at h; rw [Except.ok.inj h]

theorem eq_of_pointBlock_atEnd {c : ValueId} (h : ctx.pointBlock (.atEnd c) = .ok b) : c = b := by
  obtain ⟨_, -, h⟩ := bind_eq_ok.1 h
  exact Except.ok.inj h

/-- Placing puts the instruction at the point. -/
theorem putAt_placed (hb : ctx.pointBlock point = .ok b) (hkind : ctx.kind? b = some .block)
    (hk : Sequence.position? point.follower? (ctx.body b) = some k) :
    ctx.PutAt (ctx.placed i b k) i point := by
  cases point with
  | atEnd c =>
    obtain rfl := eq_of_pointBlock_atEnd hb
    obtain rfl : (ctx.body c).length = k := Option.some.inj hk
    rw [PutAt, body_placed hkind, Sequence.splice_length]
  | before j =>
    obtain ⟨pre, post, hbody, hsplice⟩ := Sequence.splice_position? hk
    refine ⟨b, pre, post, blockOf?_of_pointBlock hb, hbody, ?_⟩
    rw [body_placed hkind, hsplice, List.append_assoc]
    rfl

end Context

namespace Threaded

open Context

variable {ctx : Context} {b : ValueId} {i j : InstId} {x : Instruction}

/-- Taking an instruction out deletes it from the body of its block. -/
theorem takenOut_unplaced (h : Threaded ctx) (hx : ctx.inst? i = some x) (hb : x.block = some b) :
    ctx.TakenOut (ctx.unplaced i b) i (ctx.nextInst? i) := by
  obtain ⟨pre, post, hbody⟩ := List.append_of_mem (h.mem_of_block hx hb)
  obtain ⟨hnot, -⟩ := h.once hbody
  have hblock : ctx.blockOf? i = some b := by
    rw [blockOf?_of_live hx, hb]
  refine ⟨b, pre, post, hblock, hbody, (h.nextInst?_eq hbody).symm, ?_⟩
  rw [body_unplaced (h.kind?_of_block hx hb), hbody, List.erase_append_right _ hnot,
    List.erase_cons_head]

/-- It is then in no block. -/
theorem body_unplaced_eq_filter (h : Threaded ctx) (hx : ctx.inst? i = some x)
    (hb : x.block = some b) (c : ValueId) :
    (ctx.unplaced i b).body c = (ctx.body c).filter fun j => !decide (j = i) := by
  rw [body_unplaced (h.kind?_of_block hx hb)]
  by_cases hc : c = b
  · rw [hc, Function.update_self, (h.nodup b).erase_eq_filter]
    rfl
  · rw [Function.update_of_ne hc, List.filter_eq_self.2]
    intro j hj
    -- The instruction is in one block only.
    have hne : j ≠ i := by
      rintro rfl
      rw [h.mem_iff, blockOf?_of_live hx, hb] at hj
      exact hc (Option.some.inj hj).symm
    simp [hne]

/-- A neighbour is an instruction of a body. -/
theorem mem_of_nextInst? (h : Threaded ctx) (hj : ctx.nextInst? j = some i) :
    ∃ b, i ∈ ctx.body b :=
  h.next.mem_of_step hj

theorem mem_of_prevInst? (h : Threaded ctx) (hj : ctx.prevInst? j = some i) :
    ∃ b, i ∈ ctx.body b := by
  obtain ⟨b, hb⟩ := h.prev.mem_of_step hj
  exact ⟨b, List.mem_reverse.1 hb⟩

theorem ensures_insertInst {point : Point} :
    (Edit.insertInst i point).Ensures (fun _ c => ctx.PutAt c i point) (fun _ _ => True) ctx :=
  Edit.ensures_insertInst (fun _ => trivial) fun _ _ _ _ _ hb _ hkind hk =>
    putAt_placed hb hkind hk

theorem ensures_createInst {op : Opcode} {results operands : List ValueId} {point : Point} :
    (Edit.createInst op results operands point).Ensures
      (fun i c => ctx.inst? i = none ∧ ctx.PutAt c i point) (fun _ _ => True) ctx := by
  refine Edit.ensures_createInst (fun _ => trivial) (fun _ => trivial) (fun _ _ _ => trivial)
    fun b k _ _ hentry hb hkind hk => ⟨inst?_nextInst, ?_⟩
  -- The point was resolved before the instruction was added, to the same block.
  have hput : (ctx.pushInst (some { opcode := op, results, operands })).PutAt
      ((ctx.pushInst (some { opcode := op, results, operands })).placed ctx.nextInst b k)
      ctx.nextInst point := putAt_placed hb hkind hk
  cases point with
  | atEnd c => exact hput
  | before j =>
    obtain ⟨c, pre, post, hj, hbody, hafter⟩ := hput
    refine ⟨c, pre, post, ?_, hbody, hafter⟩
    rw [blockOf?_pushInst rfl] at hj
    exact hj

theorem ensures_unplace (h : Threaded ctx) :
    (Edit.unplace i).Ensures
      (fun _ c => ctx.TakenOut c i (ctx.nextInst? i) ∧ c.ownsInst i ∧ c.blockOf? i = none)
      (fun _ _ => True) ctx := by
  refine Edit.ensures_unplace (fun _ => trivial) fun x b hx hb => ?_
  refine ⟨h.takenOut_unplaced hx hb, ?_, ?_⟩
  · rw [ownsInst, inst?_unplaced_self hx]
    rfl
  · rw [blockOf?_unplaced hx, Function.update_self]

theorem ensures_eraseInst (h : Threaded ctx) :
    (Edit.eraseInst i).Ensures (fun next c => ctx.TakenOut c i next ∧ c.inst? i = none)
      (fun _ _ => True) ctx := by
  refine Edit.ensures_eraseInst (fun _ => trivial) fun x b hx hb => ?_
  refine ⟨?_, by rw [inst?_destroyed, if_pos rfl]⟩
  -- Destroying what is in no block any more leaves the bodies alone.
  obtain ⟨c, pre, post, hc, hbody, hnext, hafter⟩ := h.takenOut_unplaced hx hb
  exact ⟨c, pre, post, hc, hbody, hnext, by rw [body_destroyed, hafter]⟩

end Threaded

/-- **The instructions of a block form a well-linked list in every reachable
context, and edits work on it as on a list.** From the first instruction the
next ones visit the body, from the last the previous ones visit it backward,
nothing is visited twice, and what is visited is what is in the block. An
instruction in no block has no neighbours, and nothing leads to an erased
one. Creation and insertion put an instruction at their point, removal and
erasure take it out, and the other blocks stay as they are. -/
theorem bodies_linked {ctx : Context} (reachable : Reachable ctx) :
    (∀ b, Visits ctx.nextInst? (ctx.firstInst? b) (ctx.body b) ∧
      Visits ctx.prevInst? (ctx.lastInst? b) (ctx.body b).reverse ∧
      ctx.instCount b = (ctx.body b).length ∧ (ctx.body b).Nodup ∧
      ∀ i, i ∈ ctx.body b ↔ ∃ x, ctx.inst? i = some x ∧ x.block = some b) ∧
    (∀ i x, ctx.inst? i = some x → x.block = none →
      ctx.nextInst? i = none ∧ ctx.prevInst? i = none) ∧
    (∀ i b j, ctx.firstInst? b = some i ∨ ctx.lastInst? b = some i ∨ ctx.nextInst? j = some i ∨
      ctx.prevInst? j = some i → ctx.ownsInst i) ∧
    (∀ op results operands point i,
      ((Edit.createInst op results operands point).run ctx).outcome = .ok i →
      ctx.inst? i = none ∧
        ctx.PutAt ((Edit.createInst op results operands point).run ctx).context i point) ∧
    (∀ i point, ((Edit.insertInst i point).run ctx).outcome = .ok () →
      ctx.PutAt ((Edit.insertInst i point).run ctx).context i point) ∧
    (∀ i, ((Edit.unplace i).run ctx).outcome = .ok () →
      ctx.TakenOut ((Edit.unplace i).run ctx).context i (ctx.nextInst? i) ∧
        ((Edit.unplace i).run ctx).context.ownsInst i ∧
        ((Edit.unplace i).run ctx).context.blockOf? i = none) ∧
    (∀ i next, ((Edit.eraseInst i).run ctx).outcome = .ok next →
      ctx.TakenOut ((Edit.eraseInst i).run ctx).context i next ∧
        ((Edit.eraseInst i).run ctx).context.inst? i = none) := by
  have h := reachable.threaded
  refine ⟨fun b => ⟨?_, ?_, h.instCount_eq, h.nodup b, fun i => ?_⟩, fun i x hx free => ?_,
    fun i b j hi => ?_, fun op results operands point i hok => ?_, fun i point hok => ?_,
    fun i hok => ?_, fun i next hok => ?_⟩
  · rw [h.firstInst?_eq]
    exact h.next.visits (List.nil_append _).symm
  · rw [h.lastInst?_eq, ← List.head?_reverse]
    exact h.prev.visits (List.nil_append _).symm
  · rw [h.mem_iff, Context.blockOf?_eq_some]
  · have hhome : ctx.blockOf? i = none := (Context.blockOf?_of_live hx).trans free
    exact ⟨h.next.step_of_free hhome, h.prev.step_of_free hhome⟩
  · rcases hi with hi | hi | hi | hi
    · rw [h.firstInst?_eq] at hi
      exact h.ownsInst_of_mem (List.mem_of_head? hi)
    · rw [h.lastInst?_eq] at hi
      exact h.ownsInst_of_mem (List.mem_of_getLast? hi)
    · obtain ⟨c, hc⟩ := h.mem_of_nextInst? hi
      exact h.ownsInst_of_mem hc
    · obtain ⟨c, hc⟩ := h.mem_of_prevInst? hi
      exact h.ownsInst_of_mem hc
  · exact Threaded.ensures_createInst.of_ok hok
  · exact Threaded.ensures_insertInst.of_ok hok
  · exact h.ensures_unplace.of_ok hok
  · exact h.ensures_eraseInst.of_ok hok

/-- A block whose second instruction was put before its first, which was then
taken out. -/
def editedBlock : Context :=
  Operation.runAll
    [.createBlock "" none none, .createForm .retVoid (.atEnd ⟨0, 0⟩),
      .createForm .retVoid (.before ⟨0, 0⟩), .createForm .retVoid (.atEnd ⟨0, 0⟩),
      .removeInst ⟨0, 0⟩] { id := 0 }

/-- There the chain runs over the two instructions that are left, and erasing
the first gives the second. -/
theorem bodies_linked_editedBlock :
    Reachable editedBlock ∧
      Visits editedBlock.nextInst? (some ⟨0, 1⟩) [⟨0, 1⟩, ⟨0, 2⟩] ∧
      editedBlock.nextInst? ⟨0, 0⟩ = none ∧
      ((Edit.eraseInst ⟨0, 1⟩).run editedBlock).outcome = .ok (some ⟨0, 2⟩) ∧
      ((Edit.eraseInst ⟨0, 1⟩).run editedBlock).context.inst? ⟨0, 1⟩ = none := by
  have hreachable : Reachable editedBlock := (Reachable.empty 0).runAll (by decide)
  obtain ⟨hblocks, hfree, -, -, -, -, herase⟩ := bodies_linked hreachable
  have hok : ((Edit.eraseInst ⟨0, 1⟩).run editedBlock).outcome = .ok (some ⟨0, 2⟩) := rfl
  exact ⟨hreachable, (hblocks ⟨0, 0⟩).1, (hfree ⟨0, 0⟩ _ rfl rfl).1, hok, (herase _ _ hok).2⟩

end ContractIR
