import Mathlib.Data.List.Nodup
import ContractIR.Proofs.References
import ContractIR.Proofs.Semantics.Code
/-!
# What the optimizer may do to a context

The optimizer does two things to the instructions of a function: it lets one
read a local instead of another, and it destroys one. `Trim` is a step of
either kind, and `Trims` a run of such steps that counts what it destroys. The
rest of this file says what a step leaves as it is, and hence a run: everything
but the bodies of blocks and the operands of instructions (`Trimmed`), and that
the locals, arguments and blocks which the instructions of a function use are
its own (`SelfContained`).
-/

namespace ContractIR

namespace Value

variable (x : Value)

/-- A block holds what it holds. -/
theorem mapBlock_block? (f : BlockBody → BlockBody) :
    (x.mapBlock fun _ => (x.mapBlock f).block?.getD {}) = x.mapBlock f := by
  obtain ⟨payload, name, parent⟩ := x
  cases payload <;> rfl

theorem label_mapBlock (f : BlockBody → BlockBody) : (x.mapBlock f).label = x.label := by
  obtain ⟨payload, name, parent⟩ := x
  cases payload <;> rfl

end Value

namespace Context

/-! ## Steps -/

/-- **One thing the optimizer does** in a function, with how many instructions
it destroys. -/
inductive Trim (ctx : Context) (f : ValueId) : Nat → Context → Prop
  /-- An instruction reads a local instead of another. -/
  | reread {i : InstId} {x : Instruction} {b w v : ValueId} {k : Nat}
      (live : ctx.inst? i = some x) (block : x.block = some b)
      (inside : b ∈ ctx.members f .blocks) (old : x.operands[k]? = some w)
      (old_local : ctx.isLocal w) (new_local : ctx.isLocal v)
      (checked : ctx.checkOperand x k v = .ok ()) : Trim ctx f 0 (ctx.withOperand i k v)
  /-- An instruction is destroyed. -/
  | erase {i : InstId} {x : Instruction} {b : ValueId} (live : ctx.inst? i = some x)
      (block : x.block = some b) (inside : b ∈ ctx.members f .blocks) :
      Trim ctx f 1 ((ctx.unplaced i b).destroyed i)

/-- **A run of such steps**, with how many instructions it destroys. -/
inductive Trims (ctx : Context) (f : ValueId) : Nat → Context → Prop
  | refl : Trims ctx f 0 ctx
  | tail {n m : Nat} {c c' : Context} : Trims ctx f n c → c.Trim f m c' → Trims ctx f (n + m) c'

variable {ctx ctx' ctx'' : Context} {f b v : ValueId} {n m : Nat} {i : InstId} {x : Instruction}

namespace Trims

theorem single (h : ctx.Trim f n ctx') : ctx.Trims f n ctx' := by
  have htail := refl.tail h
  rwa [Nat.zero_add] at htail

theorem trans (h : ctx.Trims f n ctx') (h' : ctx'.Trims f m ctx'') :
    ctx.Trims f (n + m) ctx'' := by
  induction h' with
  | refl => exact h
  | tail _ hstep ih =>
    rw [← Nat.add_assoc]
    exact ih.tail hstep

end Trims

theorem Trim.sound (hs : Sound ctx) (h : ctx.Trim f n ctx') : Sound ctx' := by
  cases h with
  | reread live _ _ _ _ new_local checked =>
    exact hs.step (.setOperand live (ownsValue_of_isLocal new_local) checked)
  | erase live block => exact hs.erased live block

theorem Trims.sound (hs : Sound ctx) (h : ctx.Trims f n ctx') : Sound ctx' := by
  induction h with
  | refl => exact hs
  | tail _ hstep ih => exact hstep.sound ih

/-! ## What a run leaves as it is -/

/-- **An instruction that may read other locals** and is otherwise the same. -/
structure Rereads (ctx : Context) (x' x : Instruction) : Prop where
  opcode : x'.opcode = x.opcode
  results : x'.results = x.results
  block : x'.block = x.block
  count : x'.operands.length = x.operands.length
  operand : ∀ k : Nat, x'.operands[k]? = x.operands[k]? ∨
    x.operands[k]?.any ctx.isLocal ∧ x'.operands[k]?.any ctx.isLocal

/-- **A context that differs from another in some blocks only**, the ones
`inside`. Values differ in what these blocks hold only, and bodies have lost
instructions only; ends, lengths and neighbours are those of the bodies that
are left. An instruction that is left may read other locals, if it was in one
of these blocks, and is otherwise the same; none is new. -/
structure Trimmed (ctx' ctx : Context) (inside : ValueId → Prop) : Prop where
  id : ctx'.id = ctx.id
  constants : ctx'.constants = ctx.constants
  contracts : ctx'.contracts = ctx.contracts
  nextInst : ctx'.nextInst = ctx.nextInst
  value : ∀ v, ctx'.value? v = (ctx.value? v).map fun x => x.mapBlock fun _ => ctx'.block v
  threaded : Threaded ctx'
  body : ∀ b, (ctx'.body b).Sublist (ctx.body b)
  inst : ∀ i x', ctx'.inst? i = some x' → ∃ x, ctx.inst? i = some x ∧ ctx.Rereads x' x
  kept_body : ∀ b, ¬inside b → ctx'.body b = ctx.body b
  kept_inst : ∀ i, (∀ b, inside b → i ∉ ctx.body b) → ctx'.inst? i = ctx.inst? i

theorem Rereads.refl (ctx : Context) (x : Instruction) : ctx.Rereads x x :=
  ⟨rfl, rfl, rfl, rfl, fun _ => .inl rfl⟩

theorem Rereads.trans {x'' x' : Instruction} (h : ctx.Rereads x'' x') (h' : ctx.Rereads x' x) :
    ctx.Rereads x'' x := by
  refine ⟨h.opcode.trans h'.opcode, h.results.trans h'.results, h.block.trans h'.block,
    h.count.trans h'.count, fun k => ?_⟩
  rcases h.operand k with hsame | ⟨hmid, hnew⟩
  · rw [hsame]
    exact h'.operand k
  · rcases h'.operand k with hsame | ⟨hold, -⟩
    · rw [hsame] at hmid
      exact .inr ⟨hmid, hnew⟩
    · exact .inr ⟨hold, hnew⟩

/-- A value that differs in what it holds as a block holds what the context
says. -/
theorem value?_of_mapBlock {g : BlockBody → BlockBody}
    (h : ctx'.value? v = (ctx.value? v).map fun x => x.mapBlock g) :
    ctx'.value? v = (ctx.value? v).map fun x => x.mapBlock fun _ => ctx'.block v := by
  rw [block, h]
  cases ctx.value? v with
  | none => rfl
  | some x => exact congrArg some (x.mapBlock_block? g).symm

theorem value?_of_same (h : ctx'.value? v = ctx.value? v) :
    ctx'.value? v = (ctx.value? v).map fun x => x.mapBlock fun _ => ctx'.block v := by
  have hsame : ctx'.value? v = (ctx.value? v).map fun x => x.mapBlock fun y => y := by simp [h]
  exact value?_of_mapBlock hsame

/-- Taking an instruction out shows in what blocks hold. -/
theorem value?_unplaced (v : ValueId) :
    ∃ g, (ctx.unplaced i b).value? v = (ctx.value? v).map fun x => x.mapBlock g := by
  obtain ⟨g, hg⟩ := (relinks_unlink (i := i) (b := b)).value? v
  rw [unplaced, hg, value?_updateInst, value?_update]
  split
  · exact ⟨fun y => g { y with toList := (ctx.body b).erase i }, by
      simp [Value.setBody, Function.comp_def]⟩
  · exact ⟨g, rfl⟩

/-- Values that differ in what blocks hold have the same kinds, parents and
members. -/
theorem SameMembers.of_mapBlock
    (h : ∀ v, ∃ g, ctx'.value? v = (ctx.value? v).map fun x => x.mapBlock g) :
    SameMembers ctx' ctx := by
  constructor
  · funext v
    obtain ⟨g, hv⟩ := h v
    rw [kind?, kind?, hv, Option.map_map]
    exact congrArg (Option.map · _) (funext fun x => x.kind_mapBlock g)
  · funext v
    obtain ⟨g, hv⟩ := h v
    rw [parent?, parent?, hv, Option.bind_map]
    exact congrArg (Option.bind _) (funext fun x => x.parent_mapBlock g)
  · funext v list
    obtain ⟨g, hv⟩ := h v
    rw [Context.members, Context.members, hv, Option.map_map]
    refine congrArg (fun e => (Option.map e _).getD []) (funext fun x => ?_)
    exact congrFun (x.members_mapBlock g) list

theorem nameOf_of_mapBlock {g : BlockBody → BlockBody}
    (h : ctx'.value? v = (ctx.value? v).map fun x => x.mapBlock g) :
    ctx'.nameOf v = ctx.nameOf v := by
  rw [nameOf, nameOf, h, Option.map_map]
  exact congrArg (fun e => (Option.map e _).getD "") (funext fun x => x.label_mapBlock g)

namespace Trimmed

variable {inside outside : ValueId → Prop}

theorem refl (ht : Threaded ctx) (inside : ValueId → Prop) : Trimmed ctx ctx inside :=
  ⟨rfl, rfl, rfl, rfl, fun _ => value?_of_same rfl, ht, fun _ => .refl _,
    fun _ x hx => ⟨x, hx, .refl ctx x⟩, fun _ _ => rfl, fun _ _ => rfl⟩

theorem sameMembers (h : Trimmed ctx' ctx inside) : SameMembers ctx' ctx :=
  .of_mapBlock fun v => ⟨_, h.value v⟩

theorem nameOf (h : Trimmed ctx' ctx inside) (v : ValueId) : ctx'.nameOf v = ctx.nameOf v :=
  nameOf_of_mapBlock (h.value v)

theorem trans (h : Trimmed ctx'' ctx' inside) (h' : Trimmed ctx' ctx inside) :
    Trimmed ctx'' ctx inside where
  id := h.id.trans h'.id
  constants := h.constants.trans h'.constants
  contracts := h.contracts.trans h'.contracts
  nextInst := h.nextInst.trans h'.nextInst
  value v := by
    rw [h.value, h'.value, Option.map_map]
    exact congrArg (Option.map · _) (funext fun x => x.mapBlock_mapBlock _ _)
  threaded := h.threaded
  body b := (h.body b).trans (h'.body b)
  inst i x'' hx'' := by
    obtain ⟨x', hx', hreads⟩ := h.inst i x'' hx''
    obtain ⟨x, hx, hreads'⟩ := h'.inst i x' hx'
    have hlocal : ctx'.isLocal = ctx.isLocal := by
      funext v
      rw [isLocal, isLocal, h'.sameMembers.kind]
    refine ⟨x, hx, Rereads.trans ⟨hreads.opcode, hreads.results, hreads.block, hreads.count, ?_⟩
      hreads'⟩
    rw [← hlocal]
    exact hreads.operand
  kept_body b hb := (h.kept_body b hb).trans (h'.kept_body b hb)
  kept_inst i hi := by
    refine (h.kept_inst i fun b hb hmem => ?_).trans (h'.kept_inst i hi)
    exact hi b hb ((h'.body b).subset hmem)

/-- Fewer blocks stay as they are. -/
theorem mono (h : Trimmed ctx' ctx inside) (hle : ∀ b, inside b → outside b) :
    Trimmed ctx' ctx outside :=
  ⟨h.id, h.constants, h.contracts, h.nextInst, h.value, h.threaded, h.body, h.inst,
    fun b hb => h.kept_body b fun hin => hb (hle b hin),
    fun i hi => h.kept_inst i fun b hb => hi b (hle b hb)⟩

end Trimmed

/-- A replaced local leaves an instruction that may read other locals. -/
theorem rereads_setOperand {w : ValueId} {k : Nat} (old : x.operands[k]? = some w)
    (old_local : ctx.isLocal w) (new_local : ctx.isLocal v) : ctx.Rereads (x.setOperand k v) x := by
  refine ⟨rfl, rfl, rfl, List.length_set, fun j => ?_⟩
  by_cases hj : k = j
  · subst hj
    have hk : k < x.operands.length := (List.getElem?_eq_some_iff.1 old).1
    refine .inr ⟨by rw [old]; exact old_local, ?_⟩
    rw [Instruction.setOperand, List.getElem?_set_self hk]
    exact new_local
  · exact .inl (List.getElem?_set_ne hj)

/-- **What a step leaves as it is.** -/
theorem Trim.trimmed (hs : Sound ctx) (h : ctx.Trim f n ctx') :
    Trimmed ctx' ctx (· ∈ ctx.members f .blocks) := by
  have hthreaded := (h.sound hs).threaded
  cases h with
  | @reread i x b w v k live block inside old old_local new_local _ =>
    have hbody : (ctx.withOperand i k v).body = ctx.body := body_congr skeleton?_updateInst
    refine ⟨Untouched.id.withOperand, Untouched.constants.withOperand,
      Untouched.contracts.withOperand, Untouched.nextInst.withOperand, fun u => ?_, hthreaded,
      fun c => by rw [hbody], fun j y hy => ?_, fun c _ => by rw [hbody], fun j hj => ?_⟩
    · exact value?_of_same value?_updateInst
    · rw [inst?_withOperand live] at hy
      split at hy
      · rename_i hj
        rw [hj, ← Option.some.inj hy]
        exact ⟨x, live, rereads_setOperand old old_local new_local⟩
      · exact ⟨y, hy, .refl ctx y⟩
    · rw [inst?_withOperand live, if_neg]
      rintro rfl
      exact hj b inside (hs.threaded.mem_of_block live block)
  | @erase i x b live block inside =>
    have hgone := hs.threaded.without_erased live block
    have hi := hs.threaded.mem_of_block live block
    have hvalue : ∀ u, ∃ g, ((ctx.unplaced i b).destroyed i).value? u =
        (ctx.value? u).map fun x => x.mapBlock g := by
      intro u
      rw [destroyed, value?_updateCell]
      exact value?_unplaced u
    have hkept : ∀ {α : Type} {g : Context → α}, Untouched g →
        g ((ctx.unplaced i b).destroyed i) = g ctx := fun h => h.destroyed.trans h.unplaced
    refine ⟨hkept .id, hkept .constants, hkept .contracts, hkept .nextInst,
      fun u => (hvalue u).elim fun _ => value?_of_mapBlock, hthreaded, fun c => ?_,
      fun j y hy => ?_, fun c hc => ?_, fun j hj => ?_⟩
    · rw [hgone.body]
      exact List.filter_sublist
    · rw [hgone.inst] at hy
      split at hy
      · cases hy
      · exact ⟨y, hy, .refl ctx y⟩
    · rw [hgone.body, List.filter_eq_self]
      intro j hj
      -- The instruction that is gone is in one block only, which is not this one.
      have hne : j ≠ i := by
        rintro rfl
        rw [hs.threaded.mem_iff, blockOf?_of_live live, block] at hj
        exact hc (Option.some.inj hj ▸ inside)
      simp [hne]
    · rw [hgone.inst, if_neg]
      simp only [decide_eq_true_eq]
      rintro rfl
      exact hj b inside hi

/-- **What a run leaves as it is.** -/
theorem Trims.trimmed (hs : Sound ctx) (h : ctx.Trims f n ctx') :
    Trimmed ctx' ctx (· ∈ ctx.members f .blocks) := by
  induction h with
  | refl => exact .refl hs.threaded _
  | tail hrun hstep ih =>
    have hlast := hstep.trimmed (hrun.sound hs)
    rw [ih.sameMembers.members] at hlast
    exact hlast.trans ih

/-- A run that destroys nothing leaves the bodies. -/
theorem Trims.body_eq (h : ctx.Trims f 0 ctx') : ctx'.body = ctx.body := by
  generalize hn : 0 = n at h
  induction h with
  | refl => rfl
  | tail _ hstep ih =>
    obtain ⟨hzero, hlast⟩ := Nat.add_eq_zero_iff.1 hn.symm
    rw [← ih hzero.symm]
    cases hstep with
    | reread => exact body_congr skeleton?_updateInst
    | erase => cases hlast

/-! ## How many instructions are gone -/

/-- The instructions of a function, block by block. -/
def instsOf (ctx : Context) (f : ValueId) : List InstId :=
  (ctx.members f .blocks).flatMap ctx.body

theorem mem_instsOf : i ∈ ctx.instsOf f ↔ ∃ b ∈ ctx.members f .blocks, i ∈ ctx.body b :=
  List.mem_flatMap

/-- They are told apart: a function names a block once, and an instruction is
in one block. -/
theorem nodup_instsOf (hs : Sound ctx) (f : ValueId) : (ctx.instsOf f).Nodup := by
  refine List.nodup_flatMap.2 ⟨fun b _ => hs.threaded.nodup b, ?_⟩
  refine (hs.membered.nodup f .blocks).imp fun {b c} hne => ?_
  intro i hb hc
  rw [hs.threaded.mem_iff] at hb hc
  exact hne (Option.some.inj (hb.symm.trans hc))

/-- A step makes a function shorter by as many instructions as it destroys. -/
theorem Trim.length_instsOf (hs : Sound ctx) (h : ctx.Trim f n ctx') :
    (ctx.instsOf f).length = (ctx'.instsOf f).length + n := by
  cases h with
  | reread =>
    rw [instsOf, instsOf, SameMembers.withOperand.members, withOperand,
      body_congr skeleton?_updateInst]
    rfl
  | @erase i x b live block inside =>
    have hgone := hs.threaded.without_erased live block
    have hi : i ∈ ctx.instsOf f :=
      mem_instsOf.2 ⟨b, inside, hs.threaded.mem_of_block live block⟩
    have hrest : ((ctx.unplaced i b).destroyed i).instsOf f = (ctx.instsOf f).erase i := by
      rw [(nodup_instsOf hs f).erase_eq_filter, instsOf, instsOf, List.filter_flatMap,
        hgone.same.members]
      exact congrArg (List.flatMap · _) (funext hgone.body)
    rw [hrest, List.length_erase_of_mem hi]
    have hpos := List.length_pos_of_mem hi
    omega

theorem Trims.length_instsOf (hs : Sound ctx) (h : ctx.Trims f n ctx') :
    (ctx.instsOf f).length = (ctx'.instsOf f).length + n := by
  induction h with
  | refl => rfl
  | tail hrun hstep ih =>
    have hlast := hstep.length_instsOf (hrun.sound hs)
    omega

/-! ## What a function uses -/

/-- **A function that uses what is its own**: the locals, arguments and blocks
that its instructions use are its members. What counts as used is given. -/
def SelfContained (ctx : Context) (used : Instruction → List ValueId) (f : ValueId) : Prop :=
  ∀ b ∈ ctx.members f .blocks, ∀ i ∈ ctx.body b, ∀ x, ctx.inst? i = some x →
    ∀ v ∈ used x, (ctx.kind? v).any Kind.isFunctionLocal → ctx.parent? v = some f

instance (ctx : Context) (used : Instruction → List ValueId) (f : ValueId) :
    Decidable (ctx.SelfContained used f) :=
  inferInstanceAs (Decidable (∀ b ∈ ctx.members f .blocks, ∀ i ∈ ctx.body b, ∀ x ∈ ctx.inst? i,
    ∀ v ∈ used x, (ctx.kind? v).any Kind.isFunctionLocal → ctx.parent? v = some f))

/-- What an operand that was replaced adds to what is used: the new one. -/
def OperandLocal (used : Instruction → List ValueId) : Prop :=
  ∀ x k v, ∀ w ∈ used (x.setOperand k v), w ∈ used x ∨ w = v

theorem operandLocal_operands : OperandLocal Instruction.operands :=
  fun _ _ _ _ hw => List.mem_or_eq_of_mem_set hw

theorem operandLocal_references : OperandLocal Instruction.references :=
  fun _ _ _ _ hw => mem_references_setOperand hw

/-- The function of an instruction in one of its blocks. -/
theorem bind_parentOfKind?_of_mem (hm : Membered ctx) (hblock : x.block = some b)
    (hb : b ∈ ctx.members f .blocks) :
    x.block.bind (ctx.parentOfKind? .function) = some f := by
  rw [hblock]
  exact parentOfKind?_eq_some.2 ⟨hm.parent hb, kind?_of_mem_members hb⟩

variable {used : Instruction → List ValueId}

/-- **A step leaves a function that uses what is its own.** -/
theorem Trim.selfContained (hs : Sound ctx) (hused : OperandLocal used) (h : ctx.Trim f n ctx')
    (hself : ctx.SelfContained used f) : ctx'.SelfContained used f := by
  have htrimmed := h.trimmed hs
  intro b hb i hi y hy v hv
  rw [htrimmed.sameMembers.members] at hb
  rw [htrimmed.sameMembers.kind, htrimmed.sameMembers.parent]
  have hi' := (htrimmed.body b).subset hi
  cases h with
  | @reread j x c w u k live block inside _ _ _ checked =>
    rw [inst?_withOperand live] at hy
    split at hy
    · rename_i hij
      subst hij
      rw [← Option.some.inj hy] at hv
      rcases hused x k u v hv with hold | rfl
      · exact hself b hb i hi' x live v hold
      · exact (belongs_of_checkOperand checked
          (bind_parentOfKind?_of_mem hs.membered block inside)).parent?
    · exact hself b hb i hi' y hy v hv
  | erase live block =>
    rw [(hs.threaded.without_erased live block).inst] at hy
    split at hy
    · cases hy
    · exact hself b hb i hi' y hy v hv

theorem Trims.selfContained (hs : Sound ctx) (hused : OperandLocal used) (h : ctx.Trims f n ctx')
    (hself : ctx.SelfContained used f) : ctx'.SelfContained used f := by
  induction h with
  | refl => exact hself
  | tail hrun hstep ih => exact hstep.selfContained (hrun.sound hs) hused ih

end Context

end ContractIR
