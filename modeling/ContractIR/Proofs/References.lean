import ContractIR.Proofs.Shapes
/-!
# References into functions

An instruction in a block of a function refers to locals, arguments and blocks
of that function. The check of it is spread over creation, insertion and
transfer of instructions, replacement of operands, and insertion and transfer
of blocks. Here is why no path is left unchecked: in every change of a
context, a reference of an instruction to a value is an old one or has just
been checked, and a value stays a member of its function unless it is taken
away. So a reference dangles only when the value it names is taken away from
the function.
-/

namespace ContractIR

namespace Context

variable (ctx : Context)

/-- The function an instruction is in: the one that has its block. -/
def functionOf? (i : InstId) : Option ValueId :=
  (ctx.blockOf? i).bind (ctx.parentOfKind? .function)

/-- An instruction of a function refers to a value. -/
def Refers (f : ValueId) (i : InstId) (v : ValueId) : Prop :=
  ctx.functionOf? i = some f ∧ ∃ x, ctx.inst? i = some x ∧ v ∈ x.references

/-- **A dangling reference**: an instruction of a function refers to a local,
an argument or a block that is no member of the function. -/
def Dangling (i : InstId) (v : ValueId) : Prop :=
  ∃ f, ctx.Refers f i v ∧ (ctx.kind? v).any Kind.isFunctionLocal ∧ ctx.parent? v ≠ some f

variable {ctx} {ctx' : Context} {f b v p : ValueId} {i : InstId} {x : Instruction} {k : Kind}

theorem parentOfKind?_eq_some :
    ctx.parentOfKind? k v = some p ↔ ctx.parent? v = some p ∧ ctx.kind? p = some k := by
  simp [parentOfKind?, Option.filter_eq_some_iff]

theorem refers_iff : ctx.Refers f i v ↔ ∃ x b, ctx.inst? i = some x ∧ x.block = some b ∧
    ctx.parentOfKind? .function b = some f ∧ v ∈ x.references := by
  constructor
  · rintro ⟨hfunction, x, hx, hv⟩
    obtain ⟨b, hb, hf⟩ := Option.bind_eq_some_iff.1 hfunction
    rw [blockOf?_of_live hx] at hb
    exact ⟨x, b, hx, hb, hf, hv⟩
  · rintro ⟨x, b, hx, hb, hf, hv⟩
    refine ⟨?_, x, hx, hv⟩
    rw [functionOf?, blockOf?_of_live hx, hb]
    exact hf

/-- The function that an instruction refers from is a function. -/
theorem Refers.kind? (h : ctx.Refers f i v) : ctx.kind? f = some .function := by
  obtain ⟨x, b, -, -, hf, -⟩ := refers_iff.1 h
  exact (parentOfKind?_eq_some.1 hf).2

theorem Belongs.parent? (h : ctx.Belongs f v)
    (hlocal : (ctx.kind? v).any Kind.isFunctionLocal) : ctx.parent? v = some f := by
  obtain ⟨k, hk, hmember⟩ := h
  rw [hk] at hlocal
  exact hmember hlocal

end Context

/-- Blocks are in one list. -/
theorem MemberList.eq_blocks {list : MemberList} (h : list.memberKind = .block) :
    list = .blocks := by
  cases list <;> first | rfl | cases h

open Context

variable {ctx ctx' : Context} {taken : List ValueId} {f v p : ValueId} {i : InstId}

/-- What does not dangle belongs to the function. -/
theorem WellShaped.belongs_of_not_dangling (h : WellShaped ctx) (hrefers : ctx.Refers f i v)
    (hdangling : ¬ctx.Dangling i v) : ctx.Belongs f v := by
  have ⟨_, x, hx, hv⟩ := hrefers
  obtain ⟨k, hk⟩ := exists_kind?_of_ownsValue ((h.shaped hx).owned v hv)
  refine ⟨k, hk, fun hlocal => ?_⟩
  by_contra hparent
  exact hdangling ⟨f, hrefers, by rw [hk]; exact hlocal, hparent⟩

/-- What has instructions is in a list of blocks. -/
theorem Threaded.eq_blocks (h : Threaded ctx) {x : Instruction} {b : ValueId} {list : MemberList}
    (hx : ctx.inst? i = some x) (hb : x.block = some b)
    (hkind : ctx.kind? b = some list.memberKind) : list = .blocks := by
  rw [h.kind?_of_block hx hb] at hkind
  exact MemberList.eq_blocks (Option.some.inj hkind).symm

/-- What belongs to a function is no block of another one. -/
theorem Membered.eq_of_belongs (h : Membered ctx) (hv : v ∈ ctx.members p .blocks)
    (hbelongs : ctx.Belongs f v) : p = f := by
  have hlocal : (ctx.kind? v).any Kind.isFunctionLocal := by
    rw [h.kind hv]
    rfl
  exact Option.some.inj ((h.parent hv).symm.trans (hbelongs.parent? hlocal))

/-! ## Members stay where they are

Only what a change takes away loses its parent. -/

namespace Change

theorem parent?_of_parent? (hm : Membered ctx) (hc : Change ctx taken ctx')
    (h : ctx.parent? v = some p) (hkept : v ∉ taken) : ctx'.parent? v = some p := by
  have hsame : ctx'.parent? = ctx.parent? → ctx'.parent? v = some p := fun hparent => by
    rw [hparent]
    exact h
  cases hc with
  | intern => exact hsame parent?_intern
  | push => exact hsame parent?_push
  | enlist => exact h
  | rename => exact hsame (parent?_congr skeleton?_renamed)
  | attach _ hmember _ _ hfree =>
    rw [parent?_attached (ownsValue_of_kind? (kind?_of_value? hmember))]
    split
    · -- What is attached had no parent.
      rename_i hv
      rw [hv, parent?_of_value? hmember, hfree] at h
      cases h
    · exact h
  | detach _ _ _ _ _ hmem =>
    rw [parent?_detached (hm.owned hmem), if_neg fun hv => hkept (List.mem_singleton.2 hv)]
    exact h
  | transfer =>
    rw [parent?_transferred fun w hw => hm.owned hw, if_neg hkept]
    exact h
  | annotate only => exact hsame (parent?_congr (skeleton?_update_of_keeps only.skeleton))
  | waste | create => exact h
  | place => exact hsame SameMembers.placed.parent
  | move => exact hsame (SameMembers.placed.trans .unplaced).parent
  | unplace => exact hsame SameMembers.unplaced.parent
  | destroy => exact hsame SameMembers.destroyed.parent
  | setOperand => exact hsame SameMembers.withOperand.parent

/-- What belongs to a function still does if it is not taken away. -/
theorem belongs (hm : Membered ctx) (hc : Change ctx taken ctx') (h : ctx.Belongs f v)
    (hkept : v ∉ taken) : ctx'.Belongs f v := by
  obtain ⟨k, hk, hmember⟩ := h
  exact ⟨k, hc.kind?_of_kind? hk, fun hlocal => hc.parent?_of_parent? hm (hmember hlocal) hkept⟩

/-- A parent that is the same after a change was of the same kind before. -/
theorem parentOfKind?_of_same (hm : Membered ctx) (hc : Change ctx taken ctx') {k : Kind}
    (hsame : ctx'.parent? v = ctx.parent? v) (h : ctx'.parentOfKind? k v = some p) :
    ctx.parentOfKind? k v = some p := by
  obtain ⟨hparent, hkind⟩ := parentOfKind?_eq_some.1 h
  rw [hsame] at hparent
  refine parentOfKind?_eq_some.2 ⟨hparent, ?_⟩
  obtain ⟨l, hl⟩ := hm.listed hparent
  have hp := kind?_of_mem_members hl
  rw [hc.kind?_of_kind? hp] at hkind
  rw [hp, hkind]

/-! ## References are old or checked -/

/-- Changes to members alone: an instruction refers to what it referred to,
unless its block has got another parent. -/
theorem refers_of_same_insts (hm : Membered ctx) (hc : Change ctx taken ctx')
    (hinst : ctx'.inst? = ctx.inst?) (h : ctx'.Refers f i v) :
    ctx.Refers f i v ∨ ∃ x b, ctx.inst? i = some x ∧ x.block = some b ∧ v ∈ x.references ∧
      ctx'.parent? b = some f ∧ ctx'.parent? b ≠ ctx.parent? b := by
  obtain ⟨x, b, hx, hb, hf, hv⟩ := refers_iff.1 h
  rw [hinst] at hx
  by_cases hsame : ctx'.parent? b = ctx.parent? b
  · exact .inl (refers_iff.2 ⟨x, b, hx, hb, hc.parentOfKind?_of_same hm hsame hf, hv⟩)
  · exact .inr ⟨x, b, hx, hb, hv, (parentOfKind?_eq_some.1 hf).1, hsame⟩

/-- Changes to one instruction: all others refer to what they referred to. -/
theorem refers_of_same_members (hsame : SameMembers ctx' ctx) {j : InstId}
    {y : Option Instruction} (hinst : ∀ i, ctx'.inst? i = if i = j then y else ctx.inst? i)
    (h : ctx'.Refers f i v) :
    ctx.Refers f i v ∨ ∃ x b, i = j ∧ y = some x ∧ x.block = some b ∧
      ctx.parentOfKind? .function b = some f ∧ v ∈ x.references := by
  obtain ⟨x, b, hx, hb, hf, hv⟩ := refers_iff.1 h
  rw [hsame.parentOfKind?] at hf
  rw [hinst] at hx
  split at hx
  · exact .inr ⟨x, b, ‹i = j›, hx, hb, hf, hv⟩
  · exact .inl (refers_iff.2 ⟨x, b, hx, hb, hf, hv⟩)

/-- **A reference after a change is an old one, or its value has been checked
to belong to the function** and stays there. -/
theorem refers (hs : Sound ctx) (hc : Change ctx taken ctx') (h : ctx'.Refers f i v) :
    ctx.Refers f i v ∨ (ctx.Belongs f v ∧ v ∉ taken) := by
  have hinsts := fun hinst => hc.refers_of_same_insts hs.membered hinst h
  have hsame : ctx'.inst? = ctx.inst? → ctx'.parent? = ctx.parent? →
      ctx.Refers f i v ∨ (ctx.Belongs f v ∧ v ∉ taken) := by
    intro hinst hparent
    refine (hinsts hinst).elim .inl ?_
    rintro ⟨x, b, -, -, -, -, hmoved⟩
    exact absurd (congrFun hparent b) hmoved
  cases hc with
  | intern n hex =>
    refine hsame ?_ parent?_intern
    unfold Context.intern
    split <;> rfl
  | push => exact hsame rfl parent?_push
  | enlist => exact hsame rfl rfl
  | rename => exact hsame OffValues.inst?.renamed (parent?_congr skeleton?_renamed)
  | annotate only =>
    exact hsame (funext fun _ => inst?_update)
      (parent?_congr (skeleton?_update_of_keeps only.skeleton))
  | attach _ hmember _ hmk _ hadmitted =>
    refine (hinsts OffValues.inst?.attached).elim .inl ?_
    rintro ⟨x, b, hx, hb, hv, hparent, hmoved⟩
    rw [parent?_attached (ownsValue_of_kind? (kind?_of_value? hmember))] at hparent hmoved
    split at hparent
    · rename_i hentered
      subst hentered
      obtain rfl := Option.some.inj hparent
      obtain rfl := hs.threaded.eq_blocks hx hb (by rw [kind?_of_value? hmember, hmk])
      have hmem := hs.threaded.mem_of_block hx hb
      exact .inr ⟨belongs_of_checkAdmission hadmitted hmem hx v hv, List.not_mem_nil⟩
    · exact absurd (if_neg ‹_›) hmoved
  | detach _ _ _ _ _ hmem =>
    refine (hinsts OffValues.inst?.detached).elim .inl ?_
    rintro ⟨x, b, -, -, -, hparent, hmoved⟩
    rw [parent?_detached (hs.membered.owned hmem)] at hparent hmoved
    split at hparent
    · cases hparent
    · exact absurd (if_neg ‹_›) hmoved
  | transfer _ _ hother _ _ _ _ hadmitted =>
    refine (hinsts OffValues.inst?.transferred).elim .inl ?_
    rintro ⟨x, b, hx, hb, hv, hparent, hmoved⟩
    rw [parent?_transferred fun w hw => hs.membered.owned hw] at hparent hmoved
    split at hparent
    · rename_i hentered
      obtain rfl := Option.some.inj hparent
      have hlisted := Sequence.mem_of_mem_slice hentered
      obtain rfl := hs.threaded.eq_blocks hx hb (hs.membered.kind hlisted)
      have hbelongs := belongs_of_checkAdmission (forM_eq_ok.1 hadmitted b hentered)
        (hs.threaded.mem_of_block hx hb) hx v hv
      -- All that is moved are blocks of the source, so what belongs to the target stays.
      refine .inr ⟨hbelongs, fun htaken => hother ?_⟩
      exact hs.membered.eq_of_belongs (Sequence.mem_of_mem_slice htaken) hbelongs
    · exact absurd (if_neg ‹_›) hmoved
  | waste =>
    refine (refers_of_same_members .pushInst (fun _ => inst?_pushInst) h).elim .inl ?_
    rintro ⟨x, b, -, hx, -⟩
    cases hx
  | create _ free =>
    refine (refers_of_same_members .pushInst (fun _ => inst?_pushInst) h).elim .inl ?_
    rintro ⟨x, b, -, hx, hb, -⟩
    rw [← Option.some.inj hx, free] at hb
    cases hb
  | place hx _ _ _ hentry =>
    refine (refers_of_same_members .placed (fun _ => inst?_placed hx) h).elim .inl ?_
    rintro ⟨x, b, -, hplaced, hb, hf, hv⟩
    obtain rfl := Option.some.inj hplaced
    obtain rfl := Option.some.inj hb
    exact .inr ⟨hentry f hf v hv, List.not_mem_nil⟩
  | move hx _ _ _ hentry =>
    refine (refers_of_same_members (.trans .placed .unplaced) (fun _ => inst?_moved hx) h).elim
      .inl ?_
    rintro ⟨x, b, rfl, hmoved, hb, hf, hv⟩
    obtain rfl := Option.some.inj hmoved
    obtain rfl := Option.some.inj hb
    rcases hentry with hadmits | ⟨source, hmem, hfunction⟩
    · exact .inr ⟨hadmits f hf v hv, List.not_mem_nil⟩
    · -- It comes from the function it goes to.
      obtain ⟨y, hy, hsource⟩ := hs.threaded.live hmem
      obtain rfl := Option.some.inj (hy.symm.trans hx)
      exact .inl (refers_iff.2 ⟨_, source, hx, hsource, hfunction.trans hf, hv⟩)
  | unplace hx =>
    refine (refers_of_same_members .unplaced (fun _ => inst?_unplaced hx) h).elim .inl ?_
    rintro ⟨x, b, -, hfree, hb, -⟩
    obtain rfl := Option.some.inj hfree
    cases hb
  | destroy hx =>
    refine (refers_of_same_members .destroyed (fun _ => inst?_destroyed) h).elim .inl ?_
    rintro ⟨x, b, -, hgone, -⟩
    cases hgone
  | setOperand hx _ hcheck =>
    refine (refers_of_same_members .withOperand (fun _ => inst?_withOperand hx) h).elim .inl ?_
    rintro ⟨x, b, rfl, hset, hb, hf, hv⟩
    obtain rfl := Option.some.inj hset
    rcases mem_references_setOperand hv with hv | rfl
    · exact .inl (refers_iff.2 ⟨_, b, hx, hb, hf, hv⟩)
    · refine .inr ⟨belongs_of_checkOperand hcheck ?_, List.not_mem_nil⟩
      exact Option.bind_eq_some_iff.2 ⟨b, hb, hf⟩

/-- **A change makes a reference dangle only by taking its value away** from
the function of the instruction. -/
theorem dangling (hs : Sound ctx) (hc : Change ctx taken ctx') (h : ctx'.Dangling i v) :
    ctx.Dangling i v ∨ (v ∈ taken ∧ ∃ f, ctx.Refers f i v ∧ ctx'.Refers f i v ∧
      ctx.parent? v = some f ∧ ctx'.parent? v ≠ some f) := by
  obtain ⟨f, hrefers, hlocal, hparent⟩ := h
  have hlost : ctx.Belongs f v → v ∈ taken := by
    intro hbelongs
    by_contra hkept
    exact hparent ((hc.belongs hs.membered hbelongs hkept).parent? hlocal)
  rcases hc.refers hs hrefers with hold | ⟨hbelongs, hkept⟩
  · by_cases hdangling : ctx.Dangling i v
    · exact .inl hdangling
    · have hbelongs := hs.shaped.belongs_of_not_dangling hold hdangling
      have ⟨k, hk, hmember⟩ := hbelongs
      rw [hc.kind?_of_kind? hk] at hlocal
      exact .inr ⟨hlost hbelongs, f, hold, hrefers, hmember hlocal, hparent⟩
  · exact absurd (hlost hbelongs) hkept

end Change

/-! ## Operations -/

/-- Changes that take nothing away make no reference dangle. -/
theorem Evolves.dangling (hs : Sound ctx) (h : Evolves ctx ctx') (hdangling : ctx'.Dangling i v) :
    ctx.Dangling i v := by
  suffices hboth : Sound ctx' ∧ (ctx'.Dangling i v → ctx.Dangling i v) from hboth.2 hdangling
  refine h.keeps (P := fun c => Sound c ∧ (c.Dangling i v → ctx.Dangling i v)) ?_ ⟨hs, id⟩
  intro c c' ⟨hsound, hold⟩ hc
  refine ⟨hsound.step hc, fun hnew => ?_⟩
  rcases hc.dangling hsound hnew with hwas | ⟨htaken, -⟩
  · exact hold hwas
  · exact absurd htaken List.not_mem_nil

namespace Operation

/-- An operation makes a reference dangle only if it takes its value away from
the function of the instruction. -/
theorem dangling_perform (hs : Sound ctx) {operation : Operation} (fit : operation.typed ctx)
    (h : (operation.perform.run ctx).context.Dangling i v) :
    ctx.Dangling i v ∨ (v ∈ operation.takesAway ctx ∧ ∃ f, ctx.Refers f i v ∧
      (operation.perform.run ctx).context.Refers f i v ∧ ctx.parent? v = some f ∧
      (operation.perform.run ctx).context.parent? v ≠ some f) := by
  rcases evolves_perform (fun _ _ _ hw => hs.membered.owned hw) fit with hevolves | hchange
  · exact .inl (hevolves.dangling hs h)
  · exact hchange.dangling hs h

/-- **An operation takes a value away from a function**: it detaches it, or
moves a run of the function's locals or blocks that has it. -/
def TakesFrom (ctx : Context) (f v : ValueId) (operation : Operation) : Prop :=
  operation = .detach v ∨ ∃ list target start stop before,
    operation = .transfer list f target start stop before ∧ (list = .locals ∨ list = .blocks) ∧
      v ∈ Sequence.slice start stop (ctx.members f list.list)

theorem takesFrom_of_mem (hm : Membered ctx) {operation : Operation}
    (htaken : v ∈ operation.takesAway ctx) (hparent : ctx.parent? v = some f)
    (hkind : ctx.kind? f = some .function) : operation.TakesFrom ctx f v := by
  cases operation with
  | detach w => exact .inl (by rw [List.mem_singleton.1 htaken])
  | transfer list source target start stop before =>
    have hmem := Sequence.mem_of_mem_slice htaken
    obtain rfl : source = f := Option.some.inj ((hm.parent hmem).symm.trans hparent)
    refine .inr ⟨list, target, start, stop, before, rfl, ?_, htaken⟩
    -- The other lists that can be moved from are lists of contracts.
    have howner := kind?_of_mem_members hmem
    rw [hkind] at howner
    cases list <;> simp [MovableList.list, MemberList.ownerKind] at howner ⊢
  | _ => exact absurd htaken List.not_mem_nil

/-- Whether an operation takes no member of a function away. -/
def spares (ctx : Context) (operation : Operation) : Bool :=
  (operation.takesAway ctx).all fun v => (ctx.parentOfKind? .function v).isNone

/-- Whether none of them does when its turn comes. -/
def allSpare : List Operation → Context → Bool
  | [], _ => true
  | operation :: operations, ctx =>
    operation.spares ctx && allSpare operations (operation.perform.run ctx).context

/-- Such an operation makes no reference dangle. -/
theorem dangling_of_spares (hs : Sound ctx) {operation : Operation} (fit : operation.typed ctx)
    (hspares : operation.spares ctx) (h : (operation.perform.run ctx).context.Dangling i v) :
    ctx.Dangling i v := by
  rcases dangling_perform hs fit h with hold | ⟨htaken, f, hrefers, -, hparent, -⟩
  · exact hold
  · have hnone := List.all_eq_true.1 hspares v htaken
    rw [parentOfKind?_eq_some.2 ⟨hparent, hrefers.kind?⟩] at hnone
    cases hnone

/-- Nor does any number of them. -/
theorem dangling_of_allSpare {operations : List Operation} :
    ∀ {ctx : Context}, Reachable ctx → allTyped operations ctx → allSpare operations ctx →
      (runAll operations ctx).Dangling i v → ctx.Dangling i v := by
  induction operations with
  | nil => intro ctx _ _ _ h; exact h
  | cons operation operations ih =>
    intro ctx hreachable fit hspare h
    obtain ⟨hfit, hfits⟩ := Bool.and_eq_true_iff.1 fit
    obtain ⟨hspares, hrest⟩ := Bool.and_eq_true_iff.1 hspare
    have hnext := ih (.step operation hfit hreachable) hfits hrest h
    exact dangling_of_spares hreachable.sound hfit hspares hnext

end Operation

theorem Context.not_dangling_empty (id : ContextId) : ¬({ id } : Context).Dangling i v := by
  rintro ⟨f, ⟨-, x, hx, -⟩, -⟩
  simp at hx

/-- **References dangle only when their values are taken away.** A reference
that an operation makes dangle was one to a member of its function, and the
operation takes the member away: it detaches it, or moves a run of the
function's locals or blocks that has it. So after operations that take no
member of a function away, every instruction of a function refers to what
belongs to the function. -/
theorem dangling_only_by_taking_away :
    (∀ (ctx : Context) (operation : Operation) i v, Reachable ctx → operation.typed ctx →
      (operation.perform.run ctx).context.Dangling i v → ¬ctx.Dangling i v →
      ∃ f, ctx.Refers f i v ∧ (operation.perform.run ctx).context.Refers f i v ∧
        ctx.parent? v = some f ∧ (operation.perform.run ctx).context.parent? v ≠ some f ∧
        operation.TakesFrom ctx f v) ∧
    (∀ id operations, Operation.allTyped operations { id } → Operation.allSpare operations { id } →
      ∀ f i v, (Operation.runAll operations { id }).Refers f i v →
        (Operation.runAll operations { id }).Belongs f v) := by
  constructor
  · intro ctx operation i v hreachable fit hnew hold
    have hs := hreachable.sound
    rcases Operation.dangling_perform hs fit hnew with
      hwas | ⟨htaken, f, hrefers, hafter, hparent, hlost⟩
    · exact absurd hwas hold
    · exact ⟨f, hrefers, hafter, hparent, hlost,
        Operation.takesFrom_of_mem hs.membered htaken hparent hrefers.kind?⟩
  · intro id operations fit hspare f i v hrefers
    have hreachable : Reachable (Operation.runAll operations { id }) :=
      (Reachable.empty id).runAll fit
    refine hreachable.sound.shaped.belongs_of_not_dangling hrefers fun hdangling => ?_
    exact not_dangling_empty id
      (Operation.dangling_of_allSpare (Reachable.empty id) fit hspare hdangling)

/-- A function with a local, and a copy of the local to itself: it was made in
a block that was then put into the function, and moved in front of the jump of
another block. -/
def copyMovedInside : List Operation :=
  [.createFunction true "" none, .createFunction true "" none, .createLocal "" (some ⟨0, 0⟩),
    .createBlock "" (some ⟨0, 0⟩) none, .createBlock "" none none,
    .createForm (.assign ⟨0, 2⟩ ⟨0, 2⟩) (.atEnd ⟨0, 4⟩), .insert .blocks ⟨0, 0⟩ ⟨0, 4⟩ none,
    .createForm (.jump ⟨0, 4⟩) (.atEnd ⟨0, 3⟩), .transferInsts ⟨0, 4⟩ 0 1 (.before ⟨0, 1⟩)]

/-- There the copy refers to a local of its function. When the local goes to
another function the reference dangles, and that is the operation that takes
it away. -/
theorem dangling_only_by_taking_away_copyMovedInside :
    Operation.allTyped copyMovedInside { id := 0 } ∧
      Operation.allSpare copyMovedInside { id := 0 } ∧
      (Operation.runAll copyMovedInside { id := 0 }).Belongs ⟨0, 0⟩ ⟨0, 2⟩ ∧
      ¬(Operation.runAll copyMovedInside { id := 0 }).Dangling ⟨0, 0⟩ ⟨0, 2⟩ ∧
      (Operation.runAll (copyMovedInside ++ [.transfer .locals ⟨0, 0⟩ ⟨0, 1⟩ 0 1 none])
        { id := 0 }).Dangling ⟨0, 0⟩ ⟨0, 2⟩ ∧
      (Operation.transfer .locals ⟨0, 0⟩ ⟨0, 1⟩ 0 1 none).TakesFrom
        (Operation.runAll copyMovedInside { id := 0 }) ⟨0, 0⟩ ⟨0, 2⟩ := by
  have hfit : Operation.allTyped copyMovedInside { id := 0 } := by decide
  have hspare : Operation.allSpare copyMovedInside { id := 0 } := by decide
  have hreachable : Reachable (Operation.runAll copyMovedInside { id := 0 }) :=
    (Reachable.empty 0).runAll hfit
  have hrefers : (Operation.runAll copyMovedInside { id := 0 }).Refers ⟨0, 0⟩ ⟨0, 0⟩ ⟨0, 2⟩ :=
    ⟨by decide, _, rfl, by decide⟩
  have hbelongs := dangling_only_by_taking_away.2 0 _ hfit hspare _ _ _ hrefers
  have hparent : (Operation.runAll copyMovedInside { id := 0 }).parent? ⟨0, 2⟩ = some ⟨0, 0⟩ := by
    decide
  have hdangling : (Operation.runAll (copyMovedInside ++
      [.transfer .locals ⟨0, 0⟩ ⟨0, 1⟩ 0 1 none]) { id := 0 }).Dangling ⟨0, 0⟩ ⟨0, 2⟩ :=
    ⟨⟨0, 0⟩, ⟨by decide, _, rfl, by decide⟩, by decide, by decide⟩
  have hold : ¬(Operation.runAll copyMovedInside { id := 0 }).Dangling ⟨0, 0⟩ ⟨0, 2⟩ := by
    rintro ⟨f, hrefers', -, hlost⟩
    obtain rfl := Option.some.inj (hrefers.1.symm.trans hrefers'.1)
    exact hlost hparent
  obtain ⟨f, hfrom, -, -, -, htakes⟩ :=
    dangling_only_by_taking_away.1 _ _ _ _ hreachable (by decide) hdangling hold
  obtain rfl := Option.some.inj (hrefers.1.symm.trans hfrom.1)
  exact ⟨hfit, hspare, hbelongs, hold, hdangling, htakes⟩

end ContractIR
