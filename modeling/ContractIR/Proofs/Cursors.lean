import ContractIR.Proofs.Semantics.Copies
import ContractIR.Proofs.Semantics.Erasure
/-!
# Loops with a cursor

Dead code elimination and copy propagation take the instructions of a block
from a list, the body as it was at the start, while they erase some of them.
Read with a cursor they are loops without a bound: the cursor starts at the
first instruction of the block, and each turn asks the context, as it is then,
where to go next. That is the next instruction of the one it looked at, or what
the erasure of that one answers.

`Loops` is the loop for any turn, and it ends in one way only. What is left of
the list is always what the cursor has ahead (`Context.Ahead`), so the lists and
the cursors do the same: `clears_iff_eliminateDeadCode` for dead code,
`loops_forwardFrom` and `loops_sweepCopies` for copies.
-/

namespace ContractIR

instance : Zero CopyTally := ⟨{}⟩

theorem CopyTally.zero_add (t : CopyTally) : 0 + t = t :=
  congrArg₂ mk (Nat.zero_add t.replacedReads) (Nat.zero_add t.selfCopies)

namespace Context

variable {ctx ctx' : Context} {b : ValueId} {i : InstId} {is pre post : List InstId}

/-- The instructions behind one in its block. -/
def behind (ctx : Context) (i : InstId) : List InstId :=
  match ctx.blockOf? i with
  | none => []
  | some b => ((ctx.body b).dropWhile fun j => decide (j ≠ i)).tail

/-- **What a cursor has ahead**: the rest of a block, in a context whose links
are those of its bodies. -/
structure Ahead (ctx : Context) (is : List InstId) : Prop where
  threaded : Threaded ctx
  suffix : ∃ b, is <:+ ctx.body b

namespace Ahead

theorem of_body (h : Threaded ctx) (b : ValueId) : ctx.Ahead (ctx.body b) :=
  ⟨h, b, List.suffix_rfl⟩

theorem congr (h : ctx.Ahead is) (ht : Threaded ctx') (hbody : ctx'.body = ctx.body) :
    ctx'.Ahead is := by
  obtain ⟨b, hb⟩ := h.suffix
  exact ⟨ht, b, by rwa [hbody]⟩

theorem tail (h : ctx.Ahead (i :: is)) : ctx.Ahead is := by
  obtain ⟨b, hb⟩ := h.suffix
  exact ⟨h.threaded, b, (List.suffix_cons i is).trans hb⟩

/-- The link of an instruction points to what it has ahead. -/
theorem nextInst? (h : ctx.Ahead (i :: is)) : ctx.nextInst? i = is.head? := by
  obtain ⟨b, pre, hb⟩ := h.suffix
  exact h.threaded.nextInst?_eq hb.symm

theorem behind_eq (h : ctx.Ahead (i :: is)) : ctx.behind i = is := by
  obtain ⟨b, pre, hb⟩ := h.suffix
  obtain ⟨hpre, x, hx, hblock⟩ := h.threaded.once hb.symm
  have hskip : ∀ j ∈ pre, decide (j ≠ i) = true :=
    fun j hj => decide_eq_true fun hji => hpre (hji ▸ hj)
  simp only [behind, blockOf?_of_live hx, hblock, ← hb, List.dropWhile_append_of_pos hskip,
    List.dropWhile_cons_of_neg, ne_eq, not_true_eq_false, decide_false, Bool.false_eq_true,
    not_false_eq_true, List.tail_cons]

/-- **Erasing** the instruction under the cursor answers what stood behind it,
and that is then ahead. -/
theorem eraseInst (h : ctx.Ahead (i :: is)) :
    (Edit.eraseInst i).Ensures (fun next c => next = is.head? ∧ c.Ahead is)
      (fun _ _ => True) ctx := by
  refine Edit.ensures_eraseInst (fun _ => trivial) fun x b hx hb => ⟨h.nextInst?, ?_⟩
  obtain ⟨c, pre, hc⟩ := h.suffix
  refine ⟨(h.threaded.unplaced hx hb).destroyed (inst?_unplaced_self hx) rfl, c, pre, ?_⟩
  rw [(h.threaded.without_erased hx hb).body, h.threaded.filter_eq hc.symm, if_pos rfl]

theorem replaceOperands (h : ctx.Ahead is) (i : InstId) (v : ValueId) (ks : List Nat) :
    (Edit.replaceOperands i v ks).Ensures (fun _ c => c.Ahead is) (fun _ _ => True) ctx := by
  induction ks generalizing ctx with
  | nil => exact h
  | cons k ks ih =>
    rw [Edit.replaceOperands, Edit.ensures_bind]
    refine Edit.ensures_setOperand (fun _ => trivial) fun x howned hx hcheck => ih ?_
    exact h.congr (h.threaded.step (.setOperand hx howned hcheck)) (Rewritten.withOperand hx).body

theorem forwardCopy (h : ctx.Ahead is) (target source : ValueId) (js : List InstId) :
    (Edit.forwardCopy target source js).Ensures (fun _ c => c.Ahead is) (fun _ _ => True) ctx := by
  induction js generalizing ctx with
  | nil => exact h
  | cons j js ih =>
    rw [Edit.forwardCopy]
    refine .look (.check (fun _ => trivial) fun x _ => ?_)
    rw [Edit.ensures_bind]
    refine (h.replaceOperands j source _).mono fun _ c hc => ?_
    split
    · exact hc
    · rw [Edit.ensures_bind]
      exact (ih hc).mono fun _ _ hrest => hrest

end Ahead

end Context

namespace Edit

open Context

/-! ## The loop -/

/-- **A loop with a cursor.** As long as there is an instruction under the
cursor, a turn is taken on it, which gives what it did and where the cursor
goes. -/
inductive Loops {α : Type} [Add α] [Zero α] (turn : InstId → Edit (α × Option InstId)) :
    Option InstId → Context → Step α → Prop
  /-- With nothing under the cursor the loop is over. -/
  | ends {ctx : Context} : Loops turn none ctx ⟨.ok 0, ctx, []⟩
  /-- A turn that fails is the last. -/
  | fails {i : InstId} {ctx : Context} {fault : Fault}
      (failed : ((turn i).run ctx).outcome = .error fault) :
      Loops turn (some i) ctx
        ⟨.error fault, ((turn i).run ctx).context, ((turn i).run ctx).events⟩
  /-- After any other the loop goes on, and what the turns give adds up. -/
  | goes {i : InstId} {ctx : Context} {a : α} {next : Option InstId} {last : Step α}
      (went : ((turn i).run ctx).outcome = .ok (a, next))
      (rest : Loops turn next ((turn i).run ctx).context last) :
      Loops turn (some i) ctx ⟨last.outcome.map (a + ·), last.context,
        ((turn i).run ctx).events ++ last.events⟩

/-- An edit that first reads what is there goes on with it. -/
theorem run_read {α β : Type} {ctx : Context} {x : Context → Except Fault β} {k : β → Edit α}
    {b : β} (h : x ctx = .ok b) :
    (context >>= fun c => (liftM (x c) : Edit β) >>= k).run ctx = (k b).run ctx := by
  have hread : ((liftM (x ctx) : Edit β).run ctx).outcome = .ok b := h
  exact run_bind_of_ok hread

variable {α β : Type} [Add α] [Zero α] {turn : InstId → Edit (α × Option InstId)}
variable {ctx : Context} {l : Liveness} {i : InstId} {is : List InstId} {target source : ValueId}

/-- The loop ends in one way only. -/
theorem Loops.unique {cursor : Option InstId} {s s' : Step α} (h : Loops turn cursor ctx s)
    (h' : Loops turn cursor ctx s') : s = s' := by
  induction h generalizing s' with
  | ends =>
    cases h'
    rfl
  | fails failed =>
    cases h' with
    | fails failed' => rw [Except.error.inj (failed.symm.trans failed')]
    | goes went _ =>
      rw [failed] at went
      cases went
  | goes went _ ih =>
    cases h' with
    | fails failed =>
      rw [went] at failed
      cases failed
    | goes went' rest =>
      obtain ⟨rfl, rfl⟩ := Prod.mk.inj (Except.ok.inj (went.symm.trans went'))
      rw [ih rest]

/-- An edit does what is left of a turn, and then the loop. -/
def Follows (turn : InstId → Edit (α × Option InstId)) (left : Edit (α × Option InstId))
    (e : Edit α) (ctx : Context) : Prop :=
  match (left.run ctx).outcome with
  | .error fault => e.run ctx = ⟨.error fault, (left.run ctx).context, (left.run ctx).events⟩
  | .ok (a, next) => ∃ last, Loops turn next (left.run ctx).context last ∧
      e.run ctx =
        ⟨last.outcome.map (a + ·), last.context, (left.run ctx).events ++ last.events⟩

namespace Follows

theorem loops {e : Edit α} (h : Follows turn (turn i) e ctx) :
    Loops turn (some i) ctx (e.run ctx) := by
  unfold Follows at h
  split at h
  · rename_i hfailed
    exact h ▸ .fails hfailed
  · rename_i hwent
    obtain ⟨last, hrest, hrun⟩ := h
    exact hrun ▸ .goes hwent hrest

/-- The end of a turn: the edit goes on as the loop does. -/
theorem pure {a : α} {next : Option InstId} {e : Edit α} (h : Loops turn next ctx (e.run ctx)) :
    Follows turn (pure (a, next)) ((a + ·) <$> e) ctx :=
  ⟨e.run ctx, h, run_map _ e⟩

/-- A turn that gives nothing shows in no sum. -/
theorem skip {next : Option InstId} {e : Edit α} (hzero : ∀ a : α, 0 + a = a)
    (h : Loops turn next ctx (e.run ctx)) : Follows turn (Pure.pure (0, next)) e ctx := by
  have hsame : (0 + ·) <$> e = e := by simp only [hzero, id_map']
  exact hsame ▸ pure h

/-- Both begin with the same edit. -/
theorem bind {f : Edit β} {k : β → Edit (α × Option InstId)} {k' : β → Edit α}
    (h : f.Ensures (fun b c => Follows turn (k b) (k' b) c) (fun _ _ => True) ctx) :
    Follows turn (f >>= k) (f >>= k') ctx := by
  cases hf : (f.run ctx).outcome with
  | error fault =>
    unfold Follows
    rw [run_bind_of_error hf, run_bind_of_error hf]
  | ok b =>
    have hb := h.of_ok hf
    unfold Follows at hb ⊢
    rw [run_bind_of_ok hf, run_bind_of_ok hf]
    dsimp only
    split <;> rename_i hk <;> rw [hk] at hb
    · rw [hb]
    · obtain ⟨last, hrest, hrun⟩ := hb
      exact ⟨last, hrest, by rw [hrun, List.append_assoc]⟩

theorem look {k : Context → Edit (α × Option InstId)} {k' : Context → Edit α}
    (h : Follows turn (k ctx) (k' ctx) ctx) :
    Follows turn (context >>= k) (context >>= k') ctx :=
  .bind h

/-- What is left of a turn may begin with a look of its own. -/
theorem lookAhead {k : Context → Edit (α × Option InstId)} {e : Edit α}
    (h : Follows turn (k ctx) e ctx) : Follows turn (context >>= k) e ctx := h

theorem check {x : Except Fault β} {k : β → Edit (α × Option InstId)} {k' : β → Edit α}
    (h : ∀ b, x = .ok b → Follows turn (k b) (k' b) ctx) :
    Follows turn ((liftM x : Edit β) >>= k) ((liftM x : Edit β) >>= k') ctx :=
  .bind ((ensures_liftM x).2 ⟨h, fun _ _ => trivial⟩)

end Follows

/-! ## Dead code -/

/-- A turn on an instruction: a dead one is erased and counted. -/
def deadTurn (l : Liveness) (i : InstId) : Edit (Nat × Option InstId) := do
  let ctx ← context
  let dead ← ctx.isDead l i
  if dead then
    let text ← ctx.instText i
    note (.deadInstruction text)
    let next ← eraseInst i
    return (1, next)
  else
    return (0, ctx.nextInst? i)

theorem loops_eraseDead (h : ctx.Ahead is) :
    Loops (deadTurn l) is.head? ctx ((eraseDead l is).run ctx) := by
  induction is generalizing ctx with
  | nil => exact .ends
  | cons i is ih =>
    refine Follows.loops ?_
    rw [deadTurn, eraseDead]
    refine .look (.check fun dead _ => ?_)
    split
    · refine .check fun text _ => .bind (.bind (h.eraseInst.mono fun next c hc => ?_))
      obtain ⟨rfl, hahead⟩ := hc
      have hcount : (do let others ← eraseDead l is; return others + 1) =
          (1 + ·) <$> eraseDead l is := by
        simp only [bind_pure_comp, Nat.add_comm]
      rw [hcount]
      exact .pure (ih hahead)
    · rw [h.nextInst?]
      exact .skip Nat.zero_add (ih h.tail)

/-- **Going over blocks**, in each of them with a cursor from its first
instruction on. -/
inductive Clears (l : Liveness) : List ValueId → Context → Step Nat → Prop
  | ends {ctx : Context} : Clears l [] ctx ⟨.ok 0, ctx, []⟩
  /-- A block in which the loop fails is the last. -/
  | fails {b : ValueId} {blocks : List ValueId} {ctx : Context} {step : Step Nat} {fault : Fault}
      (cleared : Loops (deadTurn l) (ctx.firstInst? b) ctx step)
      (failed : step.outcome = .error fault) : Clears l (b :: blocks) ctx step
  /-- After any other comes the next, and what was erased in them adds up. -/
  | goes {b : ValueId} {blocks : List ValueId} {ctx : Context} {step last : Step Nat} {n : Nat}
      (cleared : Loops (deadTurn l) (ctx.firstInst? b) ctx step) (went : step.outcome = .ok n)
      (rest : Clears l blocks step.context last) :
      Clears l (b :: blocks) ctx ⟨last.outcome.map (n + ·), last.context,
        step.events ++ last.events⟩

theorem Clears.unique {blocks : List ValueId} {s s' : Step Nat} (h : Clears l blocks ctx s)
    (h' : Clears l blocks ctx s') : s = s' := by
  induction h generalizing s' with
  | ends =>
    cases h'
    rfl
  | fails cleared failed =>
    cases h' with
    | fails cleared' _ => exact cleared.unique cleared'
    | goes cleared' went _ =>
      obtain rfl := cleared.unique cleared'
      rw [failed] at went
      cases went
  | goes cleared went _ ih =>
    cases h' with
    | fails cleared' failed =>
      obtain rfl := cleared.unique cleared'
      rw [went] at failed
      cases failed
    | goes cleared' went' rest =>
      obtain rfl := cleared.unique cleared'
      obtain rfl := Except.ok.inj (went.symm.trans went')
      rw [ih rest]

/-- **Erasing the dead instructions of blocks is going over them with a
cursor.** -/
theorem clears_eraseDeadIn (h : Sound ctx) {blocks : List ValueId}
    (hblocks : ∀ b ∈ blocks, ctx.kind? b = some .block) :
    Clears l blocks ctx ((eraseDeadIn l blocks).run ctx) := by
  induction blocks generalizing ctx with
  | nil => exact .ends
  | cons b blocks ih =>
    have hcleared : Loops (deadTurn l) (ctx.firstInst? b) ctx
        ((eraseDead l (ctx.body b)).run ctx) := by
      rw [h.threaded.firstInst?_eq]
      exact loops_eraseDead (.of_body h.threaded b)
    have hplaced : ∀ i ∈ ctx.body b, ∃ x c, ctx.inst? i = some x ∧ x.block = some c := by
      intro i hi
      obtain ⟨x, hx, hb⟩ := h.threaded.live hi
      exact ⟨x, b, hx, hb⟩
    obtain ⟨n, hn, hsound, hgone⟩ :=
      (ensures_eraseDead (l := l) h (h.threaded.nodup b) hplaced).exists_ok
    have hrun : (eraseDeadIn l (b :: blocks)).run ctx =
        (eraseDead l (ctx.body b) >>= fun here => (here + ·) <$> eraseDeadIn l blocks).run ctx := by
      simp only [eraseDeadIn, bind_pure_comp]
      exact run_read (readBody_eq_ok.2 ⟨hblocks b List.mem_cons_self, rfl⟩)
    rw [hrun, run_bind_of_ok hn, run_map]
    refine .goes hcleared hn (ih hsound fun b' hb' => ?_)
    rw [hgone.same.kind]
    exact hblocks b' (List.mem_cons_of_mem b hb')

/-- **Dead code elimination is what going over the blocks of the function with a
cursor ends in.** -/
theorem clears_iff_eliminateDeadCode (h : Sound ctx) {f : ValueId} (hf : ctx.ownsValue f)
    {last : Step Nat} :
    Clears l (ctx.members f .blocks) ctx last ↔ (eliminateDeadCode f l).run ctx = last := by
  obtain ⟨x, hx⟩ := Option.isSome_iff_exists.1 hf
  have hrun : (eliminateDeadCode f l).run ctx =
      (eraseDeadIn l (ctx.members f .blocks)).run ctx := by
    rw [eliminateDeadCode, Context.members_of_value? hx]
    exact run_read (read_eq_ok.2 hx)
  have hclears : Clears l (ctx.members f .blocks) ctx ((eliminateDeadCode f l).run ctx) := by
    rw [hrun]
    exact clears_eraseDeadIn h fun b hb => h.membered.kind hb
  refine ⟨hclears.unique, ?_⟩
  rintro rfl
  exact hclears

/-! ## Copies -/

/-- Forwards the copy that an instruction makes into the rest of its block. -/
def forwardFrom (copy : InstId) (target source : ValueId) : Edit Nat := do
  let ctx ← context
  forwardCopy target source (ctx.behind copy)

/-- A turn on an instruction behind a copy: it reads the source instead of the
target, and the cursor stops if it writes one of them. -/
def forwardTurn (target source : ValueId) (i : InstId) : Edit (Nat × Option InstId) := do
  let ctx ← context
  let x ← ctx.readInst i
  let reads := x.positionsOf target
  replaceOperands i source reads
  if target ∈ x.results ∨ source ∈ x.results then
    return (reads.length, none)
  else
    let ctx ← context
    return (reads.length, ctx.nextInst? i)

theorem loops_forwardCopy (h : ctx.Ahead is) :
    Loops (forwardTurn target source) is.head? ctx ((forwardCopy target source is).run ctx) := by
  induction is generalizing ctx with
  | nil => exact .ends
  | cons i is ih =>
    refine Follows.loops ?_
    rw [forwardTurn, forwardCopy]
    refine .look (.check fun x _ => .bind ((h.replaceOperands i source _).mono fun _ c hc => ?_))
    split
    · have hover : (pure (x.positionsOf target).length : Edit Nat) =
          ((x.positionsOf target).length + ·) <$> pure 0 := by
        rw [map_pure, Nat.add_zero]
      rw [hover]
      exact .pure .ends
    · refine .lookAhead ?_
      rw [hc.nextInst?, bind_pure_comp]
      exact .pure (ih hc.tail)

/-- **A copy is forwarded with a cursor** that starts behind it. -/
theorem loops_forwardFrom (h : Threaded ctx) (copy : InstId) (target source : ValueId) :
    Loops (forwardTurn target source) (ctx.nextInst? copy) ctx
      ((forwardFrom copy target source).run ctx) := by
  have hlook : (forwardFrom copy target source).run ctx =
      (forwardCopy target source (ctx.behind copy)).run ctx := rfl
  rw [hlook]
  cases hb : ctx.blockOf? copy with
  | none =>
    have hbehind : ctx.behind copy = [] := by rw [behind, hb]
    rw [hbehind, h.next.step_of_free hb]
    exact .ends
  | some b =>
    obtain ⟨pre, post, hbody⟩ := List.append_of_mem (h.mem_iff.2 hb)
    have hahead : ctx.Ahead (copy :: post) := ⟨h, b, pre, hbody.symm⟩
    rw [hahead.behind_eq, hahead.nextInst?]
    exact loops_forwardCopy hahead.tail

/-- A turn on an instruction of a block: a copy of a local to itself is erased,
any other is forwarded. -/
def sweepTurn (i : InstId) : Edit (CopyTally × Option InstId) := do
  let ctx ← context
  let x ← ctx.readInst i
  match ctx.localCopy? x with
  | none => return (0, ctx.nextInst? i)
  | some (target, source) =>
    if target = source then
      note (.selfCopy (ctx.nameOf target))
      let next ← eraseInst i
      return ({ selfCopies := 1 }, next)
    else
      let reads ← forwardFrom i target source
      noteForwarded target source reads
      let ctx ← context
      return ({ replacedReads := reads }, ctx.nextInst? i)

theorem loops_sweepCopies (h : ctx.Ahead is) :
    Loops sweepTurn is.head? ctx ((sweepCopies is).run ctx) := by
  induction is generalizing ctx with
  | nil => exact .ends
  | cons i is ih =>
    refine Follows.loops ?_
    rw [sweepTurn, sweepCopies]
    refine .look (.check fun x _ => ?_)
    cases ctx.localCopy? x with
    | none =>
      rw [h.nextInst?]
      exact .skip CopyTally.zero_add (ih h.tail)
    | some copy =>
      obtain ⟨t, s⟩ := copy
      dsimp only
      split
      · refine .bind (.bind (h.eraseInst.mono fun next c hc => ?_))
        obtain ⟨rfl, hahead⟩ := hc
        rw [bind_pure_comp]
        exact .pure (ih hahead)
      · -- What the turn forwards to is what is left of the list.
        refine (show Follows sweepTurn (forwardCopy t s (ctx.behind i) >>= _) _ ctx from ?_)
        rw [h.behind_eq]
        refine .bind ((h.forwardCopy t s is).mono fun reads c hc => .bind ?_)
        rw [ensures_noteForwarded]
        refine .lookAhead ?_
        rw [hc.nextInst?, bind_pure_comp]
        exact .pure (ih hc.tail)

end Edit

end ContractIR
