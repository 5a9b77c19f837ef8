import ContractIR.Proofs.Semantics.Optimizer
import ContractIR.Proofs.Trimming.Regions
import ContractIR.Proofs.Trimming.Stages
/-!
# Optimizing different functions commutes

The blocks of a function, and the instructions in them, are a region, and
optimizing the function stays within it: copy propagation and dead code
elimination do, and the flow graph and the live sets in between are read off the
region. Optimizing another function leaves a context that is alike from within,
since a block is in one function and an instruction in one block. So each run
has the result it would have alone, and does what it would do alone, whichever
comes first (`optimizeFunction_commutes`).
-/

namespace ContractIR

open Context

/-- Checks of all elements depend on what each of them gives. -/
theorem mapM_congr {ε α β : Type} {f g : α → Except ε β} {l : List α}
    (h : ∀ a ∈ l, f a = g a) : l.mapM f = l.mapM g := by
  induction l with
  | nil => rfl
  | cons a l ih =>
    rw [List.mapM_cons, List.mapM_cons, h a List.mem_cons_self,
      ih fun c hc => h c (List.mem_cons_of_mem a hc)]

/-- A node of the region: its block is there, and so are its instructions. -/
def Region.Holds (r : Region) (n : GraphNode) : Prop :=
  r.blocks n.block ∧ ∀ i ∈ n.instructions, r.insts i

variable {r : Region} {ctx ctx' : Context} {b f g : ValueId} {i : InstId} {n : GraphNode}
variable {nodes : List GraphNode} {blocks : List ValueId}

/-- Copy propagation trims the function, however it ends. -/
theorem Edit.exists_trims_copyStage (hs : Sound ctx) (options : OptimizerOptions) :
    ∃ n, ctx.Trims f n ((copyStage options (ctx.members f .blocks)).run ctx).context := by
  refine Ensures.context_of (P := fun c => ∃ n, ctx.Trims f n c) ?_
  refine (trimming_copyStage (P := False) hs options False.elim).imp (fun _ _ hrun => ⟨_, hrun⟩) ?_
  exact fun _ _ hrun => hrun.1

/-- So does optimizing it; what is not of the context is left alone. -/
theorem Edit.exists_trims_optimizeFunction (hs : Sound ctx) (f : ValueId)
    (options : OptimizerOptions) :
    ∃ n, ctx.Trims f n ((optimizeFunction f options).run ctx).context := by
  refine Ensures.context_of (P := fun c => ∃ n, ctx.Trims f n c) ?_
  by_cases hf : ctx.ownsValue f
  · exact (ensures_optimizeFunction hs hf options).imp (fun _ _ hrun => ⟨_, hrun.2⟩)
      fun _ _ hrun => hrun.1
  · refine .look (.check (fun _ => ⟨0, .refl⟩) fun x hx => ?_)
    rw [ownsValue, read_eq_ok.1 hx] at hf
    exact absurd rfl hf

namespace Region.Alike

/-! ## The graph and the live sets -/

theorem nodesOf (h : r.Alike ctx ctx') (hb : r.blocks b) : ctx'.nodesOf b = ctx.nodesOf b := by
  have hflow : Exit.tagged ctx'.flowOf (ctx.body b) = Exit.tagged ctx.flowOf (ctx.body b) := by
    refine List.map_congr_left fun i hi => ?_
    rw [flowOf, flowOf, h.inst (h.inside hb hi)]
  rw [Context.nodesOf, Context.nodesOf, h.body hb, hflow]

theorem graphNodes (h : r.Alike ctx ctx') (hblocks : ∀ b ∈ blocks, r.blocks b) :
    ctx'.graphNodes blocks = ctx.graphNodes blocks :=
  List.flatMap_congr fun b hb => h.nodesOf (hblocks b hb)

theorem holds_of_mem (h : r.Alike ctx ctx') (hblocks : ∀ b ∈ blocks, r.blocks b)
    (hn : n ∈ ctx.graphNodes blocks) : r.Holds n := by
  obtain ⟨b, hb, hnb⟩ := List.mem_flatMap.1 hn
  refine ⟨?_, fun i hi => h.inside (hblocks b hb) (mem_body_of_mem_node hnb hi)⟩
  rw [block_of_mem_nodesOf hnb]
  exact hblocks b hb

theorem branchTargets (h : r.Alike ctx ctx') {is : List InstId} (his : ∀ i ∈ is, r.insts i) :
    ctx'.branchTargets nodes f b is = ctx.branchTargets nodes f b is := by
  induction is with
  | nil => rfl
  | cons i is ih =>
    rw [Context.branchTargets, Context.branchTargets, h.readInst (his i List.mem_cons_self),
      h.nameOf, ih fun j hj => his j (List.mem_cons_of_mem i hj)]
    unfold target?
    rw [h.sameMembers.kind]

theorem fallsThrough (h : r.Alike ctx ctx') (hn : r.Holds n) :
    ctx'.fallsThrough n = ctx.fallsThrough n := by
  unfold Context.fallsThrough instExit
  cases hi : n.instructions.getLast? with
  | none => rfl
  | some i => simp only [h.readInst (hn.2 i (List.mem_of_getLast? hi))]

theorem graphEdges (h : r.Alike ctx ctx') (hnodes : ∀ n ∈ nodes, r.Holds n) :
    ctx'.graphEdges nodes f blocks = ctx.graphEdges nodes f blocks := by
  have hedges : nodes.zipIdx.mapM (ctx'.nodeEdges nodes f blocks) =
      nodes.zipIdx.mapM (ctx.nodeEdges nodes f blocks) := by
    refine mapM_congr fun node hnode => ?_
    have hn := hnodes node.1 (List.fst_mem_of_mem_zipIdx hnode)
    rw [nodeEdges, nodeEdges, h.fallsThrough hn, followingNode?, followingNode?,
      h.instCount hn.1,
      h.branchTargets fun i hi => hn.2 i (List.mem_reverse.1 hi)]
  rw [Context.graphEdges, Context.graphEdges, hedges]

/-- **The graph of blocks of the region is the same.** -/
theorem outcome_build (h : r.Alike ctx ctx') (hs : Sound ctx) (hs' : Sound ctx')
    (hf : ctx.ownsValue f) (hblocks : ∀ b ∈ ctx.members f .blocks, r.blocks b) :
    (FlowGraph.build ctx' f).outcome = (FlowGraph.build ctx f).outcome := by
  have hf' : ctx'.ownsValue f := by
    rw [h.sameMembers.ownsValue]
    exact hf
  rw [FlowGraph.outcome_build hs' hf', FlowGraph.outcome_build hs hf, h.sameMembers.members,
    h.graphNodes hblocks, h.graphEdges fun n hn => h.holds_of_mem hblocks hn]

/-- So are its live sets. -/
theorem compute (h : r.Alike ctx ctx') {g : FlowGraph} (hg : ∀ n ∈ g.nodes, r.Holds n) :
    Liveness.compute ctx' g = Liveness.compute ctx g := by
  have hnodes : ctx'.liveNodes g = ctx.liveNodes g := by
    refine mapM_congr fun node hnode => ?_
    have haccess : node.1.instructions.mapM ctx'.access = node.1.instructions.mapM ctx.access := by
      refine mapM_congr fun i hi => ?_
      have hn := hg node.1 (List.fst_mem_of_mem_zipIdx hnode)
      rw [access, access, h.readInst (hn.2 i hi), h.isLocal]
    simp only [haccess]
  rw [Liveness.compute, Liveness.compute, hnodes]

/-- The analysis has a result in both contexts, and it is the same one. -/
theorem outcome_analyze (h : r.Alike ctx ctx') (hs : Sound ctx) (hs' : Sound ctx')
    (hblocks : ∀ b ∈ ctx.members f .blocks, r.blocks b) {g : FlowGraph}
    (hg : (FlowGraph.build ctx f).outcome = .ok g) (trace : Bool) :
    (Edit.analyze ctx' g trace).outcome = (Edit.analyze ctx g trace).outcome := by
  have hg' : (FlowGraph.build ctx' f).outcome = .ok g :=
    (h.outcome_build hs hs' (FlowGraph.ownsValue_of_build hg) hblocks).trans hg
  have hnodes : ∀ n ∈ g.nodes, r.Holds n := by
    rw [(FlowGraph.built_of_build hs hg).nodes]
    exact fun n hn => h.holds_of_mem hblocks hn
  obtain ⟨l, hl⟩ := Edit.exists_analyze hs hg trace
  obtain ⟨l', hl'⟩ := Edit.exists_analyze hs' hg' trace
  have hsame := h.compute hnodes
  rw [Edit.compute_of_analyze hl, Edit.compute_of_analyze hl'] at hsame
  rw [hl, hl', hsame]

/-! ## Optimizing a function -/

/-- An edit that goes on with a value, but not with what it holds as a block. -/
theorem read_bind {α : Type} {k : Value → Edit α} (h : r.Alike ctx ctx')
    (hk : ∀ x g, k (x.mapBlock g) = k x) (v : ValueId) :
    ((liftM (ctx'.read v) : Edit Value) >>= k) = (liftM (ctx.read v) : Edit Value) >>= k := by
  refine h.read_congr (F := fun x => (liftM x : Edit Value) >>= k) (fun x g => ?_) v
  calc (pure (x.mapBlock g) : Edit Value) >>= k
    _ = (pure x : Edit Value) >>= k := by rw [pure_bind, pure_bind, hk]

theorem matches_deadStage (h : r.Alike ctx ctx') (hblocks : ∀ b ∈ ctx.members f .blocks, r.blocks b)
    (options : OptimizerOptions) (l : Liveness) :
    r.Matches ((Edit.deadStage options f l).run ctx) ((Edit.deadStage options f l).run ctx') := by
  unfold Edit.deadStage
  split
  · refine .look ?_
    rw [h.read_bind (fun x g => by rw [x.members_mapBlock]) f]
    refine .check h fun x hx => ?_
    rw [members_of_value? (read_eq_ok.1 hx)] at hblocks
    exact Edit.within_eraseDeadIn hblocks h
  · exact Edit.Within.pure 0 h

/-- **Optimizing a function stays within its region.** -/
theorem matches_optimizeFunction (h : r.Alike ctx ctx') (hs : Sound ctx) (hs' : Sound ctx')
    (hblocks : ∀ b ∈ ctx.members f .blocks, r.blocks b) (options : OptimizerOptions) :
    r.Matches ((Edit.optimizeFunction f options).run ctx)
      ((Edit.optimizeFunction f options).run ctx') := by
  refine .look ?_
  rw [h.read_bind (fun x g => by rw [x.members_mapBlock, x.label_mapBlock]) f]
  refine .check h fun x hx => ?_
  rw [← members_of_value? (read_eq_ok.1 hx)]
  have hcopies := Edit.within_copyStage options hblocks h
  -- Both contexts are sound after the copies, so that their graphs can be compared.
  obtain ⟨_, hrun⟩ := Edit.exists_trims_copyStage (f := f) hs options
  obtain ⟨_, hrun'⟩ := Edit.exists_trims_copyStage (f := f) hs' options
  rw [h.sameMembers.members] at hrun'
  have hsame := (hrun.trimmed hs).sameMembers
  have hblocks' := hblocks
  rw [← hsame.members] at hblocks'
  have howned : ((Edit.copyStage options (ctx.members f .blocks)).run ctx).context.ownsValue f := by
    rw [hsame.ownsValue, ownsValue, read_eq_ok.1 hx]
    rfl
  refine hcopies.bind fun copies _ => .look ?_
  have hgraph := hcopies.context.outcome_build (hrun.sound hs) (hrun'.sound hs') howned hblocks'
  refine (Matches.report hcopies.context hgraph).bind fun g hg => ?_
  have hlive := hcopies.context.outcome_analyze (hrun.sound hs) (hrun'.sound hs') hblocks' hg
    options.traceLiveness
  refine (Matches.report hcopies.context hlive).bind fun l _ => ?_
  have hdead := hcopies.context.matches_deadStage hblocks' options l
  exact hdead.bind fun dead _ => Edit.Within.bind (.note _) (fun _ => .pure _) hdead.context

end Region.Alike

namespace Context

/-! ## Functions side by side -/

/-- The region of a function: its blocks, and the instructions in them. -/
def region (ctx : Context) (f : ValueId) : Region :=
  ⟨(· ∈ ctx.members f .blocks), (· ∈ ctx.instsOf f)⟩

/-- **Trimming one function leaves another alone**: from within the other one the
context looks as before, also if that one was trimmed first. -/
theorem Trimmed.alike {c c' : Context} (hs : Sound ctx) (hne : f ≠ g)
    (hc : Trimmed c ctx (· ∈ ctx.members g .blocks))
    (h : Trimmed c' c (· ∈ c.members f .blocks)) : (ctx.region g).Alike c c' := by
  have hapart : ∀ {b}, b ∈ ctx.members g .blocks → b ∉ c.members f .blocks := by
    intro b hb hb'
    rw [hc.sameMembers.members] at hb'
    exact hne (hs.membered.unique hb' hb).1
  -- An instruction of the other function is in no block but one of that function.
  have honly : ∀ {i b}, i ∈ ctx.instsOf g → i ∈ ctx.body b → b ∈ ctx.members g .blocks := by
    intro i b hi hib
    obtain ⟨b', hb', hib'⟩ := mem_instsOf.1 hi
    rw [hs.threaded.mem_iff] at hib hib'
    exact Option.some.inj (hib.symm.trans hib') ▸ hb'
  constructor
  · exact fun v => ⟨_, h.value v⟩
  · intro b hb
    have hblock := hc.threaded.block_eq_of_body h.threaded (h.kept_body b (hapart hb))
    rw [h.value, hblock]
    exact (value?_of_same rfl).symm
  · intro i hi
    have hhome : ∀ {b}, i ∈ c.body b → b ∈ ctx.members g .blocks :=
      fun hib => honly hi ((hc.body _).subset hib)
    refine hc.threaded.cell?_eq_of_body h.threaded ?_ fun b hb => ?_
    · exact h.kept_inst i fun b hb hib => hapart (hhome hib) hb
    · exact h.kept_body b (hapart (hhome (hc.threaded.mem_iff.2 hb)))
  · exact fun hb hib => mem_instsOf.2 ⟨_, hb, (hc.body _).subset hib⟩
  · intro i x b hi hx hb
    obtain ⟨y, hy, hreads⟩ := hc.inst i x hx
    rw [hreads.block] at hb
    exact honly hi (hs.threaded.mem_of_block hy hb)

/-- Contexts with as many instructions, the same ones. -/
theorem instructions_eq_of_cell? (hid : ctx'.id = ctx.id) (hnext : ctx'.nextInst = ctx.nextInst)
    (hcell : ∀ i, ctx'.cell? i = ctx.cell? i) : ctx'.instructions = ctx.instructions := by
  have hsize : ctx'.instructions.size = ctx.instructions.size := congrArg InstId.index hnext
  refine Array.ext hsize fun k hk hk' => ?_
  simpa [cell?, hid, hk, hk'] using hcell ⟨ctx.id, k⟩

/-- **A context that was trimmed is known** by the blocks it was trimmed in. -/
theorem Trimmed.ext {c c' : Context} {inside : ValueId → Prop} (h : Trimmed c ctx inside)
    (h' : Trimmed c' ctx inside) (hbody : ∀ b, inside b → c'.body b = c.body b)
    (hinst : ∀ b, inside b → ∀ i ∈ ctx.body b, c'.inst? i = c.inst? i) : c' = c := by
  have hid := h'.id.trans h.id.symm
  have hall : ∀ v, c'.body v = c.body v := fun v => by
    by_cases hv : inside v
    · exact hbody v hv
    · rw [h'.kept_body v hv, h.kept_body v hv]
  refine eq_of_value? hid (funext fun v => ?_) ?_ (h'.constants.trans h.constants.symm)
    (h'.contracts.trans h.contracts.symm)
  · rw [h'.value, h.value, h.threaded.block_eq_of_body h'.threaded (hall v)]
  · refine instructions_eq_of_cell? hid (h'.nextInst.trans h.nextInst.symm) fun i => ?_
    refine h.threaded.cell?_eq_of_body h'.threaded ?_ fun b _ => hall b
    by_cases hi : ∃ b, inside b ∧ i ∈ ctx.body b
    · obtain ⟨b, hb, hib⟩ := hi
      exact hinst b hb i hib
    · have hout : ∀ b, inside b → i ∉ ctx.body b := fun b hb hib => hi ⟨b, hb, hib⟩
      rw [h'.kept_inst i hout, h.kept_inst i hout]

end Context

/-- **Edits that commute** in a context: whichever comes first, each ends as it
would alone, and in the end the context is the same. -/
structure Edit.Commutes {α β : Type} (e : Edit α) (e' : Edit β) (ctx : Context) : Prop where
  first : (e.run (e'.run ctx).context).outcome = (e.run ctx).outcome
  second : (e'.run (e.run ctx).context).outcome = (e'.run ctx).outcome
  context : (e'.run (e.run ctx).context).context = (e.run (e'.run ctx).context).context

/-- A function that is optimized after another one: it ends as it would alone, and
leaves what it would leave alone in its own blocks, as the other one does after
it. -/
theorem Edit.optimizeFunction_after (hs : Sound ctx) (hne : f ≠ g)
    (options options' : OptimizerOptions) :
    let e := optimizeFunction f options
    let e' := optimizeFunction g options'
    (e'.run (e.run ctx).context).outcome = (e'.run ctx).outcome ∧
      (ctx.region g).Alike (e'.run ctx).context (e'.run (e.run ctx).context).context ∧
      (ctx.region g).Alike (e'.run ctx).context (e.run (e'.run ctx).context).context := by
  intro e e'
  obtain ⟨_, hf⟩ := exists_trims_optimizeFunction hs f options
  obtain ⟨_, hg⟩ := exists_trims_optimizeFunction hs g options'
  obtain ⟨_, hgf⟩ := exists_trims_optimizeFunction (hg.sound hs) f options
  have halone : (ctx.region g).Alike ctx (e.run ctx).context :=
    Trimmed.alike hs hne (.refl hs.threaded _) (hf.trimmed hs)
  have hafter := halone.matches_optimizeFunction hs (hf.sound hs) (fun _ hb => hb) options'
  exact ⟨hafter.outcome, hafter.context,
    Trimmed.alike hs hne (hg.trimmed hs) (hgf.trimmed (hg.sound hs))⟩

/-- Two functions that are optimized touch their own blocks. -/
theorem Edit.trimmed_optimizeFunction_after (hs : Sound ctx) (f g : ValueId)
    (options options' : OptimizerOptions) :
    Trimmed ((optimizeFunction g options').run
        ((optimizeFunction f options).run ctx).context).context ctx
      (fun b => b ∈ ctx.members f .blocks ∨ b ∈ ctx.members g .blocks) := by
  obtain ⟨_, hf⟩ := exists_trims_optimizeFunction hs f options
  obtain ⟨_, hfg⟩ := exists_trims_optimizeFunction (hf.sound hs) g options'
  have hfirst := hf.trimmed hs
  have hsecond := hfg.trimmed (hf.sound hs)
  rw [hfirst.sameMembers.members] at hsecond
  exact (hsecond.mono fun _ => .inr).trans (hfirst.mono fun _ => .inl)

/-- **Optimizing different functions commutes**, with any options for either of
them, whether or not they are of one contract, and also where one cannot be
optimized or both cannot. -/
theorem optimizeFunction_commutes {ctx : Context} (reachable : Reachable ctx) {f g : ValueId}
    (distinct : f ≠ g) (options options' : OptimizerOptions) :
    (Edit.optimizeFunction f options).Commutes (Edit.optimizeFunction g options') ctx := by
  have hs := reachable.sound
  obtain ⟨hsecond, hg, hg'⟩ := Edit.optimizeFunction_after hs distinct options options'
  obtain ⟨hfirst, hf, hf'⟩ := Edit.optimizeFunction_after hs distinct.symm options' options
  refine ⟨hfirst, hsecond, ?_⟩
  have hgf := Edit.trimmed_optimizeFunction_after hs g f options' options
  have hfg := Edit.trimmed_optimizeFunction_after hs f g options options'
  refine Trimmed.ext (hgf.mono fun _ => Or.symm) hfg (fun b hb => ?_) fun b hb i hi => ?_
  · rcases hb with hb | hb
    · rw [hf'.body hb, hf.body hb]
    · rw [hg.body hb, hg'.body hb]
  · rcases hb with hb | hb
    · have hi := mem_instsOf.2 ⟨b, hb, hi⟩
      rw [hf'.inst hi, hf.inst hi]
    · have hi := mem_instsOf.2 ⟨b, hb, hi⟩
      rw [hg.inst hi, hg'.inst hi]

/-- Two functions that copy a local to itself. The second jumps to a block that
was its own and went to the first. -/
def lostBlock : Context :=
  Operation.runAll
    [.createFunction true "f" none, .createFunction true "g" none,
      .createLocal "x" (some ⟨0, 0⟩), .createLocal "y" (some ⟨0, 1⟩),
      .createBlock "a" (some ⟨0, 0⟩) none, .createBlock "b" (some ⟨0, 1⟩) none,
      .createBlock "c" (some ⟨0, 1⟩) none, .createForm (.assign ⟨0, 2⟩ ⟨0, 2⟩) (.atEnd ⟨0, 4⟩),
      .createForm (.assign ⟨0, 3⟩ ⟨0, 3⟩) (.atEnd ⟨0, 5⟩), .createForm (.jump ⟨0, 6⟩) (.atEnd ⟨0, 5⟩),
      .transfer .blocks ⟨0, 1⟩ ⟨0, 0⟩ 1 2 none] { id := 0 }

/-- Either way the first is optimized and the second fails, once it has lost its
copy; in the end one jump is left. -/
theorem optimizeFunction_commutes_lostBlock :
    Reachable lostBlock ∧
    (Edit.optimizeFunction ⟨0, 0⟩ {}).Commutes (Edit.optimizeFunction ⟨0, 1⟩ {}) lostBlock ∧
    (((Edit.optimizeFunction ⟨0, 0⟩ {}).run
      ((Edit.optimizeFunction ⟨0, 1⟩ {}).run lostBlock).context).outcome.toOption.map fun s =>
        (s.nodes, s.selfCopies, s.dead)) = some (2, 1, 0) ∧
    ((Edit.optimizeFunction ⟨0, 1⟩ {}).run
      ((Edit.optimizeFunction ⟨0, 0⟩ {}).run lostBlock).context).outcome.toOption = none ∧
    [⟨0, 4⟩, ⟨0, 5⟩, ⟨0, 6⟩].map ((Edit.optimizeFunction ⟨0, 1⟩ {}).run
      ((Edit.optimizeFunction ⟨0, 0⟩ {}).run lostBlock).context).context.body =
        [[], [⟨0, 2⟩], []] := by
  have hreachable : Reachable lostBlock := (Reachable.empty 0).runAll (by decide)
  have hcommutes := optimizeFunction_commutes hreachable
    (show (⟨0, 0⟩ : ValueId) ≠ ⟨0, 1⟩ by decide) {} {}
  refine ⟨hreachable, hcommutes, ?_, ?_, ?_⟩
  · rw [hcommutes.first]
    decide +kernel
  · rw [hcommutes.second]
    decide +kernel
  · decide +kernel

end ContractIR
