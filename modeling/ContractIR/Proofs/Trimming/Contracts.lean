import Mathlib.Data.List.Forall2
import ContractIR.Proofs.Trimming.Stages
/-!
# What optimizing a contract touches

The functions of a contract are optimized one after the other, each in its own
blocks. So the whole run leaves everything but these blocks as it was, and what
disappears from a function is what its own statistics count, since the blocks
of different functions are different (`optimizeContract_only_trims`).
-/

namespace ContractIR

namespace Context

variable {ctx ctx' : Context} {f g b : ValueId} {inside : ValueId → Prop}

/-- A block of a function of a contract. -/
def IsBlockOf (ctx : Context) (contract b : ValueId) : Prop :=
  ∃ f ∈ ctx.members contract .functions, b ∈ ctx.members f .blocks

/-- How many instructions are gone from the blocks of a function. -/
def lostIn (ctx' ctx : Context) (f : ValueId) : Nat :=
  (ctx.instsOf f).countP fun i => i ∉ ctx'.instsOf f

/-- A function without a block that may differ has the instructions it had. -/
theorem Trimmed.instsOf_eq (h : Trimmed ctx' ctx inside)
    (hf : ∀ b ∈ ctx.members f .blocks, ¬inside b) : ctx'.instsOf f = ctx.instsOf f := by
  rw [instsOf, instsOf, h.sameMembers.members]
  exact List.flatMap_congr fun b hb => h.kept_body b (hf b hb)

theorem Trimmed.instsOf_subset (h : Trimmed ctx' ctx inside) (f : ValueId) :
    ctx'.instsOf f ⊆ ctx.instsOf f := by
  intro i hi
  obtain ⟨b, hb, hi⟩ := mem_instsOf.1 hi
  rw [h.sameMembers.members] at hb
  exact mem_instsOf.2 ⟨b, hb, (h.body b).subset hi⟩

/-- What is gone is what a function has become shorter by. -/
theorem Trimmed.lostIn_eq {n : Nat} (h : Trimmed ctx' ctx inside) (hs : Sound ctx)
    (hs' : Sound ctx') (hlength : (ctx.instsOf f).length = (ctx'.instsOf f).length + n) :
    ctx'.lostIn ctx f = n := by
  have hleft : (ctx.instsOf f).countP (fun i => i ∈ ctx'.instsOf f) = (ctx'.instsOf f).length := by
    rw [List.countP_eq_length_filter]
    refine List.Perm.length_eq ((List.perm_ext_iff_of_nodup
      ((nodup_instsOf hs f).filter _) (nodup_instsOf hs' f)).2 fun i => ?_)
    rw [List.mem_filter, decide_eq_true_eq]
    exact ⟨fun hi => hi.2, fun hi => ⟨h.instsOf_subset f hi, hi⟩⟩
  have hsplit := (ctx.instsOf f).length_eq_countP_add_countP fun i => i ∈ ctx'.instsOf f
  simp only [decide_eq_true_eq] at hsplit
  rw [hleft, hlength] at hsplit
  exact (Nat.add_left_cancel hsplit).symm

end Context

open Context

variable {ctx : Context}

namespace Edit

/-- **Optimizing functions** touches their blocks only, and each loses what its
statistics count. -/
theorem ensures_optimizeFunctions {fs : List ValueId} (h : Sound ctx)
    (hfs : ∀ f ∈ fs, ctx.ownsValue f) (hnodup : fs.Nodup) (options : OptimizerOptions) :
    (optimizeFunctions options fs).Ensures
      (fun statistics c => Sound c ∧
        Trimmed c ctx (fun b => ∃ f ∈ fs, b ∈ ctx.members f .blocks) ∧
        List.Forall₂ (fun f s => s.function = ctx.nameOf f ∧
          (ctx.instsOf f).length = (c.instsOf f).length + (s.selfCopies + s.dead)) fs statistics)
      (fun _ c => Trimmed c ctx fun b => ∃ f ∈ fs, b ∈ ctx.members f .blocks) ctx := by
  induction fs generalizing ctx with
  | nil => exact ⟨h, .refl h.threaded _, .nil⟩
  | cons f fs ih =>
    obtain ⟨hf, hfs'⟩ := List.nodup_cons.1 hnodup
    have hhead : ∀ {n c}, ctx.Trims f n c →
        Trimmed c ctx fun b => ∃ g ∈ f :: fs, b ∈ ctx.members g .blocks := fun hrun =>
      (hrun.trimmed h).mono fun b hb => ⟨f, List.mem_cons_self, hb⟩
    rw [optimizeFunctions]
    simp only [ensures_bind, ensures_pure]
    refine (ensures_optimizeFunction h (hfs f List.mem_cons_self) options).imp
      (fun s c hc => ?_) fun _ c hc => ?_
    · obtain ⟨hname, hrun⟩ := hc
      have htrimmed := hrun.trimmed h
      have hsame := htrimmed.sameMembers
      have hrest := ih (hrun.sound h) (fun g hg => ?_) hfs'
      · rw [hsame.members] at hrest
        have hboth : ∀ {c'}, Trimmed c' c (fun b => ∃ g ∈ fs, b ∈ ctx.members g .blocks) →
            Trimmed c' ctx fun b => ∃ g ∈ f :: fs, b ∈ ctx.members g .blocks := by
          intro c' hc'
          refine (hc'.mono fun b hb => ?_).trans (hhead hrun)
          obtain ⟨g, hg, hb⟩ := hb
          exact ⟨g, List.mem_cons_of_mem f hg, hb⟩
        refine hrest.imp (fun statistics c' hc' => ?_) fun _ c' hc' => hboth hc'
        obtain ⟨hsound, hothers, hlengths⟩ := hc'
        refine ⟨hsound, hboth hothers, .cons ⟨hname, ?_⟩ ?_⟩
        · -- The functions behind leave this one alone.
          rw [hrun.length_instsOf h, hothers.instsOf_eq]
          rintro b hb ⟨g, hg, hb'⟩
          rw [hsame.members] at hb
          exact hf ((h.membered.unique hb hb').1 ▸ hg)
        · -- This one left the functions behind alone.
          refine ((List.forall₂_and_left _ _).2 ⟨fun g hg => hg, hlengths⟩).imp fun g s hs => ?_
          obtain ⟨hg, hname', hlength⟩ := hs
          have hkept : c.instsOf g = ctx.instsOf g := by
            refine htrimmed.instsOf_eq fun b hb hb' => hf ?_
            exact (h.membered.unique hb hb').1 ▸ hg
          rw [htrimmed.nameOf] at hname'
          rw [hkept] at hlength
          exact ⟨hname', hlength⟩
      · rw [hsame.ownsValue]
        exact hfs g (List.mem_cons_of_mem f hg)
    · obtain ⟨n, hrun⟩ := hc.1
      exact hhead hrun

end Edit

/-- **Optimizing a contract touches nothing it should not.** Whether it succeeds
or not, the context differs in the blocks of the contract's own functions only:
every value is what it was, up to what these blocks hold, and so are the
constants; bodies have lost instructions only, and none is new; an instruction
that is left has its opcode, its results and as many operands as before, each
the one it was unless both are locals. And if it succeeds, its statistics list
the functions in order, and each of them has lost as many instructions as it
counts copies of a local to itself and dead instructions. -/
theorem optimizeContract_only_trims {ctx : Context} (reachable : Reachable ctx)
    (contract : ValueId) (options : OptimizerOptions) :
    Trimmed ((Edit.optimizeContract contract options).run ctx).context ctx
      (ctx.IsBlockOf contract) ∧
    ∀ statistics, ((Edit.optimizeContract contract options).run ctx).outcome = .ok statistics →
      List.Forall₂
        (fun f s => s.function = ctx.nameOf f ∧
          ((Edit.optimizeContract contract options).run ctx).context.lostIn ctx f =
            s.selfCopies + s.dead)
        (ctx.members contract .functions) statistics.functions := by
  have h := reachable.sound
  have hmain : (Edit.optimizeContract contract options).Ensures
      (fun statistics c => Trimmed c ctx (ctx.IsBlockOf contract) ∧
        List.Forall₂ (fun f s => s.function = ctx.nameOf f ∧
          c.lostIn ctx f = s.selfCopies + s.dead)
          (ctx.members contract .functions) statistics.functions)
      (fun _ c => Trimmed c ctx (ctx.IsBlockOf contract)) ctx := by
    unfold Edit.optimizeContract
    refine .look (.check (fun _ => .refl h.threaded _) fun x hx => ?_)
    rw [← members_of_value? (read_eq_ok.1 hx)]
    simp only [Edit.ensures_bind, Edit.ensures_note, Edit.ensures_pure]
    refine (Edit.ensures_optimizeFunctions h (fun f hf => h.membered.owned hf)
      (h.membered.nodup contract .functions) options).imp (fun statistics c hc => ?_)
      fun _ _ hc => hc
    obtain ⟨hsound, htrimmed, hlengths⟩ := hc
    refine ⟨htrimmed, hlengths.imp fun f s hs => ⟨hs.1, ?_⟩⟩
    exact htrimmed.lostIn_eq h hsound hs.2
  refine ⟨Edit.Ensures.context_of (hmain.imp (fun _ _ hc => hc.1) fun _ _ hc => hc), ?_⟩
  exact fun statistics hok => (hmain.of_ok hok).2

/-- A contract with a function that copies a local to itself, copies it to
another, doubles that one and stores the sum, and with a contract nested in it
whose function copies a local to itself. -/
def nestedCopies : Context :=
  Operation.runAll
    [.createContract "c", .createFunction true "f" (some ⟨0, 0⟩), .createLocal "x" (some ⟨0, 1⟩),
      .createLocal "y" (some ⟨0, 1⟩), .createBlock "b" (some ⟨0, 1⟩) none,
      .createForm (.assign ⟨0, 2⟩ ⟨0, 2⟩) (.atEnd ⟨0, 4⟩),
      .createForm (.assign ⟨0, 3⟩ ⟨0, 2⟩) (.atEnd ⟨0, 4⟩),
      .createForm (.binary .add ⟨0, 2⟩ ⟨0, 3⟩ ⟨0, 3⟩) (.atEnd ⟨0, 4⟩),
      .createForm (.sstore ⟨0, 2⟩ ⟨0, 2⟩) (.atEnd ⟨0, 4⟩), .createForm .retVoid (.atEnd ⟨0, 4⟩),
      .createSubcontract "d" ⟨0, 0⟩, .createFunction true "g" (some ⟨0, 5⟩),
      .createLocal "z" (some ⟨0, 6⟩), .createBlock "b" (some ⟨0, 6⟩) none,
      .createForm (.assign ⟨0, 7⟩ ⟨0, 7⟩) (.atEnd ⟨0, 8⟩)] { id := 0 }

/-- Of the first function two instructions are gone, one copy of a local to
itself and one that became dead; the function of the nested contract is as it
was. -/
theorem optimizeContract_only_trims_nestedCopies :
    Reachable nestedCopies ∧
    (((Edit.optimizeContract ⟨0, 0⟩ {}).run nestedCopies).outcome.toOption.map fun s =>
      s.functions.map fun s => (s.function, s.selfCopies, s.dead)) = some [("f", 1, 1)] ∧
    ((Edit.optimizeContract ⟨0, 0⟩ {}).run nestedCopies).context.lostIn nestedCopies ⟨0, 1⟩ = 2 ∧
    ((Edit.optimizeContract ⟨0, 0⟩ {}).run nestedCopies).context.body ⟨0, 4⟩ =
      [⟨0, 2⟩, ⟨0, 3⟩, ⟨0, 4⟩] ∧
    ((Edit.optimizeContract ⟨0, 0⟩ {}).run nestedCopies).context.body ⟨0, 8⟩ = [⟨0, 5⟩] := by
  have hreachable : Reachable nestedCopies := (Reachable.empty 0).runAll (by decide)
  obtain ⟨htrimmed, hlost⟩ := optimizeContract_only_trims hreachable ⟨0, 0⟩ {}
  have hstatistics : (((Edit.optimizeContract ⟨0, 0⟩ {}).run nestedCopies).outcome.toOption.map
      fun s => s.functions.map fun s => (s.function, s.selfCopies, s.dead)) =
        some [("f", 1, 1)] := by decide +kernel
  have hfunctions : nestedCopies.members ⟨0, 0⟩ .functions = [⟨0, 1⟩] := by decide +kernel
  have hnested : nestedCopies.body ⟨0, 8⟩ = [⟨0, 5⟩] := by decide +kernel
  have houtside : ¬nestedCopies.IsBlockOf ⟨0, 0⟩ ⟨0, 8⟩ := by
    rintro ⟨f, hf, hb⟩
    rw [hfunctions, List.mem_singleton] at hf
    rw [hf] at hb
    exact absurd hb (by decide +kernel)
  refine ⟨hreachable, hstatistics, ?_, by decide +kernel, ?_⟩
  · obtain ⟨s, hok, hs⟩ := Option.map_eq_some_iff.1 hstatistics
    obtain ⟨t, ht, hcounts⟩ := List.map_eq_singleton_iff.1 hs
    obtain ⟨-, hself, hdead⟩ : t.function = "f" ∧ t.selfCopies = 1 ∧ t.dead = 1 := by
      simpa using hcounts
    have hrun : ((Edit.optimizeContract ⟨0, 0⟩ {}).run nestedCopies).outcome = .ok s := by
      cases hcase : ((Edit.optimizeContract ⟨0, 0⟩ {}).run nestedCopies).outcome with
      | error fault =>
        rw [hcase] at hok
        cases hok
      | ok s' =>
        rw [hcase] at hok
        rw [Option.some.inj hok]
    have hlost := hlost s hrun
    rw [hfunctions, ht, List.forall₂_cons] at hlost
    rw [hlost.1.2, hself, hdead]
  · rw [htrimmed.kept_body _ houtside, hnested]

end ContractIR
