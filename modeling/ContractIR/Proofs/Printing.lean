import ContractIR.Proofs.Nesting
import ContractIR.Proofs.Flow.Edges
/-!
# Instructions in shape, and what rests on it

The shape of an instruction is checked when it is created, and operands are
replaced under a check of their own. Much is then taken for granted: writing an
instruction out goes to its operands by position, a branch is told from a
conditional branch by how many operands it has, and its target is the last of
them. This file says that all of this is safe in every reachable context,
because no operation puts an instruction out of shape.
-/

namespace ContractIR

namespace Context

variable {ctx : Context} {i : InstId} {x : Instruction}

/-- A branch in shape either has a condition or ends its block. -/
theorem Shaped.isConditional_eq (h : ctx.Shaped x) (hop : x.opcode = .br) :
    x.isConditional = !x.isUnconditional := by
  rcases h.branch_operands hop with hone | htwo
  · simp [Instruction.isConditional, Instruction.isUnconditional, hop, hone]
  · simp [Instruction.isConditional, Instruction.isUnconditional, hop, htwo]

/-- A branch in shape leads to the block that is its last operand. -/
theorem exists_target? (hs : WellShaped ctx) (hx : ctx.inst? i = some x) (hop : x.opcode = .br) :
    ∃ t, ctx.target? x = some t ∧ x.operands.getLast? = some t ∧ ctx.kind? t = some .block := by
  obtain ⟨t, ht⟩ := exists_branchOf? hs (isBranch_iff.2 ⟨x, hx, hop⟩)
  rw [branchOf?, hx, Option.bind_some] at ht
  exact ⟨t, ht, (of_target? ht).2⟩

end Context

theorem Reachable.exists_contractText {ctx : Context} (h : Reachable ctx) {c : ValueId}
    (hc : ctx.ownsValue c) : ∃ text, ctx.contractText c = .ok text := by
  obtain ⟨vs, hvs⟩ := h.rooted.ascends c
  exact hvs.exists_contractTextUpTo h.sound h.addressed hc (by omega)

/-- **Every instruction keeps its shape, and everything can be written out.**
The instructions of a reachable context have as many results and operands as
their opcode accepts, all of them values of the context. A branch either has a
condition or ends its block, never both, and leads to a block, its last operand.
So every instruction, block, function and contract has a text: writing it out
asks for nothing that is not there. -/
theorem instructions_shaped_and_printable {ctx : Context} (reachable : Reachable ctx) :
    (∀ i x, ctx.inst? i = some x →
      x.opcode.shape.accepts x.results.length x.operands.length ∧
      (∀ v ∈ x.results, ctx.ownsValue v) ∧ (∀ v ∈ x.operands, ctx.ownsValue v) ∧
      (x.opcode = .br →
        x.isConditional = !x.isUnconditional ∧
        ∃ t, ctx.target? x = some t ∧ x.operands.getLast? = some t ∧
          ctx.kind? t = some .block) ∧
      ∃ text, ctx.instText i = .ok text) ∧
    (∀ b, ctx.kind? b = some .block → ∃ text, ctx.blockText b = .ok text) ∧
    (∀ f, ctx.kind? f = some .function → ∃ text, ctx.functionText f = .ok text) ∧
    ∀ c, ctx.kind? c = some .contract → ∃ text, ctx.contractText c = .ok text := by
  have h := reachable.sound
  refine ⟨fun i x hx => ?_, fun b hb => Context.exists_blockText h hb, fun f hf => ?_,
    fun c hc => ?_⟩
  · have hshape := h.shaped.shaped hx
    refine ⟨?_, fun v hv => ?_, fun v hv => ?_, fun hop => ⟨hshape.isConditional_eq hop, ?_⟩, ?_⟩
    · rw [Shape.accepts, hshape.results, hshape.operands]
      rfl
    · exact hshape.owned v (List.mem_append_left x.operands hv)
    · exact hshape.owned v (List.mem_append_right x.results hv)
    · exact Context.exists_target? h.shaped hx hop
    · exact Context.exists_instText h.shaped hx
  · exact Context.exists_functionText h (Context.ownsValue_of_kind? hf)
  · exact reachable.exists_contractText (Context.ownsValue_of_kind? hc)

/-- A contract with a function of two blocks. A call to another account and a
branch to the second block are created, the condition of the branch is then
replaced, and to replace its target by a local is refused. -/
def redirectedBranch : Context :=
  Operation.runAll
    [.createContract "c", .createFunction true "f" (some ⟨0, 0⟩),
      .createBlock "entry" (some ⟨0, 1⟩) none, .createBlock "exit" (some ⟨0, 1⟩) none,
      .createLocal "x" (some ⟨0, 1⟩), .createLocal "y" (some ⟨0, 1⟩), .constant 7 false,
      .createForm (.accountCall false ⟨0, 4⟩ [⟨0, 5⟩] ⟨0, 1⟩ ⟨0, 6⟩ (some ⟨0, 6⟩) ⟨0, 6⟩ [⟨0, 5⟩])
        (.atEnd ⟨0, 2⟩),
      .createForm (.branch ⟨0, 4⟩ ⟨0, 3⟩) (.atEnd ⟨0, 2⟩), .setOperand ⟨0, 1⟩ 0 ⟨0, 5⟩,
      .setOperand ⟨0, 1⟩ 1 ⟨0, 4⟩] { id := 0 }

/-- The branch still has a condition, which is the new one, and leads to the
second block; and the contract can be written out. -/
theorem instructions_shaped_and_printable_redirectedBranch :
    Reachable redirectedBranch ∧
    redirectedBranch.inst? ⟨0, 1⟩ = some ⟨.br, [], [⟨0, 5⟩, ⟨0, 3⟩], some ⟨0, 2⟩⟩ ∧
    redirectedBranch.target? ⟨.br, [], [⟨0, 5⟩, ⟨0, 3⟩], some ⟨0, 2⟩⟩ = some ⟨0, 3⟩ ∧
    (∃ text, redirectedBranch.instText ⟨0, 1⟩ = .ok text) ∧
    ∃ text, redirectedBranch.contractText ⟨0, 0⟩ = .ok text := by
  have hreachable : Reachable redirectedBranch := (Reachable.empty 0).runAll (by decide)
  have hbranch : redirectedBranch.inst? ⟨0, 1⟩ =
      some ⟨.br, [], [⟨0, 5⟩, ⟨0, 3⟩], some ⟨0, 2⟩⟩ := by decide
  obtain ⟨hinsts, -, -, hcontracts⟩ := instructions_shaped_and_printable hreachable
  obtain ⟨-, -, -, hbr, htext⟩ := hinsts _ _ hbranch
  obtain ⟨-, t, ht, hlast, -⟩ := hbr rfl
  obtain rfl : ⟨0, 3⟩ = t := Option.some.inj hlast
  exact ⟨hreachable, hbranch, ht, htext, hcontracts ⟨0, 0⟩ (by decide)⟩

end ContractIR
