import Mathlib.Logic.Function.Basic
import ContractIR.Context.Basic
import ContractIR.Sequence
/-!
# What a function does

A run of a function starts at the front of its first block. A branch with a
condition goes to the front of its target if the condition is not zero, and
to the next instruction otherwise; a branch without one always goes to its
target; a return or a revert ends the run with the values of its operands.
Behind the last instruction of a block comes the next block, and behind the
last block the run ends.

What the other instructions do is up to an `Interpretation`: it answers an
opcode, the values of the operands and the state of the world outside with
results and a new state, or it halts. All that is asked of it is that a copy
copies. A `Machine` moreover leaves the outside alone and does not halt at
**quiet** instructions, which have results and no side effects.

Everything but the quiet instructions is observed, in order, with its operands
and the state it met. A run is cut off after a number of blocks, so a run that
never ends is described by all its beginnings.
-/

namespace ContractIR

universe u v

/-- The answer to an operation: a result for each position and the state
outside, or that the run halts in a state. -/
inductive Response (D : Type u) (E : Type v)
  | results (values : Nat → D) (outside : E)
  | halt (outside : E)

/-- **An interpretation of the opcodes**, over values `D` and states of the
world outside `E`. An operation is given its opcode, how many results are
wanted, the values of its operands and the state. -/
structure Interpretation (D : Type u) (E : Type v) where
  /-- Whether a condition fails. -/
  isZero : D → Bool
  /-- What an operation does. -/
  perform : Opcode → Nat → List D → E → Response D E
  /-- An assignment copies. -/
  copies : ∀ (d : D) (e : E), perform .assign 1 [d] e = .results (fun _ => d) e

/-- **An interpretation that leaves quiet operations quiet.** -/
structure Machine (D : Type u) (E : Type v) extends Interpretation D E where
  /-- Quiet operations neither halt nor change anything outside. -/
  quiet : ∀ (op : Opcode) (n : Nat) (args : List D) (e : E), op.mayHaveSideEffects = false →
    0 < n → ∃ values, perform op n args e = .results values e

/-- How a run ends. -/
inductive Outcome (D : Type u)
  | returned (values : List D)
  | reverted (values : List D)
  /-- An operation halted. -/
  | halted
  /-- Control ran past the last block. -/
  | ended
  /-- Control left the function for a block of another one. -/
  | strayed (target : ValueId)
  /-- A branch had no operands that a branch can have. -/
  | stuck
deriving DecidableEq

/-- How control leaves a run of instructions before its end: to a block, or
for good. -/
inductive Departure (D : Type u)
  | jumps (target : ValueId)
  | stops (outcome : Outcome D)
deriving DecidableEq

/-- What an instruction makes of the values of its operands: results and a
state, or a departure in a state. -/
inductive Reaction (D : Type u) (E : Type v)
  | next (values : Nat → D) (outside : E)
  | leave (departure : Departure D) (outside : E)

/-- An observed instruction: its opcode, the values of its operands and the
state it met. -/
structure Action (D : Type u) (E : Type v) where
  opcode : Opcode
  operands : List D
  outside : E
deriving DecidableEq

/-- What a run of instructions did, how control left it, if not past its end,
and what it left. -/
structure Stretch (D : Type u) (E : Type v) where
  trace : List (Action D E)
  departure : Option (Departure D)
  store : ValueId → D
  outside : E

/-- What a run of a function did so far, how it ended, if it did, and the
state outside. -/
structure Run (D : Type u) (E : Type v) where
  trace : List (Action D E)
  outcome : Option (Outcome D)
  outside : E

/-- Quiet instructions have results and no side effects. -/
def Instruction.isQuiet (x : Instruction) : Bool :=
  !x.opcode.mayHaveSideEffects && !x.results.isEmpty

theorem Instruction.isQuiet_iff {x : Instruction} :
    x.isQuiet ↔ x.opcode.mayHaveSideEffects = false ∧ 0 < x.results.length := by
  rw [isQuiet, Bool.and_eq_true, Bool.not_eq_true', Bool.not_eq_true',
    List.isEmpty_eq_false_iff, List.length_pos_iff]

/-- The instructions behind some handles. -/
def Context.codeOf (ctx : Context) (is : List InstId) : List Instruction := is.filterMap ctx.inst?

/-- The instructions of a block. -/
def Context.code (ctx : Context) (b : ValueId) : List Instruction := ctx.codeOf (ctx.body b)

variable {D : Type u} {E : Type v}

namespace Stretch

/-- The same after something that was observed before. -/
def behind (trace : List (Action D E)) (s : Stretch D E) : Stretch D E :=
  { s with trace := trace ++ s.trace }

theorem behind_behind (trace trace' : List (Action D E)) (s : Stretch D E) :
    (s.behind trace').behind trace = s.behind (trace ++ trace') := by
  rw [behind, behind, behind, List.append_assoc]

end Stretch

namespace Run

/-- The same after something that was observed before. -/
def behind (trace : List (Action D E)) (r : Run D E) : Run D E :=
  { r with trace := trace ++ r.trace }

end Run

/-- Writes values, counted from a position, into locals; a local that is
written twice keeps the last. -/
def write (values : Nat → D) : Nat → List ValueId → (ValueId → D) → ValueId → D
  | _, [], σ => σ
  | k, v :: vs, σ => write values (k + 1) vs (Function.update σ v (values k))

section Write

variable {values : Nat → D} {k : Nat} {vs : List ValueId} {w : ValueId} {σ τ : ValueId → D}

theorem write_of_not_mem (h : w ∉ vs) : write values k vs σ w = σ w := by
  induction vs generalizing k σ with
  | nil => rfl
  | cons v vs ih =>
    obtain ⟨hne, hvs⟩ := not_or.1 (mt List.mem_cons.2 h)
    rw [write, ih hvs, Function.update_of_ne hne]

/-- What is written does not depend on what was there. -/
theorem write_congr (h : w ∉ vs → σ w = τ w) : write values k vs σ w = write values k vs τ w := by
  induction vs generalizing k σ τ with
  | nil => exact h List.not_mem_nil
  | cons v vs ih =>
    refine ih fun hvs => ?_
    by_cases hv : w = v
    · rw [hv, Function.update_self, Function.update_self]
    · rw [Function.update_of_ne hv, Function.update_of_ne hv]
      exact h fun hw => (List.mem_cons.1 hw).elim hv hvs

end Write

namespace Interpretation

variable (M : Interpretation D E)

/-- What an instruction makes of the values of its operands. -/
def react (x : Instruction) (values : List D) (e : E) : Reaction D E :=
  match x.opcode with
  | .ret => .leave (.stops (.returned values)) e
  | .revert => .leave (.stops (.reverted values)) e
  | .br =>
    match x.operands.getLast?, values with
    | some target, [_] => .leave (.jumps target) e
    | some target, [condition, _] =>
      if M.isZero condition then .next (fun _ => condition) e else .leave (.jumps target) e
    | _, _ => .leave (.stops .stuck) e
  | op =>
    match M.perform op x.results.length values e with
    | .results values e => .next values e
    | .halt e => .leave (.stops .halted) e

/-- What is observed of an instruction. -/
def notice (x : Instruction) (values : List D) (e : E) : List (Action D E) :=
  if x.isQuiet then [] else [⟨x.opcode, values, e⟩]

/-- **Carries out instructions**, as far as control goes from one to the
next. -/
def walk : List Instruction → (ValueId → D) → E → Stretch D E
  | [], σ, e => ⟨[], none, σ, e⟩
  | x :: xs, σ, e =>
    match M.react x (x.operands.map σ) e with
    | .next values e' =>
      (walk xs (write values 0 x.results σ) e').behind (notice x (x.operands.map σ) e)
    | .leave departure e' => ⟨notice x (x.operands.map σ) e, some departure, σ, e'⟩

/-- **Carries out blocks**, at most a number of them, from the first of `rest`
on; `code` gives their instructions, and a branch goes on at its target among
`blocks`. -/
def follow (code : ValueId → List Instruction) (blocks : List ValueId) :
    Nat → List ValueId → (ValueId → D) → E → Run D E
  | 0, _, _, e => ⟨[], none, e⟩
  | _ + 1, [], _, e => ⟨[], some .ended, e⟩
  | n + 1, b :: rest, σ, e =>
    let s := M.walk (code b) σ e
    match s.departure with
    | none => (follow code blocks n rest s.store s.outside).behind s.trace
    | some (.jumps target) =>
      if target ∈ blocks then
        (follow code blocks n (blocks.dropWhile (· ≠ target)) s.store s.outside).behind s.trace
      else ⟨s.trace, some (.strayed target), s.outside⟩
    | some (.stops outcome) => ⟨s.trace, some outcome, s.outside⟩

/-- **A run of a function**, cut off after `n` blocks. -/
def run (ctx : Context) (f : ValueId) (n : Nat) (σ : ValueId → D) (e : E) : Run D E :=
  M.follow ctx.code (ctx.members f .blocks) n (ctx.members f .blocks) σ e

/-! ## Single instructions -/

variable {M} {x y : Instruction} {xs ys zs : List Instruction} {σ : ValueId → D} {e : E}

theorem react_of_ordinary (h : x.opcode.isTerminator = false) (values : List D) (e : E) :
    M.react x values e =
      match M.perform x.opcode x.results.length values e with
      | .results values e => .next values e
      | .halt e => .leave (.stops .halted) e := by
  unfold react
  cases hop : x.opcode with
  | ret | revert | br => rw [hop] at h; exact absurd h (by decide)
  | _ => rfl

/-- What an instruction makes of values depends on its opcode, on how many
results it has and, for a branch, on its target. -/
theorem react_congr (hop : y.opcode = x.opcode) (hresults : y.results = x.results)
    (htarget : x.opcode = .br → y.operands.getLast? = x.operands.getLast?) (values : List D)
    (e : E) : M.react y values e = M.react x values e := by
  by_cases hbr : x.opcode = .br
  · unfold react
    rw [hop, hbr, htarget hbr]
  · unfold react
    rw [hop, hresults]
    cases hx : x.opcode with
    | br => exact absurd hx hbr
    | _ => rfl

theorem react_copy {u w : ValueId} (hop : x.opcode = .assign) (hresults : x.results = [u])
    (hoperands : x.operands = [w]) :
    M.react x (x.operands.map σ) e = .next (fun _ => σ w) e := by
  rw [react_of_ordinary (by rw [hop]; rfl), hop, hresults, hoperands, List.map_singleton,
    List.length_singleton, M.copies]

/-! ## Runs of instructions -/

theorem walk_cons_of_next {values : Nat → D} {e' : E}
    (h : M.react x (x.operands.map σ) e = .next values e') :
    M.walk (x :: xs) σ e =
      (M.walk xs (write values 0 x.results σ) e').behind (notice x (x.operands.map σ) e) := by
  rw [walk, h]

theorem walk_cons_of_leave {departure : Departure D} {e' : E}
    (h : M.react x (x.operands.map σ) e = .leave departure e') :
    M.walk (x :: xs) σ e = ⟨notice x (x.operands.map σ) e, some departure, σ, e'⟩ := by
  rw [walk, h]

/-- Control that falls out of the first instructions goes on with the others. -/
theorem walk_append_of_falls (h : (M.walk xs σ e).departure = none) :
    M.walk (xs ++ ys) σ e =
      (M.walk ys (M.walk xs σ e).store (M.walk xs σ e).outside).behind (M.walk xs σ e).trace := by
  induction xs generalizing σ e with
  | nil => rfl
  | cons x xs ih =>
    rw [List.cons_append]
    cases hreact : M.react x (x.operands.map σ) e with
    | leave departure e' =>
      rw [walk_cons_of_leave hreact] at h
      cases h
    | next values e' =>
      rw [walk_cons_of_next hreact] at h ⊢
      rw [walk_cons_of_next hreact, ih h, Stretch.behind_behind]
      rfl

/-- Other control goes nowhere near the others. -/
theorem walk_append_of_leaves (h : (M.walk xs σ e).departure ≠ none) :
    M.walk (xs ++ ys) σ e = M.walk xs σ e := by
  induction xs generalizing σ e with
  | nil => exact absurd rfl h
  | cons x xs ih =>
    rw [List.cons_append]
    cases hreact : M.react x (x.operands.map σ) e with
    | leave departure e' => rw [walk_cons_of_leave hreact, walk_cons_of_leave hreact]
    | next values e' =>
      rw [walk_cons_of_next hreact] at h ⊢
      rw [walk_cons_of_next hreact, ih h]

/-- Control that falls out of code has passed its last instruction. -/
theorem exists_react_of_falls (h : (M.walk (xs ++ [x]) σ e).departure = none) :
    (M.walk xs σ e).departure = none ∧ ∃ values e',
      M.react x (x.operands.map (M.walk xs σ e).store) (M.walk xs σ e).outside = .next values e' ∧
      (M.walk (xs ++ [x]) σ e).store = write values 0 x.results (M.walk xs σ e).store := by
  have hfalls : (M.walk xs σ e).departure = none := by
    by_contra hleaves
    rw [walk_append_of_leaves hleaves] at h
    exact hleaves h
  rw [walk_append_of_falls hfalls] at h ⊢
  refine ⟨hfalls, ?_⟩
  cases hreact : M.react x (x.operands.map (M.walk xs σ e).store) (M.walk xs σ e).outside with
  | leave departure e' =>
    rw [walk_cons_of_leave hreact] at h
    cases h
  | next values e' => exact ⟨values, e', rfl, by rw [walk_cons_of_next hreact]; rfl⟩

end Interpretation

/-- A quiet instruction only writes its results. -/
theorem Machine.react_quiet {M : Machine D E} {x : Instruction}
    (hop : x.opcode.isTerminator = false) (h : x.isQuiet) (values : List D)
    (e : E) : ∃ results, M.react x values e = .next results e := by
  obtain ⟨heffects, hpos⟩ := Instruction.isQuiet_iff.1 h
  obtain ⟨results, hresults⟩ := M.quiet x.opcode x.results.length values e heffects hpos
  exact ⟨results, by rw [Interpretation.react_of_ordinary hop, hresults]⟩

/-- A machine that knows one operation: every result is the sum of the
operands. -/
def adder : Machine Nat Unit where
  isZero d := d == 0
  perform _ _ args _ := .results (fun _ => Sequence.total args) ()
  quiet _ _ _ _ _ _ := ⟨_, rfl⟩
  copies _ _ := rfl

end ContractIR
