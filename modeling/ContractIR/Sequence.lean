/-!
# Sequences

Members and instructions are kept in lists, and edits speak of places in
them: before a given element or at the end, and of runs of neighbouring
positions. These are the list operations those edits are made of.
-/

namespace ContractIR

namespace Sequence

variable {α : Type}

/-- The position a new element takes: that of `before`, or the end when no
element is named. -/
def position? [DecidableEq α] (before : Option α) (l : List α) : Option Nat :=
  match before with
  | none => some l.length
  | some b => l.idxOf? b

/-- The sum of some counts. -/
def total (counts : List Nat) : Nat := counts.foldr (fun n sum => n + sum) 0

/-- Puts a run of elements at a position. -/
def splice (i : Nat) (run l : List α) : List α := l.take i ++ run ++ l.drop i

/-- The elements at positions `start` up to, not including, `stop`. -/
def slice (start stop : Nat) (l : List α) : List α := (l.drop start).take (stop - start)

/-- What is left when those positions are taken out. -/
def cut (start stop : Nat) (l : List α) : List α := l.take start ++ l.drop stop

/-- The element after the first occurrence of `a`. -/
def next? [DecidableEq α] (a : α) : List α → Option α
  | [] => none
  | b :: l => if b = a then l.head? else next? a l

/-- Splicing at the end appends. -/
@[simp] theorem splice_length (run l : List α) : splice l.length run l = l ++ run := by
  simp [splice]

/-- A splice keeps what was there. -/
theorem mem_splice {i : Nat} {run l : List α} {a : α} : a ∈ splice i run l ↔ a ∈ run ∨ a ∈ l := by
  have h : a ∈ l ↔ a ∈ l.take i ∨ a ∈ l.drop i := by
    rw [← List.mem_append, List.take_append_drop]
  simp only [splice, List.mem_append, h]
  grind

end Sequence

end ContractIR
