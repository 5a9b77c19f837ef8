import Mathlib.Algebra.Order.Ring.Nat
import Mathlib.Order.Bounds.Basic
import ContractIR.Proofs.SymbolTable
/-!
# The next free number

A name that is taken is made unique by counting: the counter goes up by one
until the name with that number is free. `CountsTo` is this loop as it stands,
with no bound of its own and a counter of 32 bits. It ends at the least free
number behind the counter if that number fits, and in no other way
(`countsTo_iff`).

The counter serves all names of the table, and a name may be asked for with
digits at its end, so any number can turn out to be taken. That the loop ends,
and how soon, comes from counting names (`exists_free`): the table cannot have
the name and, for each of as many numbers as it has names, the name with that
number.
-/

namespace ContractIR

namespace SymbolTable

variable {t : SymbolTable} {name : String} {isGlobal : Bool} {n k : Nat}

/-- The number stands behind the name, for global values behind a dot. -/
theorem numbered_eq_append (name : String) (isGlobal : Bool) (n : Nat) :
    numbered name isGlobal n = name ++ (if isGlobal then "." else "") ++ toString n := by
  refine String.toList_inj.1 ?_
  rw [toList_numbered]
  cases isGlobal <;> simp

/-! ## Free numbers -/

/-- The numbers behind `n` that make the name free. -/
def freeNumbers (t : SymbolTable) (name : String) (isGlobal : Bool) (n : Nat) : Set Nat :=
  {k | n < k ∧ t.contains (numbered name isGlobal k) = false}

/-- The next number is the least free one if it is free at all. -/
theorem isLeast_succ (hfree : t.contains (numbered name isGlobal (n + 1)) = false) :
    IsLeast (t.freeNumbers name isGlobal n) (n + 1) :=
  ⟨⟨Nat.lt_succ_self n, hfree⟩, fun _ hm => hm.1⟩

/-- Passing over a number that is taken loses no free one. -/
theorem freeNumbers_succ (htaken : t.contains (numbered name isGlobal (n + 1)) = true) :
    t.freeNumbers name isGlobal (n + 1) = t.freeNumbers name isGlobal n := by
  ext m
  refine ⟨fun ⟨hlt, hfree⟩ => ⟨by omega, hfree⟩, fun ⟨hlt, hfree⟩ => ⟨?_, hfree⟩⟩
  have hne : m ≠ n + 1 := by
    rintro rfl
    rw [htaken] at hfree
    cases hfree
  omega

/-- The least free number is no further away than the table has names. -/
theorem isLeast_le_add_size (htaken : t.contains name = true)
    (hk : IsLeast (t.freeNumbers name isGlobal n) k) : k ≤ n + t.size := by
  obtain ⟨m, hle, hlt, hm⟩ := exists_free htaken isGlobal (n + 1)
  have hkm : k ≤ m := hk.2 ⟨by omega, hm⟩
  omega

/-- A name that is taken is entered with the least free number. -/
theorem enter_of_taken (htaken : t.contains name = true) (value : ValueId) (isGlobal : Bool) :
    ∃ k, IsLeast (t.freeNumbers name isGlobal t.lastUnique) k ∧
      t.enter name value isGlobal = (numbered name isGlobal k,
        { entries := t.entries.insert (numbered name isGlobal k) value, lastUnique := k }) := by
  rcases t.enter_cases name value isGlobal with
    ⟨hfree, -⟩ | ⟨-, k, hlow, hfree, hbelow, henter⟩
  · rw [htaken] at hfree
    cases hfree
  · refine ⟨k, ⟨⟨hlow, hfree⟩, fun m hm => Nat.not_lt.1 fun hmk => ?_⟩, henter⟩
    have hmtaken := hbelow m hm.1 hmk
    rw [hm.2] at hmtaken
    cases hmtaken

/-! ## The loop without a bound -/

/-- **Counting up until the name is free**: from where the counter stands to
where it stands in the end. The counter has 32 bits, and a turn in which it
would overflow has no rule. -/
inductive CountsTo (t : SymbolTable) (name : String) (isGlobal : Bool) : Nat → Nat → Prop
  /-- The loop ends at a number that makes the name free. -/
  | found {n : Nat} (fits : n + 1 < 2 ^ 32)
      (free : t.contains (numbered name isGlobal (n + 1)) = false) :
      CountsTo t name isGlobal n (n + 1)
  /-- After any other it goes on. -/
  | again {n k : Nat} (fits : n + 1 < 2 ^ 32)
      (taken : t.contains (numbered name isGlobal (n + 1)) = true)
      (rest : CountsTo t name isGlobal (n + 1) k) : CountsTo t name isGlobal n k

/-- Where the loop ends is the least free number. -/
theorem CountsTo.isLeast (h : t.CountsTo name isGlobal n k) :
    IsLeast (t.freeNumbers name isGlobal n) k ∧ k < 2 ^ 32 := by
  induction h with
  | found fits free => exact ⟨isLeast_succ free, fits⟩
  | again fits taken rest ih => rwa [freeNumbers_succ taken] at ih

/-- The loop gets to the least free number if the counter can. -/
theorem countsTo_of_isLeast (hk : IsLeast (t.freeNumbers name isGlobal n) k) (hfits : k < 2 ^ 32) :
    t.CountsTo name isGlobal n k := by
  -- What is left to count shrinks in each turn, and the free numbers stay the same.
  induction hleft : k - n generalizing n with
  | zero =>
    have hlt : n < k := hk.1.1
    omega
  | succ left ih =>
    cases hnext : t.contains (numbered name isGlobal (n + 1)) with
    | false =>
      obtain rfl : k = n + 1 := hk.unique (isLeast_succ hnext)
      exact .found hfits hnext
    | true =>
      rw [← freeNumbers_succ hnext] at hk
      exact .again (by omega) hnext (ih hk (by omega))

/-- **The loop ends at the least free number**, if that fits, and nowhere
else. -/
theorem countsTo_iff :
    t.CountsTo name isGlobal n k ↔ IsLeast (t.freeNumbers name isGlobal n) k ∧ k < 2 ^ 32 :=
  ⟨CountsTo.isLeast, fun ⟨hk, hfits⟩ => countsTo_of_isLeast hk hfits⟩

/-- There is one place where the loop can end. -/
theorem countsTo_iff_eq (hk : IsLeast (t.freeNumbers name isGlobal n) k) (hfits : k < 2 ^ 32)
    (m : Nat) : t.CountsTo name isGlobal n m ↔ m = k := by
  rw [countsTo_iff]
  refine ⟨fun ⟨hm, _⟩ => hm.unique hk, ?_⟩
  rintro rfl
  exact ⟨hk, hfits⟩

end SymbolTable

open SymbolTable

/-- **A name is made unique by the next free number.** In a table whose counter
has room for as many numbers as there are names, a name that is free is entered
as it is and the counter stays. For a name that is taken the loop comes to an
end, and entering uses the number it ends at: the least behind the counter that
makes the name free, by which the counter goes on no further than there are
names. Either way the name that is used was free and stands for the value
afterwards, and every other name stands for what it did. -/
theorem enter_uses_next_free (t : SymbolTable) (name : String) (value : ValueId) (isGlobal : Bool)
    (room : t.lastUnique + t.size < 2 ^ 32) :
    ∃ used after, t.enter name value isGlobal = (used, after) ∧
      (t.contains name = false → used = name ∧ after.lastUnique = t.lastUnique) ∧
      (t.contains name = true → ∃ k,
        (∀ m, t.CountsTo name isGlobal t.lastUnique m ↔ m = k) ∧
        IsLeast (t.freeNumbers name isGlobal t.lastUnique) k ∧
        used = name ++ (if isGlobal then "." else "") ++ toString k ∧
        after.lastUnique = k ∧ k ≤ t.lastUnique + t.size) ∧
      t.contains used = false ∧ after.lookup? used = some value ∧
      ∀ other, other ≠ used → after.lookup? other = t.lookup? other := by
  have hunused := t.lookup?_enter_used name value isGlobal
  have hlookup := t.lookup?_enter name value isGlobal
  rcases hentered : t.enter name value isGlobal with ⟨used, after⟩
  rw [hentered] at hunused hlookup
  refine ⟨used, after, rfl, fun hfree => ?_, fun htaken => ?_, ?_, ?_, fun other hother => ?_⟩
  · obtain ⟨rfl, rfl⟩ := Prod.mk.inj (hentered.symm.trans (enter_of_free hfree value isGlobal))
    exact ⟨rfl, rfl⟩
  · obtain ⟨k, hk, hnumbered⟩ := enter_of_taken htaken value isGlobal
    obtain ⟨rfl, rfl⟩ := Prod.mk.inj (hentered.symm.trans hnumbered)
    have hle := isLeast_le_add_size htaken hk
    exact ⟨k, countsTo_iff_eq hk (by omega), hk, numbered_eq_append name isGlobal k, rfl, hle⟩
  · rw [contains_eq_isSome, hunused]
    rfl
  · rw [hlookup, if_pos rfl]
  · rw [hlookup, if_neg hother]

/-- A table with the names `x1`, `x2` and `x`, entered in this order. -/
def digitNames : SymbolTable :=
  let t := (({} : SymbolTable).enter "x1" ⟨0, 0⟩ false).2
  let t := (t.enter "x2" ⟨0, 1⟩ false).2
  (t.enter "x" ⟨0, 2⟩ false).2

/-- Another `x` is numbered past both names with a digit, so the counter goes as
far as three names can make it go. -/
theorem enter_uses_next_free_digitNames :
    digitNames.lastUnique + digitNames.size < 2 ^ 32 ∧ digitNames.lastUnique = 0 ∧
      digitNames.size = 3 ∧
      ∃ after, digitNames.enter "x" ⟨0, 3⟩ false = ("x3", after) ∧ after.lastUnique = 3 ∧
        digitNames.CountsTo "x" false 0 3 ∧ after.lookup? "x3" = some ⟨0, 3⟩ ∧
        after.lookup? "x" = some ⟨0, 2⟩ := by
  have hcounter : digitNames.lastUnique = 0 := by decide +kernel
  have hsize : digitNames.size = 3 := by decide +kernel
  have hroom : digitNames.lastUnique + digitNames.size < 2 ^ 32 := by
    rw [hcounter, hsize]
    decide
  have hspelled : (digitNames.enter "x" ⟨0, 3⟩ false).1 = "x3" := by decide +kernel
  have hcounted : (digitNames.enter "x" ⟨0, 3⟩ false).2.lastUnique = 3 := by decide +kernel
  obtain ⟨used, after, hentered, -, htaken, -, hvalue, hothers⟩ :=
    enter_uses_next_free digitNames "x" ⟨0, 3⟩ false hroom
  obtain ⟨k, hcounts, -, -, hk, -⟩ := htaken (by decide +kernel)
  rw [hentered] at hspelled hcounted
  obtain rfl : used = "x3" := hspelled
  refine ⟨hroom, hcounter, hsize, after, hentered, hcounted, ?_, hvalue, ?_⟩
  · rw [← hcounter]
    exact (hcounts 3).2 (hcounted.symm.trans hk)
  · rw [hothers "x" (by decide)]
    decide +kernel

end ContractIR
