import Mathlib.Data.List.Nodup
import Mathlib.Data.List.Perm.Subperm
import ContractIR.SymbolTable
/-!
# Names that are made unique

A name that is taken is followed by a number, and the numbers are tried one
after the other, as many of them as the table has names. Different numbers
give different names, and none of them gives the name itself, which is in the
table too. So one of the names that are tried is free (`exists_free`), and a
name is never entered over another value's.
-/

namespace ContractIR

namespace SymbolTable

variable {t : SymbolTable} {name : String} {value : ValueId} {isGlobal : Bool} {count n m : Nat}

/-! ## Numbered names -/

theorem toList_numbered (name : String) (isGlobal : Bool) (n : Nat) :
    (numbered name isGlobal n).toList =
      name.toList ++ ((if isGlobal then ['.'] else []) ++ Nat.toDigits 10 n) := by
  have hspelling : ∀ s : String, toString s = s := fun _ => rfl
  unfold numbered
  cases isGlobal <;> simp [hspelling]

/-- Different numbers make different names. -/
theorem numbered_injective (name : String) (isGlobal : Bool) :
    Function.Injective (numbered name isGlobal) := by
  intro n m h
  have hdigits : Nat.toDigits 10 n = Nat.toDigits 10 m := by
    have hlists := congrArg String.toList h
    rw [toList_numbered, toList_numbered] at hlists
    exact List.append_cancel_left (List.append_cancel_left hlists)
  have hvalue := congrArg (fun ds => Nat.ofDigitChars 10 ds 0) hdigits
  simpa using hvalue

/-- A numbered name is longer than the name. -/
theorem length_lt_numbered (name : String) (isGlobal : Bool) (n : Nat) :
    name.toList.length < (numbered name isGlobal n).toList.length := by
  have hdigits : 0 < (Nat.toDigits 10 n).length := Nat.length_toDigits_pos
  rw [toList_numbered, List.length_append, List.length_append]
  omega

theorem numbered_ne (name : String) (isGlobal : Bool) (n : Nat) :
    numbered name isGlobal n ≠ name := by
  intro h
  have hlt := length_lt_numbered name isGlobal n
  rw [h] at hlt
  exact Nat.lt_irrefl _ hlt

/-! ## The search for a free name -/

/-- The search stops at the first free name, if there is one among those it
tries. -/
theorem firstFree_spec (t : SymbolTable) (name : String) (isGlobal : Bool) (count n : Nat) :
    n ≤ t.firstFree name isGlobal count n ∧ t.firstFree name isGlobal count n ≤ n + count ∧
      (∀ m, n ≤ m → m < t.firstFree name isGlobal count n →
        t.contains (numbered name isGlobal m) = true) ∧
      (t.firstFree name isGlobal count n < n + count →
        t.contains (numbered name isGlobal (t.firstFree name isGlobal count n)) = false) := by
  induction count generalizing n with
  | zero =>
    refine ⟨Nat.le_refl n, Nat.le_refl n, fun m hm hlt => ?_, fun hlt => ?_⟩
    · exact absurd hlt (Nat.not_lt.2 hm)
    · exact absurd hlt (Nat.lt_irrefl n)
  | succ count ih =>
    unfold firstFree
    split
    · rename_i htaken
      obtain ⟨hlow, hhigh, hbelow, hfree⟩ := ih (n + 1)
      refine ⟨by omega, by omega, fun m hm hlt => ?_, fun hlt => hfree (by omega)⟩
      by_cases hmn : m = n
      · rw [hmn]
        exact htaken
      · exact hbelow m (by omega) hlt
    · rename_i hfree
      refine ⟨Nat.le_refl n, by omega, fun m hm hlt => ?_, fun _ => by simpa using hfree⟩
      exact absurd hlt (Nat.not_lt.2 hm)

/-- Names that are in the table and differ are no more than the table has. -/
theorem length_le_size {names : List String} (hnodup : names.Nodup)
    (htaken : ∀ s ∈ names, t.contains s = true) : names.length ≤ t.size := by
  have hsub : names ⊆ t.entries.keys := fun s hs =>
    Std.ExtTreeMap.mem_keys.2 (Std.ExtTreeMap.contains_iff_mem.1 (htaken s hs))
  have hle := (List.subperm_of_subset hnodup hsub).length_le
  rwa [Std.ExtTreeMap.length_keys] at hle

/-- **One of the numbers makes the name free**, of as many in a row as the table
has names. Were all the names they make taken, the table would have them and the
name itself, one more than it has. -/
theorem exists_free (htaken : t.contains name = true) (isGlobal : Bool) (n : Nat) :
    ∃ m, n ≤ m ∧ m < n + t.size ∧ t.contains (numbered name isGlobal m) = false := by
  by_contra hnone
  have hnodup : (name :: (List.range' n t.size).map (numbered name isGlobal)).Nodup := by
    refine List.nodup_cons.2 ⟨fun hmem => ?_, ?_⟩
    · obtain ⟨m, -, hm⟩ := List.mem_map.1 hmem
      exact numbered_ne name isGlobal m hm
    · exact List.Nodup.map (numbered_injective name isGlobal) (List.nodup_range' 1)
  have hall : ∀ s ∈ name :: (List.range' n t.size).map (numbered name isGlobal),
      t.contains s = true := by
    intro s hs
    rcases List.mem_cons.1 hs with rfl | hs
    · exact htaken
    · obtain ⟨m, hm, rfl⟩ := List.mem_map.1 hs
      rw [List.mem_range'_1] at hm
      by_contra hfree
      exact hnone ⟨m, hm.1, hm.2, Bool.eq_false_iff.2 hfree⟩
  have hle := length_le_size hnodup hall
  rw [List.length_cons, List.length_map, List.length_range'] at hle
  omega

/-- **The search finds a free name**, because there is one among those it
tries. -/
theorem contains_numbered_firstFree (htaken : t.contains name = true) (isGlobal : Bool) (n : Nat) :
    t.contains (numbered name isGlobal (t.firstFree name isGlobal t.size n)) = false := by
  obtain ⟨-, hhigh, hbelow, hfree⟩ := t.firstFree_spec name isGlobal t.size n
  obtain ⟨m, hle, hlt, hm⟩ := exists_free htaken isGlobal n
  refine hfree (Nat.lt_of_le_of_ne hhigh fun hend => ?_)
  rw [hbelow m hle (by omega)] at hm
  cases hm

/-- **What entering does**: a name that is free is used as it is, and one that
is taken with the first number behind the last one used that makes it free. -/
theorem enter_cases (t : SymbolTable) (name : String) (value : ValueId) (isGlobal : Bool) :
    (t.contains name = false ∧
      t.enter name value isGlobal = (name, { t with entries := t.entries.insert name value })) ∨
    (t.contains name = true ∧ ∃ n, t.lastUnique < n ∧
      t.contains (numbered name isGlobal n) = false ∧
      (∀ m, t.lastUnique < m → m < n → t.contains (numbered name isGlobal m) = true) ∧
      t.enter name value isGlobal = (numbered name isGlobal n,
        { entries := t.entries.insert (numbered name isGlobal n) value, lastUnique := n })) := by
  cases hname : t.contains name with
  | false => exact .inl ⟨rfl, enter_of_free hname value isGlobal⟩
  | true =>
    obtain ⟨hlow, -, hbelow, -⟩ := t.firstFree_spec name isGlobal t.size (t.lastUnique + 1)
    refine .inr ⟨rfl, _, hlow, contains_numbered_firstFree hname isGlobal _, hbelow, ?_⟩
    rw [enter, if_pos hname]

/-- **Entering overwrites nothing**: the name that is used was free. -/
theorem lookup?_enter_used (t : SymbolTable) (name : String) (value : ValueId) (isGlobal : Bool) :
    t.lookup? (t.enter name value isGlobal).1 = none := by
  have hfree : ∀ {s}, t.contains s = false → t.lookup? s = none := by
    intro s hs
    rw [contains_eq_isSome] at hs
    simpa using hs
  rcases t.enter_cases name value isGlobal with ⟨hname, henter⟩ | ⟨-, n, -, hnumbered, -, henter⟩
  · rw [henter]
    exact hfree hname
  · rw [henter]
    exact hfree hnumbered

/-- The name that is used is the one asked for, numbered if need be. -/
theorem enter_used_cases (t : SymbolTable) (name : String) (value : ValueId) (isGlobal : Bool) :
    (t.enter name value isGlobal).1 = name ∨
      ∃ n, (t.enter name value isGlobal).1 = numbered name isGlobal n := by
  rcases t.enter_cases name value isGlobal with ⟨-, henter⟩ | ⟨-, n, -, -, -, henter⟩
  · exact .inl (congrArg Prod.fst henter)
  · exact .inr ⟨n, congrArg Prod.fst henter⟩

end SymbolTable

/-! ## Spelling -/

/-- **A name that text can spell**: it is not empty, and there is no NUL in
it. -/
structure Spelled (name : String) : Prop where
  nonempty : name ≠ ""
  no_nul : '\x00' ∉ name.toList

namespace Spelled

open SymbolTable

variable {name : String}

theorem numbered (h : Spelled name) (isGlobal : Bool) (n : Nat) :
    Spelled (numbered name isGlobal n) := by
  refine ⟨fun hempty => ?_, fun hnul => ?_⟩
  · have hlt := length_lt_numbered name isGlobal n
    rw [hempty] at hlt
    exact absurd hlt (Nat.not_lt_zero _)
  · rw [toList_numbered, List.mem_append, List.mem_append] at hnul
    rcases hnul with hname | hdot | hdigit
    · exact h.no_nul hname
    · cases isGlobal
      · exact absurd hdot List.not_mem_nil
      · exact absurd (List.mem_singleton.1 hdot) (by decide)
    · have := Nat.isDigit_of_mem_toDigits (by decide) (Nat.le_refl 10) hdigit
      exact absurd this (by decide)

/-- Making a name unique keeps it one that text can spell. -/
theorem enter (h : Spelled name) (t : SymbolTable) (value : ValueId) (isGlobal : Bool) :
    Spelled (t.enter name value isGlobal).1 := by
  rcases t.enter_used_cases name value isGlobal with hused | ⟨n, hused⟩
  · rw [hused]
    exact h
  · rw [hused]
    exact h.numbered isGlobal n

end Spelled

end ContractIR
