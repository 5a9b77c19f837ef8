import Std.Data.ExtTreeMap
import ContractIR.Handle
/-!
# Symbol tables

A contract or a function has one table for the names of its members. Each
name stands for one value. A name that is taken is made unique by a number
that only ever grows, so a name given up is not handed out again by
counting. `SymbolTable.enter` finds the number by looking at the numbers
that follow the last one used, at most as many as the table has names: that
is enough, because the names in the table are different and one of them has
no number.
-/

namespace ContractIR

/-- The names in use in one scope. -/
structure SymbolTable where
  /-- What each name stands for, in the order of names. -/
  entries : Std.ExtTreeMap String ValueId := ∅
  /-- The last number that made a name unique. -/
  lastUnique : Nat := 0
deriving DecidableEq

namespace SymbolTable

/-- The value a name stands for. -/
def lookup? (t : SymbolTable) (name : String) : Option ValueId := t.entries[name]?

/-- Whether a name is in use. -/
def contains (t : SymbolTable) (name : String) : Bool := t.entries.contains name

/-- How many names are in use. -/
def size (t : SymbolTable) : Nat := t.entries.size

/-- The names and their values, in the order of names. -/
def toList (t : SymbolTable) : List (String × ValueId) := t.entries.toList

/-- A name made unique by a number; a dot separates the two for global
values. -/
def numbered (name : String) (isGlobal : Bool) (n : Nat) : String :=
  if isGlobal then s!"{name}.{n}" else s!"{name}{n}"

/-- The first number from `n` on, among `count` of them, that makes the name
unique; the number after them if none does. -/
def firstFree (t : SymbolTable) (name : String) (isGlobal : Bool) : Nat → Nat → Nat
  | 0, n => n
  | count + 1, n =>
    if t.contains (numbered name isGlobal n) then firstFree t name isGlobal count (n + 1) else n

/-- Enters a value under a name, or under the name made unique, and says
which was used. -/
def enter (t : SymbolTable) (name : String) (value : ValueId) (isGlobal : Bool) :
    String × SymbolTable :=
  if t.contains name then
    let n := t.firstFree name isGlobal t.size (t.lastUnique + 1)
    let used := numbered name isGlobal n
    (used, { entries := t.entries.insert used value, lastUnique := n })
  else
    (name, { t with entries := t.entries.insert name value })

/-- Gives a name up, if it stands for the value. -/
def leave (t : SymbolTable) (name : String) (value : ValueId) : SymbolTable :=
  if t.lookup? name = some value then { t with entries := t.entries.erase name } else t

/-- Tables with the same names and the same counter are equal. -/
theorem ext_lookup? {s t : SymbolTable} (names : ∀ n, s.lookup? n = t.lookup? n)
    (counter : s.lastUnique = t.lastUnique) : s = t := by
  obtain ⟨se, sl⟩ := s
  obtain ⟨te, tl⟩ := t
  simp only [mk.injEq]
  exact ⟨Std.ExtTreeMap.ext_getElem? names, counter⟩

/-- A name is in use exactly when it stands for something. -/
theorem contains_eq_isSome (t : SymbolTable) (name : String) :
    t.contains name = (t.lookup? name).isSome := by
  simp [contains, lookup?, Std.ExtTreeMap.isSome_getElem?_eq_contains]

/-- A name that is free is entered as it is. -/
theorem enter_of_free {t : SymbolTable} {name : String} (h : t.contains name = false)
    (value : ValueId) (isGlobal : Bool) :
    t.enter name value isGlobal = (name, { t with entries := t.entries.insert name value }) := by
  simp [enter, h]

/-- Entering changes the meaning of the name used and of no other. -/
theorem lookup?_enter (t : SymbolTable) (name : String) (value : ValueId) (isGlobal : Bool)
    (n : String) :
    (t.enter name value isGlobal).2.lookup? n =
      if n = (t.enter name value isGlobal).1 then some value else t.lookup? n := by
  unfold enter
  split <;>
    simp only [lookup?, Std.ExtTreeMap.getElem?_insert, Std.LawfulEqOrd.compare_eq_iff_eq,
      eq_comm (a := n)]

/-- Leaving frees the name if it stood for the value, and changes nothing
else. -/
theorem lookup?_leave (t : SymbolTable) (name : String) (value : ValueId) (n : String) :
    (t.leave name value).lookup? n =
      if n = name ∧ t.lookup? name = some value then none else t.lookup? n := by
  unfold leave
  split
  · rename_i h
    simp only [lookup?, Std.ExtTreeMap.getElem?_erase, Std.LawfulEqOrd.compare_eq_iff_eq] at h ⊢
    by_cases hn : n = name
    · simp [hn, h]
    · simp [hn, Ne.symm hn]
  · rename_i h
    simp [h]

/-- Leaving does not touch the counter. -/
@[simp] theorem lastUnique_leave (t : SymbolTable) (name : String) (value : ValueId) :
    (t.leave name value).lastUnique = t.lastUnique := by
  unfold leave
  split <;> rfl

end SymbolTable

end ContractIR
