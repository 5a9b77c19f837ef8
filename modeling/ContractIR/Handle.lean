import Std.Data.ExtTreeSet
/-!
# Handles

A context issues one handle per value and one per instruction. A handle
names the context it comes from and a position there, so handles of two
contexts are never equal. Instructions are not values: the two kinds of
handle are different types, and only a value can be an operand.
-/

namespace ContractIR

/-- The identity of a context. -/
abbrev ContextId := Nat

/-- A handle to a value. -/
structure ValueId where
  /-- The context that issued the handle. -/
  context : ContextId
  /-- The value's position in that context. -/
  index : Nat
deriving DecidableEq, Repr

/-- A handle to an instruction. -/
structure InstId where
  /-- The context that issued the handle. -/
  context : ContextId
  /-- The instruction's position in that context. -/
  index : Nat
deriving DecidableEq, Repr

namespace ValueId

/-- The spelling of a value handle in messages. -/
def text (v : ValueId) : String := s!"v{v.index}"

/-- Handles are ordered by context, then by position. -/
instance : Ord ValueId where
  compare := compareLex (compareOn context) (compareOn index)

theorem compare_def (v w : ValueId) :
    compare v w = (compare v.context w.context).then (compare v.index w.index) := rfl

instance : Std.TransOrd ValueId :=
  inferInstanceAs (Std.TransCmp (compareLex (compareOn context) (compareOn index)))

instance : Std.LawfulEqOrd ValueId where
  compare_self {v} := by simp
  eq_of_compare {v w} h := by
    simp only [compare_def, Ordering.then_eq_eq, Std.LawfulEqOrd.compare_eq_iff_eq] at h
    cases v; cases w; simp_all

end ValueId

namespace InstId

/-- The spelling of an instruction handle in messages. -/
def text (i : InstId) : String := s!"i{i.index}"

end InstId

/-- A set of values, listed in handle order. -/
abbrev ValueSet := Std.ExtTreeSet ValueId

end ContractIR
