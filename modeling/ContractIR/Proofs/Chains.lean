import Mathlib.Data.List.Nodup
import Mathlib.Logic.Function.Basic
import ContractIR.Sequence
/-!
# Lists threaded by links

Lists that share no element can be threaded: every element keeps the one
after it, and the first element of a list leads to all others. The links are
then exactly as good as the lists. Putting an element into a list writes two
links, its own and the one before it, and taking it out writes one and clears
its own; that these writes keep links and lists in step is all there is to
prove, and for links that lead backward it is the same statement about the
lists reversed.
-/

namespace ContractIR

namespace Sequence

variable {α : Type} [DecidableEq α] {a c : α} {pre post : List α}

/-- What follows an element that occurs once. -/
theorem next?_append_cons (h : a ∉ pre) : next? a (pre ++ a :: post) = post.head? := by
  induction pre with
  | nil => simp [next?]
  | cons c pre ih =>
    have hc : c ≠ a := fun hca => h (hca ▸ List.mem_cons_self)
    rw [List.cons_append, next?, if_neg hc]
    exact ih fun ha => h (List.mem_cons_of_mem c ha)

theorem mem_of_next? {l : List α} (h : next? a l = some c) : c ∈ l := by
  induction l with
  | nil => cases h
  | cons d l ih =>
    rw [next?] at h
    split at h
    · exact List.mem_cons_of_mem d (List.mem_of_head? h)
    · exact List.mem_cons_of_mem d (ih h)

/-- A new element follows the one it was put after; what follows any other is
as before. -/
theorem next?_insert (hne : c ≠ a) (nodup : (pre ++ post).Nodup) :
    next? c (pre ++ a :: post) =
      if pre.getLast? = some c then some a else next? c (pre ++ post) := by
  induction pre with
  | nil => simp [next?, Ne.symm hne]
  | cons d pre ih =>
    rw [List.cons_append, List.nodup_cons] at nodup
    have ih := ih nodup.2
    by_cases hd : d = c
    · subst hd
      cases pre with
      | nil => simp [next?]
      | cons e pre =>
        have hlast : (d :: e :: pre).getLast? ≠ some d := by
          rw [List.getLast?_cons_cons]
          exact fun h => nodup.1 (List.mem_append_left post (List.mem_of_getLast? h))
        rw [if_neg hlast]
        simp [next?]
    · have hlast : (d :: pre).getLast? = some c ↔ pre.getLast? = some c := by
        cases pre with
        | nil => simp [hd]
        | cons e pre => rw [List.getLast?_cons_cons]
      simp only [List.cons_append, next?, if_neg hd, ih, hlast]

/-- What followed an element that is gone follows the one before it. -/
theorem next?_remove (hne : c ≠ a) (nodup : (pre ++ post).Nodup) :
    next? c (pre ++ post) =
      if pre.getLast? = some c then post.head? else next? c (pre ++ a :: post) := by
  split
  · rename_i hlast
    obtain ⟨front, rfl⟩ := List.getLast?_eq_some_iff.1 hlast
    rw [List.append_assoc, List.singleton_append] at nodup ⊢
    exact next?_append_cons fun h => (List.nodup_append.1 nodup).2.2 c h c List.mem_cons_self rfl
  · rename_i hlast
    rw [next?_insert hne nodup, if_neg hlast]

/-- Splicing at the position of an element puts the run right before it. -/
theorem splice_position? {k : Nat} {run l : List α} (h : position? (some a) l = some k) :
    ∃ pre post, l = pre ++ a :: post ∧ splice k run l = pre ++ run ++ a :: post := by
  obtain ⟨hk, ha, -⟩ := List.findIdx?_eq_some_iff_getElem.1 h
  have ha : l[k] = a := by simpa using ha
  have hdrop : l.drop k = a :: l.drop (k + 1) := by
    rw [List.drop_eq_getElem_cons hk, ha]
  refine ⟨l.take k, l.drop (k + 1), ?_, ?_⟩
  · rw [← hdrop, List.take_append_drop]
  · rw [splice, hdrop]

end Sequence

/-- **A run was inserted** in a list: right before an element, or at the end
when none is named. -/
def Sequence.Inserted {α : Type} (before : Option α) (run old new : List α) : Prop :=
  match before with
  | none => new = old ++ run
  | some a => ∃ pre post, old = pre ++ a :: post ∧ new = pre ++ run ++ a :: post

theorem Sequence.inserted_splice {α : Type} [DecidableEq α] {before : Option α} {k : Nat}
    {run l : List α} (h : position? before l = some k) :
    Inserted before run l (splice k run l) := by
  cases before with
  | none =>
    obtain rfl : l.length = k := Option.some.inj h
    exact splice_length run l
  | some a => exact splice_position? h

/-- **A chain**: from a start, step after step, exactly the elements of a list
are visited, in its order, and then the chain ends. -/
inductive Visits {α : Type} (step : α → Option α) : Option α → List α → Prop
  | done : Visits step none []
  | visit {a : α} {l : List α} : Visits step (step a) l → Visits step (some a) (a :: l)

/-- **Links and lists agree**: a list names nothing twice, it names exactly the
elements that are at home there, and an element leads to the next one of its
list. What is at home nowhere leads nowhere. -/
structure Chained {α β : Type} [DecidableEq α] (step : α → Option α) (home : α → Option β)
    (list : β → List α) : Prop where
  nodup : ∀ b, (list b).Nodup
  mem_iff : ∀ {b a}, a ∈ list b ↔ home a = some b
  step_eq : ∀ a, step a = (home a).bind fun b => Sequence.next? a (list b)

namespace Chained

variable {α β : Type} [DecidableEq α] {step : α → Option α} {home : α → Option β}
variable {list : β → List α} {a c : α} {b : β} {pre post : List α}

/-- An element of a list is at home there and is not named before. -/
theorem once (h : Chained step home list) (hb : list b = pre ++ a :: post) :
    a ∉ pre ∧ home a = some b := by
  have hnodup := h.nodup b
  rw [hb] at hnodup
  refine ⟨fun ha => (List.nodup_append.1 hnodup).2.2 a ha a List.mem_cons_self rfl, ?_⟩
  rw [← h.mem_iff, hb]
  exact List.mem_append_right pre List.mem_cons_self

theorem step_of_eq (h : Chained step home list) (hb : list b = pre ++ a :: post) :
    step a = post.head? := by
  obtain ⟨hfront, hhome⟩ := h.once hb
  rw [h.step_eq, hhome, Option.bind_some, hb, Sequence.next?_append_cons hfront]

theorem step_of_free (h : Chained step home list) (free : home a = none) : step a = none := by
  rw [h.step_eq, free]
  rfl

/-- A link leads to an element of a list. -/
theorem mem_of_step (h : Chained step home list) (ha : step a = some c) : ∃ b, c ∈ list b := by
  rw [h.step_eq] at ha
  obtain ⟨b, -, hc⟩ := Option.bind_eq_some_iff.1 ha
  exact ⟨b, Sequence.mem_of_next? hc⟩

/-- From an element on, the links visit the rest of its list. -/
theorem visits (h : Chained step home list) :
    ∀ {pre : List α}, list b = pre ++ post → Visits step post.head? post := by
  induction post with
  | nil => intro pre _; exact .done
  | cons a post ih =>
    intro pre hb
    refine .visit ?_
    rw [h.step_of_eq hb]
    have hrest : list b = (pre ++ [a]) ++ post := by
      rw [hb, List.append_assoc]
      rfl
    exact ih hrest

/-- A change of one list shows in no link of an element of another. -/
theorem bind_update_of_ne [DecidableEq β] (hhome : home a ≠ some b) (l : List α) :
    ((home a).bind fun d => Sequence.next? a (Function.update list b l d)) =
      (home a).bind fun d => Sequence.next? a (list d) := by
  cases hd : home a with
  | none => rfl
  | some d =>
    have hdb : d ≠ b := fun hdb => hhome (hdb ▸ hd)
    rw [Option.bind_some, Option.bind_some, Function.update_of_ne hdb]

/-- **An element that is at home nowhere can be put into a list**: the one
before it leads to it, and it leads to the one after it. -/
theorem insert [DecidableEq β] (h : Chained step home list) (hb : list b = pre ++ post)
    (free : home a = none) {step' : α → Option α}
    (hstep : ∀ c, step' c =
      if pre.getLast? = some c then some a else if c = a then post.head? else step c) :
    Chained step' (Function.update home a (some b))
      (Function.update list b (pre ++ a :: post)) := by
  have hfresh : ∀ d, a ∉ list d := fun d ha => by
    rw [h.mem_iff, free] at ha
    cases ha
  have hnodup : (pre ++ post).Nodup := hb ▸ h.nodup b
  have hfront : a ∉ pre := fun ha => hfresh b (hb ▸ List.mem_append_left post ha)
  have hmem : ∀ {c}, pre.getLast? = some c → home c = some b := fun hc => by
    rw [← h.mem_iff, hb]
    exact List.mem_append_left post (List.mem_of_getLast? hc)
  refine ⟨fun d => ?_, fun {d c} => ?_, fun c => ?_⟩
  · by_cases hd : d = b
    · rw [hd, Function.update_self, List.nodup_middle, List.nodup_cons]
      exact ⟨hb ▸ hfresh b, hnodup⟩
    · rw [Function.update_of_ne hd]
      exact h.nodup d
  · by_cases hd : d = b
    · subst hd
      have hold : c ∈ pre ++ post ↔ home c = some d := by rw [← hb, h.mem_iff]
      by_cases hc : c = a
      · simp [hc]
      · rw [Function.update_self, Function.update_of_ne hc, ← hold]
        simp [hc]
    · rw [Function.update_of_ne hd]
      by_cases hc : c = a
      · simp [hc, hfresh d, Ne.symm hd]
      · rw [Function.update_of_ne hc, h.mem_iff]
  · rw [hstep]
    by_cases hc : c = a
    · subst hc
      rw [if_neg fun hlast => hfront (List.mem_of_getLast? hlast), if_pos rfl,
        Function.update_self, Option.bind_some, Function.update_self,
        Sequence.next?_append_cons hfront]
    · rw [if_neg hc, Function.update_of_ne hc, h.step_eq]
      by_cases hhome : home c = some b
      · rw [hhome, Option.bind_some, Option.bind_some, Function.update_self,
          Sequence.next?_insert hc hnodup, hb]
      · rw [if_neg fun hlast => hhome (hmem hlast), bind_update_of_ne hhome]

/-- **An element can be taken out of its list**: the one before it leads to
the one after it, and it leads nowhere. -/
theorem remove [DecidableEq β] (h : Chained step home list) (hb : list b = pre ++ a :: post)
    {step' : α → Option α}
    (hstep : ∀ c, step' c =
      if c = a then none else if pre.getLast? = some c then post.head? else step c) :
    Chained step' (Function.update home a none) (Function.update list b (pre ++ post)) := by
  obtain ⟨hfront, hhome⟩ := h.once hb
  have hall : (a :: (pre ++ post)).Nodup := List.nodup_middle.1 (hb ▸ h.nodup b)
  obtain ⟨hnot, hnodup⟩ := List.nodup_cons.1 hall
  have hold : ∀ {c}, c ≠ a → (c ∈ pre ++ post ↔ home c = some b) := fun {c} hc => by
    rw [← h.mem_iff, hb]
    simp [hc]
  refine ⟨fun d => ?_, fun {d c} => ?_, fun c => ?_⟩
  · by_cases hd : d = b
    · rw [hd, Function.update_self]
      exact hnodup
    · rw [Function.update_of_ne hd]
      exact h.nodup d
  · by_cases hc : c = a
    · subst hc
      rw [Function.update_self]
      by_cases hd : d = b
      · rw [hd, Function.update_self]
        simp [hnot]
      · rw [Function.update_of_ne hd, h.mem_iff, hhome]
        simp [Ne.symm hd]
    · rw [Function.update_of_ne hc]
      by_cases hd : d = b
      · rw [hd, Function.update_self, hold hc]
      · rw [Function.update_of_ne hd, h.mem_iff]
  · rw [hstep]
    by_cases hc : c = a
    · rw [if_pos hc, hc, Function.update_self]
      rfl
    · rw [if_neg hc, Function.update_of_ne hc, h.step_eq]
      by_cases hcb : home c = some b
      · rw [hcb, Option.bind_some, Option.bind_some, Function.update_self, hb,
          Sequence.next?_remove hc hnodup]
      · have hlast : pre.getLast? ≠ some c := fun hlast =>
          hcb ((hold hc).1 (List.mem_append_left post (List.mem_of_getLast? hlast)))
        rw [if_neg hlast, bind_update_of_ne hcb]

end Chained

end ContractIR
