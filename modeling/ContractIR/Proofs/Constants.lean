import Mathlib.Data.List.Dedup
import Mathlib.Data.List.Perm.Basic
import ContractIR.Proofs.Attributes
import ContractIR.Proofs.Membership
/-!
# Constants

A context has one constant for each integer that was asked for. The table of
constants leads from integers to values, and the values know their integers:
`Interned` says that the two are inverse to each other. Only a request adds to
either, and only if the integer is new (`Operation.request_or_same`), so over a
whole run the table has the integers of the requests, each with the spelling
that was asked for first, and a handle that a request gave is good for ever.
-/

namespace ContractIR

/-- The integer of a constant, and whether it is written in hexadecimal. -/
def Value.integer? (x : Value) : Option (Int × Bool) :=
  match x.payload with
  | .constant n hex => some (n, hex)
  | _ => none

namespace Value

variable {x : Value}

theorem integer?_eq_none (h : x.kind ≠ .constant) : x.integer? = none := by
  obtain ⟨payload, name, parent⟩ := x
  cases payload <;> first | rfl | exact absurd rfl h

theorem attribute_integer? : Value.Attribute Value.integer? := by
  refine ⟨fun _ _ => rfl, fun _ _ => rfl, ?_, ?_, ?_⟩
  · rintro ⟨payload, name, parent⟩ f
    cases payload <;> rfl
  · rintro ⟨payload, name, parent⟩ list vs
    cases payload <;> cases list <;> rfl
  · rintro ⟨payload, name, parent⟩ is
    cases payload <;> rfl

/-- Setting other attributes does not change an integer. -/
theorem AttributeChange.integer? {f : Value → Value} (h : AttributeChange f) (x : Value) :
    (f x).integer? = x.integer? := by
  by_cases hx : x.kind = .constant
  · rw [h.constant x hx]
  · have hkind : (f x).kind = x.kind := congrArg Skeleton.kind (h.skeleton x)
    rw [integer?_eq_none hx, integer?_eq_none (hkind ▸ hx)]

end Value

namespace Context

/-- The integer of a constant of the context, and its spelling. -/
def integer? (ctx : Context) (v : ValueId) : Option (Int × Bool) :=
  (ctx.attribute? Value.integer? v).join

/-- The spelling of the constant that an integer leads to. -/
def spelling? (ctx : Context) (n : Int) : Option Bool :=
  ctx.constants[n]?.bind fun v => (ctx.integer? v).map Prod.snd

variable {ctx : Context} {v w : ValueId} {n m : Int} {hex : Bool}

theorem integer?_congr {ctx' : Context}
    (h : ctx'.attribute? Value.integer? = ctx.attribute? Value.integer?) :
    ctx'.integer? = ctx.integer? := by
  funext v
  rw [integer?, integer?, h]

theorem integer?_nextValue : ctx.integer? ctx.nextValue = none := by
  rw [integer?, attribute?_nextValue]
  rfl

theorem ne_nextValue_of_integer? {constant : Int × Bool} (h : ctx.integer? v = some constant) :
    v ≠ ctx.nextValue := by
  rintro rfl
  rw [integer?_nextValue] at h
  cases h

/-! ## Requests -/

theorem intern_of_some (h : ctx.constants[n]? = some v) (hex : Bool) :
    ctx.intern n hex = (v, ctx) := by
  rw [intern, h]

theorem intern_of_none (h : ctx.constants[n]? = none) (hex : Bool) :
    ctx.intern n hex = (ctx.nextValue,
      { ctx.push (.constant n hex) with constants := ctx.constants.insert n ctx.nextValue }) := by
  rw [intern, h]

/-- A request enters its integer under the handle it gives, unless it is there,
and no other. -/
theorem constants_intern :
    (ctx.intern n hex).2.constants[m]? =
      if m = n then some (ctx.intern n hex).1 else ctx.constants[m]? := by
  cases h : ctx.constants[n]? with
  | some v =>
    rw [intern_of_some h]
    split
    · rename_i hm
      rw [hm, h]
    · rfl
  | none =>
    rw [intern_of_none h]
    simp only [Std.ExtTreeMap.getElem?_insert, Std.LawfulEqOrd.compare_eq_iff_eq,
      eq_comm (a := m)]

/-- It makes a constant of it, unless there is one. -/
theorem integer?_intern :
    (ctx.intern n hex).2.integer? w =
      if ctx.constants[n]? = none ∧ w = ctx.nextValue then some (n, hex) else ctx.integer? w := by
  cases h : ctx.constants[n]? with
  | some v => rw [intern_of_some h, if_neg fun hboth => nomatch hboth.1]
  | none =>
    have hpush : (ctx.intern n hex).2.integer? w = (ctx.push (.constant n hex)).integer? w := by
      rw [intern_of_none h]
      rfl
    rw [hpush, integer?, attribute?_push]
    by_cases hw : w = ctx.nextValue
    · rw [if_pos hw, if_pos ⟨rfl, hw⟩]
      rfl
    · rw [if_neg hw, if_neg fun hboth => hw hboth.2]
      rfl

end Context

open Context

/-! ## Other operations -/

/-- A change that leaves the table leaves the integers. -/
theorem Change.integer?_eq {ctx ctx' : Context} {taken : List ValueId} (hc : Change ctx taken ctx')
    (hsame : ctx'.constants = ctx.constants) : ctx'.integer? = ctx.integer? := by
  cases hc.attribute_cases Value.attribute_integer? with
  | same h => exact integer?_congr h
  | push fresh heq =>
    funext w
    rw [heq, integer?, attribute?_push]
    split
    · rename_i hw
      rw [hw, integer?_nextValue, Value.integer?_eq_none]
      · rfl
      · cases fresh <;> nofun
    · rfl
  | intern n hex heq =>
    -- Had the integer been new, it would be in the table now.
    obtain ⟨v, hv⟩ : ∃ v, ctx.constants[n]? = some v := by
      refine ⟨(ctx.intern n hex).1, ?_⟩
      rw [← hsame, heq, constants_intern, if_pos rfl]
    rw [heq, intern_of_some hv]
  | annotate only _ heq =>
    rw [heq]
    exact integer?_congr (attribute?_update only.integer?)

theorem Evolves.integer?_eq {ctx ctx' : Context} (h : Evolves ctx ctx') :
    ctx'.integer? = ctx.integer? := by
  induction h with
  | refl => rfl
  | tail _ hc ih => rw [hc.1.integer?_eq hc.2, ih]

namespace Operation

variable {ctx : Context} {operation : Operation} {n : Int} {hex : Bool}

theorem typed_constant (ctx : Context) (n : Int) (hex : Bool) : (constant n hex).typed ctx := rfl

theorem run_constant : ((constant n hex).perform.run ctx).context = (ctx.intern n hex).2 ∧
    ((constant n hex).perform.run ctx).outcome = .ok (.value (ctx.intern n hex).1) :=
  ⟨rfl, rfl⟩

/-- **An operation is a request or leaves all constants as they are.** -/
theorem request_or_same (h : Membered ctx) (fit : operation.typed ctx) :
    (∃ n hex, operation = constant n hex) ∨
      ((operation.perform.run ctx).context.constants = ctx.constants ∧
        (operation.perform.run ctx).context.integer? = ctx.integer? ∧
        operation.request? = none) := by
  have howned : ∀ p l, ∀ v ∈ ctx.members p l, ctx.ownsValue v := fun _ _ _ hv => h.owned hv
  cases hrequest : operation.request? with
  | some request =>
    refine .inl ?_
    cases operation with
    | constant n hex => exact ⟨n, hex, rfl⟩
    | _ => cases hrequest
  | none =>
    refine .inr ⟨constants_perform howned fit hrequest, ?_, rfl⟩
    cases effect_perform howned fit with
    | evolves hevolves => exact hevolves.integer?_eq
    | changes hchange hsame => exact hchange.integer?_eq (hsame hrequest)

end Operation

/-! ## The invariant -/

/-- **The table and the constants agree**: an integer leads to a value exactly
if it is the value's. -/
structure Interned (ctx : Context) : Prop where
  table : ∀ {n v}, ctx.constants[n]? = some v ↔ ∃ hex, ctx.integer? v = some (n, hex)

namespace Interned

variable {ctx : Context} {n m : Int} {hex : Bool} {v : ValueId}

theorem intern (h : Interned ctx) (n : Int) (hex : Bool) : Interned (ctx.intern n hex).2 := by
  cases hn : ctx.constants[n]? with
  | some w =>
    rw [intern_of_some hn]
    exact h
  | none =>
    have hnew : (ctx.intern n hex).1 = ctx.nextValue := by rw [intern_of_none hn]
    refine ⟨fun {m v} => ?_⟩
    by_cases hv : v = ctx.nextValue
    · have hinteger : (ctx.intern n hex).2.integer? v = some (n, hex) := by
        rw [integer?_intern, if_pos ⟨hn, hv⟩]
      -- The new value was no constant before, so no other integer leads to it.
      have hother : ctx.constants[m]? ≠ some v := by
        rw [Ne, h.table, hv, integer?_nextValue]
        nofun
      rw [constants_intern, hnew, hinteger]
      by_cases hm : m = n
      · simp [hm, hv]
      · simp [hm, hother, Ne.symm hm]
    · have hinteger : (ctx.intern n hex).2.integer? v = ctx.integer? v := by
        rw [integer?_intern, if_neg fun hboth => hv hboth.2]
      rw [constants_intern, hnew, hinteger, ← h.table]
      by_cases hm : m = n
      · simp [hm, hn, Ne.symm hv]
      · rw [if_neg hm]

theorem empty (id : ContextId) : Interned { id } := by
  refine ⟨fun {n v} => ?_⟩
  simp [integer?, attribute?, value?]

/-- A constant is what its integer leads to, with the spelling found there. -/
theorem integer?_eq_some (h : Interned ctx) :
    ctx.integer? v = some (n, hex) ↔ ctx.constants[n]? = some v ∧ ctx.spelling? n = some hex := by
  constructor
  · intro hv
    have hn : ctx.constants[n]? = some v := h.table.2 ⟨hex, hv⟩
    exact ⟨hn, by rw [spelling?, hn, Option.bind_some, hv]; rfl⟩
  · rintro ⟨hn, hs⟩
    obtain ⟨hex', hv⟩ := h.table.1 hn
    rw [spelling?, hn, Option.bind_some, hv] at hs
    obtain rfl : hex' = hex := Option.some.inj hs
    exact hv

theorem isSome_spelling? (h : Interned ctx) : (ctx.spelling? n).isSome ↔ n ∈ ctx.constants := by
  rw [← Std.ExtTreeMap.isSome_getElem?_iff_mem]
  cases hn : ctx.constants[n]? with
  | none => simp [spelling?, hn]
  | some v =>
    obtain ⟨hex, hv⟩ := h.table.1 hn
    simp [spelling?, hn, hv]

/-- **The first request decides the spelling.** -/
theorem spelling?_intern (h : Interned ctx) :
    (ctx.intern n hex).2.spelling? m = (ctx.spelling? m).or (if m = n then some hex else none) := by
  cases hn : ctx.constants[n]? with
  | some v =>
    rw [intern_of_some hn]
    by_cases hm : m = n
    · obtain ⟨hex', hv⟩ := h.table.1 hn
      rw [hm, (h.integer?_eq_some.1 hv).2]
      rfl
    · rw [if_neg hm, Option.or_none]
  | none =>
    by_cases hm : m = n
    · have hinteger : (ctx.intern n hex).2.integer? ctx.nextValue = some (n, hex) := by
        rw [integer?_intern, if_pos ⟨hn, rfl⟩]
      rw [hm, ((h.intern n hex).integer?_eq_some.1 hinteger).2, spelling?, hn, if_pos rfl]
      rfl
    · cases hw : ctx.constants[m]? with
      | none => simp [spelling?, constants_intern, hm, hw]
      | some w =>
        obtain ⟨hex', hinteger⟩ := h.table.1 hw
        have hold : w ≠ ctx.nextValue := ne_nextValue_of_integer? hinteger
        simp [spelling?, constants_intern, integer?_intern, hm, hw, hold]

/-- A request is answered with the constant of its integer. -/
theorem integer?_answer (h : Interned ctx) : (ctx.intern n hex).2.integer? (ctx.intern n hex).1 =
    some (n, (ctx.spelling? n).getD hex) := by
  refine (h.intern n hex).integer?_eq_some.2 ⟨?_, ?_⟩
  · rw [constants_intern, if_pos rfl]
  · rw [h.spelling?_intern, if_pos rfl]
    cases ctx.spelling? n <;> rfl

/-- Two constants are the same exactly if their integers are. -/
theorem eq_iff (h : Interned ctx) {w : ValueId} {hex' : Bool}
    (hv : ctx.integer? v = some (n, hex)) (hw : ctx.integer? w = some (m, hex')) :
    v = w ↔ n = m := by
  constructor
  · rintro rfl
    exact congrArg Prod.fst (Option.some.inj (hv.symm.trans hw))
  · rintro rfl
    exact Option.some.inj ((h.table.2 ⟨hex, hv⟩).symm.trans (h.table.2 ⟨hex', hw⟩))

end Interned

theorem Reachable.interned {ctx : Context} (h : Reachable ctx) : Interned ctx := by
  induction h with
  | empty id => exact .empty id
  | step operation fit hreachable ih =>
    rcases operation.request_or_same hreachable.membered fit with
      ⟨n, hex, rfl⟩ | ⟨hconstants, hinteger, -⟩
    · exact ih.intern n hex
    · refine ⟨fun {n v} => ?_⟩
      rw [hconstants, hinteger]
      exact ih.table

/-! ## Runs -/

namespace Operation

variable {ctx : Context} {operation : Operation} {operations : List Operation} {n : Int}
  {v : ValueId} {constant : Int × Bool} {id : ContextId}

/-- The integers that a sequence of operations asks for, in order, each with
the spelling asked for. -/
def requests (operations : List Operation) : List (Int × Bool) :=
  operations.filterMap request?

theorem requests_cons :
    requests (operation :: operations) = operation.request?.toList ++ requests operations := by
  rw [requests, List.filterMap_cons]
  cases operation.request? <;> rfl

theorem spelling?_perform (h : Reachable ctx) (fit : operation.typed ctx) :
    (operation.perform.run ctx).context.spelling? n =
      (ctx.spelling? n).or (operation.request?.toList.lookup n) := by
  rcases operation.request_or_same h.membered fit with
    ⟨m, hex, rfl⟩ | ⟨hconstants, hinteger, hnone⟩
  · have hlookup : (Option.toList (request? (.constant m hex))).lookup n =
        if n = m then some hex else none := by
      by_cases hm : n = m
      · simp [request?, hm]
      · simp [request?, List.lookup_cons, hm, beq_false_of_ne hm]
    rw [run_constant.1, h.interned.spelling?_intern, hlookup]
  · rw [spelling?, hconstants, hinteger, hnone]
    exact (Option.or_none).symm

/-- **A run spells each new integer as its first request does**, and keeps the
spelling of the others. -/
theorem spelling?_runAll (h : Reachable ctx) (fit : allTyped operations ctx) :
    (runAll operations ctx).spelling? n =
      (ctx.spelling? n).or ((requests operations).lookup n) := by
  induction operations generalizing ctx with
  | nil => exact Option.or_none.symm
  | cons operation operations ih =>
    obtain ⟨hfit, hrest⟩ := Bool.and_eq_true_iff.1 fit
    rw [runAll, ih (.step operation hfit h) hrest, spelling?_perform h hfit, requests_cons,
      List.lookup_append, Option.or_assoc]

/-- A constant keeps its integer and its spelling. -/
theorem integer?_perform (h : Reachable ctx) (fit : operation.typed ctx)
    (hv : ctx.integer? v = some constant) :
    (operation.perform.run ctx).context.integer? v = some constant := by
  rcases operation.request_or_same h.membered fit with ⟨m, hex, rfl⟩ | ⟨-, hinteger, -⟩
  · have hold : v ≠ ctx.nextValue := ne_nextValue_of_integer? hv
    rw [run_constant.1, integer?_intern, if_neg fun hboth => hold hboth.2, hv]
  · rw [hinteger, hv]

/-- **It keeps them for ever.** -/
theorem integer?_runAll (h : Reachable ctx) (fit : allTyped operations ctx)
    (hv : ctx.integer? v = some constant) :
    (runAll operations ctx).integer? v = some constant := by
  induction operations generalizing ctx with
  | nil => exact hv
  | cons operation operations ih =>
    obtain ⟨hfit, hrest⟩ := Bool.and_eq_true_iff.1 fit
    exact ih (.step operation hfit h) hrest (integer?_perform h hfit hv)

/-- A run from the start has the spellings of the first requests. -/
theorem spelling?_runAll_empty (fit : allTyped operations { id }) :
    (runAll operations { id }).spelling? n = (requests operations).lookup n := by
  have hnone : ({ id } : Context).spelling? n = none := by simp [spelling?]
  rw [spelling?_runAll (.empty id) fit, hnone, Option.none_or]

theorem mem_constants_runAll (fit : allTyped operations { id }) :
    n ∈ (runAll operations { id }).constants ↔ n ∈ (requests operations).map Prod.fst := by
  have hinterned := ((Reachable.empty id).runAll fit).interned
  rw [← hinterned.isSome_spelling?, spelling?_runAll_empty fit, List.lookup_isSome_iff,
    List.mem_map]
  simp only [beq_iff_eq, eq_comm (a := n)]

/-- **There are as many constants as integers were asked for.** -/
theorem constantCount_runAll (fit : allTyped operations { id }) :
    (runAll operations { id }).constantCount =
      ((requests operations).map Prod.fst).dedup.length := by
  rw [constantCount, ← Std.ExtTreeMap.length_keys]
  refine List.Perm.length_eq ?_
  rw [List.perm_ext_iff_of_nodup Std.ExtTreeMap.nodup_keys (List.nodup_dedup _)]
  intro n
  rw [Std.ExtTreeMap.mem_keys, List.mem_dedup, mem_constants_runAll fit]

/-- **Two requests get one handle exactly if they ask for one integer**,
whatever is done between them. -/
theorem answer_eq_iff {between : List Operation} {m : Int} {hex hex' : Bool} (h : Reachable ctx)
    (fit : allTyped between (ctx.intern n hex).2) :
    (ctx.intern n hex).1 = ((runAll between (ctx.intern n hex).2).intern m hex').1 ↔ n = m := by
  have hafter : Reachable (ctx.intern n hex).2 := .step _ (typed_constant ctx n hex) h
  have hlater := hafter.runAll fit
  generalize hctx : runAll between (ctx.intern n hex).2 = later at hlater
  -- The first handle still stands for its integer when the second is given.
  have hkept : later.integer? (ctx.intern n hex).1 = some (n, (ctx.spelling? n).getD hex) :=
    hctx ▸ integer?_runAll hafter fit h.interned.integer?_answer
  have hfirst : (later.intern m hex').2.integer? (ctx.intern n hex).1 =
      some (n, (ctx.spelling? n).getD hex) :=
    integer?_perform hlater (typed_constant later m hex') hkept
  exact (hlater.interned.intern m hex').eq_iff hfirst hlater.interned.integer?_answer

end Operation

/-- **Constants are interned once.** After every sequence of operations the
table matches the integers that were asked for with the constants there are,
one to one, and there are as many of them. A constant has the spelling of the
first request for its integer, and no later operations change the integer or
the spelling. A further request is always answered, with the constant of its
integer; the next one after it, whatever is done before that, gets the same
handle exactly if it asks for the same integer. -/
theorem constants_interned_once (id : ContextId) (operations : List Operation) (ctx : Context)
    (fit : Operation.allTyped operations { id }) (run : Operation.runAll operations { id } = ctx) :
    (∀ n v, ctx.constants[n]? = some v ↔ ∃ hex, ctx.integer? v = some (n, hex)) ∧
    (∀ (n m : Int) v, ctx.constants[n]? = some v → ctx.constants[m]? = some v → n = m) ∧
    (∀ n, n ∈ ctx.constants ↔ n ∈ (Operation.requests operations).map Prod.fst) ∧
    ctx.constantCount = ((Operation.requests operations).map Prod.fst).dedup.length ∧
    (∀ v n hex, ctx.integer? v = some (n, hex) →
      (Operation.requests operations).lookup n = some hex ∧
      ∀ later, Operation.allTyped later ctx →
        (Operation.runAll later ctx).integer? v = some (n, hex)) ∧
    (∀ n hex, ∃ v after, ((Operation.constant n hex).perform.run ctx).outcome = .ok (.value v) ∧
      ((Operation.constant n hex).perform.run ctx).context = after ∧
      after.integer? v = some (n, ((Operation.requests operations).lookup n).getD hex) ∧
      ∀ later, Operation.allTyped later after → ∀ m hex', ∃ w,
        ((Operation.constant m hex').perform.run (Operation.runAll later after)).outcome =
          .ok (.value w) ∧ (v = w ↔ n = m)) := by
  have hspelling : ∀ n, ctx.spelling? n = (Operation.requests operations).lookup n := by
    intro n
    rw [← run, Operation.spelling?_runAll_empty fit]
  have hreachable : Reachable ctx := run ▸ (Reachable.empty id).runAll fit
  have hinterned := hreachable.interned
  refine ⟨fun n v => hinterned.table, fun n m v hn hm => ?_,
    fun n => run ▸ Operation.mem_constants_runAll fit, run ▸ Operation.constantCount_runAll fit,
    fun v n hex hv => ⟨?_, fun later hlater => Operation.integer?_runAll hreachable hlater hv⟩,
    fun n hex => ⟨_, _, Operation.run_constant.2, Operation.run_constant.1, ?_,
      fun later hlater m hex' => ⟨_, Operation.run_constant.2, ?_⟩⟩⟩
  · obtain ⟨hex, hv⟩ := hinterned.table.1 hn
    obtain ⟨hex', hv'⟩ := hinterned.table.1 hm
    exact (hinterned.eq_iff hv hv').1 rfl
  · rw [← hspelling]
    exact (hinterned.integer?_eq_some.1 hv).2
  · rw [← hspelling]
    exact hinterned.integer?_answer
  · exact Operation.answer_eq_iff hreachable hlater

/-- Requests for two integers, one of them asked for in both spellings, among
other operations; the last, to name a constant, fails. -/
def mixedRequests : List Operation :=
  [.constant 255 true, .createContract "bank", .constant (-1) false, .constant 255 false,
    .setName ⟨0, 0⟩ "mask"]

/-- There are two constants. The one asked for in both spellings has the first,
and keeps it when it is asked for again. -/
theorem constants_interned_once_mixedRequests :
    Operation.allTyped mixedRequests { id := 0 } ∧
    (Operation.runAll mixedRequests { id := 0 }).constantCount = 2 ∧
    (Operation.runAll mixedRequests { id := 0 }).integer? ⟨0, 0⟩ = some (255, true) ∧
    (Operation.runAll [.constant 255 false] (Operation.runAll mixedRequests { id := 0 })).integer?
      ⟨0, 0⟩ = some (255, true) ∧
    ∃ v after, ((Operation.constant 255 false).perform.run
        (Operation.runAll mixedRequests { id := 0 })).outcome = .ok (.value v) ∧
      after.integer? v = some (255, true) ∧
      ∃ w, ((Operation.constant (-1) true).perform.run after).outcome = .ok (.value w) ∧
        v ≠ w := by
  have hfit : Operation.allTyped mixedRequests { id := 0 } := by decide
  obtain ⟨-, -, -, hcount, hkept, hrequest⟩ := constants_interned_once 0 mixedRequests _ hfit rfl
  have hmask : (Operation.runAll mixedRequests { id := 0 }).integer? ⟨0, 0⟩ = some (255, true) := by
    decide
  obtain ⟨v, after, hanswer, -, hv, hnext⟩ := hrequest 255 false
  obtain ⟨w, hw, hsame⟩ := hnext [] rfl (-1) true
  exact ⟨hfit, hcount, hmask, (hkept _ _ _ hmask).2 _ rfl, v, after, hanswer, hv, w, hw,
    fun heq => absurd (hsame.1 heq) (by decide)⟩

end ContractIR
