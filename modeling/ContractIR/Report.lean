import ContractIR.Event
/-!
# Reports

A report is the outcome of something that only reads: a result or a fault,
together with the events noted on the way, which stay when it fails.

The wording of an event may need a name that the context at hand cannot
give. Such an event is put together only for a listener, so that nothing can
go wrong with it while nobody listens.
-/

namespace ContractIR

/-- An outcome and the events that led to it. -/
structure Report (α : Type) where
  /-- The result, or why there is none. -/
  outcome : Except Fault α
  /-- What was noted, in order. -/
  events : List Event

namespace Report

variable {α β : Type}

/-- A result, with nothing noted. -/
def ofExcept (x : Except Fault α) : Report α := ⟨x, []⟩

/-- Notes one event. -/
def note (e : Event) : Report Unit := ⟨.ok (), [e]⟩

/-- Goes on with the result, if there is one. -/
def bind (x : Report α) (f : α → Report β) : Report β :=
  match x.outcome with
  | .ok a => ⟨(f a).outcome, x.events ++ (f a).events⟩
  | .error e => ⟨.error e, x.events⟩

/-- Notes made for a listener: without one they are not put together. -/
def heard (listening : Bool) (notes : Report Unit) : Report Unit :=
  if listening then notes else ofExcept (.ok ())

instance : Monad Report where
  pure a := ofExcept (.ok a)
  bind := bind

instance : MonadLift (Except Fault) Report where
  monadLift := ofExcept

instance : MonadExceptOf Fault Report where
  throw e := ofExcept (.error e)
  tryCatch x handle :=
    match x.outcome with
    | .ok _ => x
    | .error e => ⟨(handle e).outcome, x.events ++ (handle e).events⟩

end Report

end ContractIR
