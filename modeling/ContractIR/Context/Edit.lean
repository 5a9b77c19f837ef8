import ContractIR.Context.Basic
import ContractIR.Report
/-!
# Edits

An edit turns a context into another one and gives a result or a fault. The
new context and the events noted on the way are there in either case: an
edit that fails half-way leaves what it did before. Edits are put together
in `do` notation, where a fault ends the whole edit.
-/

namespace ContractIR

/-- The outcome of an edit. -/
structure Step (α : Type) where
  /-- The result, or why there is none. -/
  outcome : Except Fault α
  /-- The context afterwards. -/
  context : Context
  /-- What was noted, in order. -/
  events : List Event

/-- A change to a context. -/
def Edit (α : Type) : Type := Context → Step α

namespace Edit

variable {α β : Type}

/-- Carries an edit out. -/
def run (e : Edit α) (ctx : Context) : Step α := e ctx

/-- Gives a result and changes nothing. -/
def done (a : α) : Edit α := fun ctx => ⟨.ok a, ctx, []⟩

/-- Carries out one edit and, if it has a result, the next. -/
def andThen (e : Edit α) (next : α → Edit β) : Edit β := fun ctx =>
  let first := e ctx
  match first.outcome with
  | .ok a =>
    let second := next a first.context
    ⟨second.outcome, second.context, first.events ++ second.events⟩
  | .error fault => ⟨.error fault, first.context, first.events⟩

instance : Monad Edit where
  pure := done
  bind := andThen

/-- Reads only. -/
def ofReport (r : Report α) : Edit α := fun ctx => ⟨r.outcome, ctx, r.events⟩

instance : MonadLift (Except Fault) Edit where
  monadLift x := fun ctx => ⟨x, ctx, []⟩

instance : MonadLift Report Edit where
  monadLift := ofReport

instance : MonadExceptOf Fault Edit where
  throw fault := fun ctx => ⟨.error fault, ctx, []⟩
  tryCatch e handle := fun ctx =>
    let first := e ctx
    match first.outcome with
    | .ok _ => first
    | .error fault =>
      let second := handle fault first.context
      ⟨second.outcome, second.context, first.events ++ second.events⟩

/-- The context as it is now. -/
def context : Edit Context := fun ctx => ⟨.ok ctx, ctx, []⟩

/-- Changes the context. -/
def modify (f : Context → Context) : Edit Unit := fun ctx => ⟨.ok (), f ctx, []⟩

/-- Notes an event. -/
def note (e : Event) : Edit Unit := fun ctx => ⟨.ok (), ctx, [e]⟩

/-! ## How edits run -/

variable {ctx : Context}

@[simp] theorem run_pure (a : α) : run (pure a) ctx = ⟨.ok a, ctx, []⟩ := rfl

@[simp] theorem run_context : run context ctx = ⟨.ok ctx, ctx, []⟩ := rfl

@[simp] theorem run_modify (f : Context → Context) : run (modify f) ctx = ⟨.ok (), f ctx, []⟩ :=
  rfl

@[simp] theorem run_note (e : Event) : run (note e) ctx = ⟨.ok (), ctx, [e]⟩ := rfl

@[simp] theorem run_monadLift (x : Except Fault α) :
    run (monadLift x : Edit α) ctx = ⟨x, ctx, []⟩ := rfl

@[simp] theorem run_throw (fault : Fault) :
    run (throw fault : Edit α) ctx = ⟨.error fault, ctx, []⟩ := rfl

/-- An edit that has a result goes on with it. -/
theorem run_bind_of_ok {e : Edit α} {next : α → Edit β} {a : α}
    (h : (e.run ctx).outcome = .ok a) :
    run (e >>= next) ctx =
      ⟨((next a).run (e.run ctx).context).outcome, ((next a).run (e.run ctx).context).context,
        (e.run ctx).events ++ ((next a).run (e.run ctx).context).events⟩ := by
  simp only [run] at h
  simp [run, bind, andThen, h]

/-- An edit that fails ends there. -/
theorem run_bind_of_error {e : Edit α} {next : α → Edit β} {fault : Fault}
    (h : (e.run ctx).outcome = .error fault) :
    run (e >>= next) ctx = ⟨.error fault, (e.run ctx).context, (e.run ctx).events⟩ := by
  simp only [run] at h
  simp [run, bind, andThen, h]

/-- Changing the result of an edit changes nothing else. -/
theorem run_map (f : α → β) (e : Edit α) :
    run (f <$> e) ctx =
      ⟨(e.run ctx).outcome.map f, (e.run ctx).context, (e.run ctx).events⟩ := by
  simp only [run, Functor.map, andThen, Function.comp_apply]
  split <;> rename_i h <;> simp [h, done, Except.map]

/-- Only the order of edits matters, not how they are put together. -/
instance : LawfulMonad Edit := LawfulMonad.mk' Edit
  (fun e => by
    funext ctx
    simp only [Functor.map, andThen, Function.comp_apply, done, id_eq, List.append_nil]
    split <;> rename_i h <;> simp [← h])
  (fun _ _ => by
    funext ctx
    simp [bind, pure, andThen, done])
  (fun e next last => by
    funext ctx
    simp only [bind, andThen]
    cases (e ctx).outcome with
    | error fault => rfl
    | ok a =>
      simp only
      cases (next a (e ctx).context).outcome <;> simp [List.append_assoc])

end Edit

end ContractIR
