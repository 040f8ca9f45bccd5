import JsonFilter.Evaluation.Basic

/-!
# Traced computations

Computations that note events, in order, and may fail.  The events before a failure are kept.
-/

namespace JsonFilter

/-- The events of a computation, and its result or failure. -/
structure Traced (α : Type) where
  events : List Event
  outcome : Except EvalError α

namespace Traced

variable {α β γ : Type}

/-- The computation that only gives a result. -/
protected def pure (a : α) : Traced α :=
  ⟨[], .ok a⟩

/-- Runs one computation after another; a failure of the first leaves the second out. -/
protected def bind (first : Traced α) (next : α → Traced β) : Traced β :=
  match first.outcome with
  | .ok a => ⟨first.events ++ (next a).events, (next a).outcome⟩
  | .error e => ⟨first.events, .error e⟩

/-- Applies a function to the result of a computation. -/
protected def map (f : α → β) (x : Traced α) : Traced β :=
  ⟨x.events, x.outcome.map f⟩

instance : Monad Traced where
  pure := Traced.pure
  bind := Traced.bind
  map := Traced.map

/-- The computation that fails. -/
def fail (e : EvalError) : Traced α :=
  ⟨[], .error e⟩

/-- The computation that notes one event. -/
def log (event : Event) : Traced Unit :=
  ⟨[event], .ok ()⟩

/-! ## Laws -/

@[ext] theorem ext {x y : Traced α} (events : x.events = y.events)
    (outcome : x.outcome = y.outcome) : x = y := by
  cases x; cases y; simp_all

@[simp] theorem pure_events (a : α) : (pure a : Traced α).events = [] := rfl

@[simp] theorem pure_outcome (a : α) : (pure a : Traced α).outcome = .ok a := rfl

@[simp] theorem fail_events (e : EvalError) : (fail e : Traced α).events = [] := rfl

@[simp] theorem fail_outcome (e : EvalError) : (fail e : Traced α).outcome = .error e := rfl

@[simp] theorem log_events (event : Event) : (log event).events = [event] := rfl

@[simp] theorem log_outcome (event : Event) : (log event).outcome = .ok () := rfl

@[simp] theorem map_events (f : α → β) (x : Traced α) : (f <$> x).events = x.events := rfl

@[simp] theorem map_outcome (f : α → β) (x : Traced α) :
    (f <$> x).outcome = x.outcome.map f := rfl

/-- The outcome of a sequence is the sequence of the outcomes. -/
@[simp] theorem bind_outcome (first : Traced α) (next : α → Traced β) :
    (first >>= next).outcome = first.outcome >>= fun a => (next a).outcome := by
  change (Traced.bind first next).outcome = _
  unfold Traced.bind
  split <;> simp_all [bind, Except.bind]

/-- After a success, the events of the second computation follow those of the first. -/
theorem bind_of_ok {first : Traced α} {a : α} (h : first.outcome = .ok a)
    (next : α → Traced β) :
    first >>= next = ⟨first.events ++ (next a).events, (next a).outcome⟩ := by
  change Traced.bind first next = _
  simp [Traced.bind, h]

/-- After a failure, nothing follows. -/
theorem bind_of_error {first : Traced α} {e : EvalError} (h : first.outcome = .error e)
    (next : α → Traced β) : first >>= next = ⟨first.events, .error e⟩ := by
  change Traced.bind first next = _
  simp [Traced.bind, h]

@[simp] theorem fail_bind (e : EvalError) (next : α → Traced β) : fail e >>= next = fail e := rfl

/-- Mapping the identity changes nothing. -/
theorem id_map (x : Traced α) : id <$> x = x := by
  change Traced.map _ _ = _
  obtain ⟨events, outcome | a⟩ := x <;> rfl

/-- Giving a function of the result is mapping the function. -/
theorem bind_pure_comp (f : α → β) (x : Traced α) : x >>= (fun a => pure (f a)) = f <$> x := by
  change Traced.bind _ _ = Traced.map _ _
  obtain ⟨events, outcome | a⟩ := x
  · rfl
  · exact congrArg (Traced.mk · (.ok (f a))) (List.append_nil events)

/-- A computation that only gives a result passes it on. -/
theorem pure_bind (a : α) (next : α → Traced β) : pure a >>= next = next a := rfl

/-- Sequences may be grouped either way. -/
theorem bind_assoc (x : Traced α) (f : α → Traced β) (g : β → Traced γ) :
    x >>= f >>= g = x >>= fun a => f a >>= g := by
  change Traced.bind (Traced.bind _ _) _ = Traced.bind _ fun a => Traced.bind (f a) g
  obtain ⟨events, outcome | a⟩ := x
  · rfl
  · rcases h : f a with ⟨events', outcome' | b⟩ <;> simp [Traced.bind, h]

instance : LawfulMonad Traced :=
  LawfulMonad.mk' Traced id_map pure_bind bind_assoc (fun _ _ => rfl) (fun _ _ => rfl)
    (fun _ _ => rfl) bind_pure_comp (fun _ _ => rfl)

end Traced

end JsonFilter
