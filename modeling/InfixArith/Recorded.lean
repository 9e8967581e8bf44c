/-!
# Recorded computations

A recorded computation writes a log while it runs, and ends with a result or
with a fault.  The log that it has written by then is kept in both cases.

`Recorded` is the monad of these computations.  `log_bind` and
`outcome_bind` are the two facts that a proof about a sequence of steps
uses: the logs are appended up to the first fault, and the first fault is
the outcome.
-/

namespace InfixArith

/-- A log, and how the computation that wrote it ended. -/
@[ext]
structure Recorded (ω ε α : Type) where
  log : List ω
  outcome : Except ε α

namespace Recorded

variable {ω ε α β γ : Type}

/-- Writes one entry. -/
def record (entry : ω) : Recorded ω ε Unit :=
  ⟨[entry], .ok ()⟩

/-- Ends with a fault. -/
def fail (fault : ε) : Recorded ω ε α :=
  ⟨[], .error fault⟩

/-- Runs `f` on the result of `x`, if there is one. -/
def andThen (x : Recorded ω ε α) (f : α → Recorded ω ε β) : Recorded ω ε β :=
  match x.outcome with
  | .error fault => ⟨x.log, .error fault⟩
  | .ok a =>
    let y := f a
    ⟨x.log ++ y.log, y.outcome⟩

instance : Monad (Recorded ω ε) where
  pure a := ⟨[], .ok a⟩
  bind := andThen

@[simp]
theorem log_pure (a : α) : (pure a : Recorded ω ε α).log = [] :=
  rfl

@[simp]
theorem outcome_pure (a : α) : (pure a : Recorded ω ε α).outcome = .ok a :=
  rfl

@[simp]
theorem log_fail (fault : ε) : (fail fault : Recorded ω ε α).log = [] :=
  rfl

@[simp]
theorem outcome_fail (fault : ε) : (fail fault : Recorded ω ε α).outcome = .error fault :=
  rfl

@[simp]
theorem log_record (entry : ω) : (record entry : Recorded ω ε Unit).log = [entry] :=
  rfl

@[simp]
theorem outcome_record (entry : ω) :
    (record entry : Recorded ω ε Unit).outcome = .ok () :=
  rfl

/-- The second step writes after the first one, unless the first one ends
with a fault. -/
theorem log_bind (x : Recorded ω ε α) (f : α → Recorded ω ε β) :
    (x >>= f).log =
      match x.outcome with
      | .error _ => x.log
      | .ok a => x.log ++ (f a).log := by
  show (andThen x f).log = _
  unfold andThen
  split <;> rfl

/-- The outcome of two steps is the bind of their outcomes. -/
theorem outcome_bind (x : Recorded ω ε α) (f : α → Recorded ω ε β) :
    (x >>= f).outcome = x.outcome.bind fun a => (f a).outcome := by
  show (andThen x f).outcome = _
  unfold andThen
  split
  · rename_i h
    rw [h]
    rfl
  · rename_i h
    rw [h]
    rfl

/-- Two steps have a result exactly when the first one has, and the second
one has from there. -/
theorem outcome_bind_eq_ok_iff {x : Recorded ω ε α} {f : α → Recorded ω ε β} {b : β} :
    (x >>= f).outcome = .ok b ↔ ∃ a, x.outcome = .ok a ∧ (f a).outcome = .ok b := by
  rw [outcome_bind]
  cases x.outcome with
  | error fault => simp [Except.bind]
  | ok a => simp [Except.bind]

@[simp]
theorem fail_bind (fault : ε) (f : α → Recorded ω ε β) : fail fault >>= f = fail fault :=
  rfl

instance : LawfulMonad (Recorded ω ε) :=
  LawfulMonad.mk' (Recorded ω ε)
    (fun ⟨log, outcome⟩ => by
      cases outcome with
      | error fault => rfl
      | ok a =>
        show (⟨log ++ [], .ok a⟩ : Recorded ω ε _) = ⟨log, .ok a⟩
        rw [List.append_nil])
    (fun _ _ => rfl)
    (fun ⟨log, outcome⟩ f g => by
      cases outcome with
      | error fault => rfl
      | ok a =>
        show andThen ⟨log ++ (f a).log, (f a).outcome⟩ g =
          ⟨log ++ (andThen (f a) g).log, (andThen (f a) g).outcome⟩
        rcases f a with ⟨log', outcome'⟩
        cases outcome' with
        | error fault => rfl
        | ok b =>
          show (⟨(log ++ log') ++ (g b).log, (g b).outcome⟩ : Recorded ω ε _) =
            ⟨log ++ (log' ++ (g b).log), (g b).outcome⟩
          rw [List.append_assoc])

end Recorded

end InfixArith
