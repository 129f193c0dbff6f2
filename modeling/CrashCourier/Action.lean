import CrashCourier.Log

/-!
# Actions

An action works on a state and a log and gives a value or fails. A failed action keeps what it has
done to the state and what it has logged.
-/

namespace CrashCourier

abbrev Action (σ ε : Type) := ExceptT ε (StateT σ (StateM Log))

namespace Action

variable {σ τ ε ε' α : Type}

/-- Carries an action out. -/
def perform (a : Action σ ε α) (s : σ) (log : Log) : (Except ε α × σ) × Log :=
  a s log

/-- Adds an entry to the log. -/
def note (level : Level) (message : String) (fields : List (String × String)) :
    Action σ ε Unit := fun s log =>
  ((.ok (), s), log ++ [⟨level, message, fields⟩])

/-- Adds entries to the log. -/
def noteAll (entries : Log) : Action σ ε Unit := fun s log =>
  ((.ok (), s), log ++ entries)

/-- Works on the first part of a state. -/
def onFirst (a : Action σ ε α) : Action (σ × τ) ε α := fun (s, t) log =>
  let ((r, s), log) := a s log
  ((r, (s, t)), log)

/-- Works on the second part of a state. -/
def onSecond (a : Action τ ε α) : Action (σ × τ) ε α := fun (s, t) log =>
  let ((r, t), log) := a t log
  ((r, (s, t)), log)

/-- Gives the failure of an action another form. -/
def mapFault (f : ε → ε') (a : Action σ ε α) : Action σ ε' α := fun s log =>
  let ((r, s), log) := a s log
  ((r.mapError f, s), log)

end Action

end CrashCourier
