import CrashCourier.Action

/-!
# Carrying actions out

What `perform` gives for the ways of building an action. Everything said about a pass, a store or a
handler goes through these equations, so that no proof looks into the monad.

`perform_bind_cases` is the one used most: an action made of two parts either carried out both, or
stopped in the first.
-/

namespace CrashCourier.Action

variable {σ τ ε ε' α β : Type}

@[simp] theorem perform_pure (x : α) (s : σ) (log : Log) :
    (pure x : Action σ ε α).perform s log = ((.ok x, s), log) := rfl

@[simp] theorem perform_get (s : σ) (log : Log) :
    (get : Action σ ε σ).perform s log = ((.ok s, s), log) := rfl

@[simp] theorem perform_set (s s' : σ) (log : Log) :
    (set s' : Action σ ε PUnit).perform s log = ((.ok (), s'), log) := rfl

@[simp] theorem perform_note (level : Level) (message : String)
    (fields : List (String × String)) (s : σ) (log : Log) :
    (note level message fields : Action σ ε Unit).perform s log =
      ((.ok (), s), log ++ [⟨level, message, fields⟩]) := rfl

@[simp] theorem perform_noteAll (entries : Log) (s : σ) (log : Log) :
    (noteAll entries : Action σ ε Unit).perform s log = ((.ok (), s), log ++ entries) := rfl

@[simp] theorem perform_onFirst (a : Action σ ε α) (s : σ) (t : τ) (log : Log) :
    (a.onFirst : Action (σ × τ) ε α).perform (s, t) log =
      (((a.perform s log).1.1, ((a.perform s log).1.2, t)), (a.perform s log).2) := rfl

@[simp] theorem perform_mapFault (f : ε → ε') (a : Action σ ε α) (s : σ) (log : Log) :
    (a.mapFault f).perform s log =
      (((a.perform s log).1.1.mapError f, (a.perform s log).1.2), (a.perform s log).2) := rfl

/-! ## One action after another -/

theorem perform_bind (a : Action σ ε α) (f : α → Action σ ε β) (s : σ) (log : Log) :
    (a >>= f).perform s log = match a.perform s log with
      | ((.ok x, s'), log') => (f x).perform s' log'
      | ((.error e, s'), log') => ((.error e, s'), log') := by
  rcases h : a.perform s log with ⟨⟨r, s'⟩, log'⟩
  have hb : (a >>= f).perform s log = ExceptT.bindCont f r s' log' := by
    change a s log = _ at h
    show (do let r ← (a s : StateM Log _); ExceptT.bindCont f r.1 r.2 : StateM Log _) log = _
    simp only [bind, StateT.bind, h]
  rw [hb]
  cases r with
  | ok x => rfl
  | error e => rfl

@[simp] theorem perform_bind_ok {a : Action σ ε α} {f : α → Action σ ε β} {s s' : σ}
    {log log' : Log} {x : α} (h : a.perform s log = ((.ok x, s'), log')) :
    (a >>= f).perform s log = (f x).perform s' log' := by
  rw [perform_bind, h]

@[simp] theorem perform_bind_error {a : Action σ ε α} {f : α → Action σ ε β} {s s' : σ}
    {log log' : Log} {e : ε} (h : a.perform s log = ((.error e, s'), log')) :
    (a >>= f).perform s log = ((.error e, s'), log') := by
  rw [perform_bind, h]

/-- Two parts were carried out, or the first one stopped. -/
theorem perform_bind_cases {a : Action σ ε α} {f : α → Action σ ε β} {s s' : σ} {log log' : Log}
    {r : Except ε β} (h : (a >>= f).perform s log = ((r, s'), log')) :
    (∃ x s₁ log₁, a.perform s log = ((.ok x, s₁), log₁) ∧
      (f x).perform s₁ log₁ = ((r, s'), log')) ∨
    ∃ e, a.perform s log = ((.error e, s'), log') ∧ r = .error e := by
  rw [perform_bind] at h
  rcases ha : a.perform s log with ⟨⟨_ | x, s₁⟩, log₁⟩
  · rw [ha] at h
    injection h with h hlog
    injection h with hr hs
    subst hr; subst hs; subst hlog
    exact .inr ⟨_, rfl, rfl⟩
  · rw [ha] at h
    exact .inl ⟨x, s₁, log₁, rfl, h⟩

/-- An action whose value is only given another form does what it does. -/
theorem exists_perform_of_bind_pure {a : Action σ ε α} {f : α → β} {s s' : σ} {log log' : Log}
    {r : Except ε β} (h : (a >>= fun x => pure (f x)).perform s log = ((r, s'), log')) :
    ∃ r', a.perform s log = ((r', s'), log') := by
  rcases perform_bind_cases h with ⟨x, s₁, log₁, ha, hpure⟩ | ⟨e, ha, _⟩
  · rw [perform_pure] at hpure
    obtain ⟨hpair, rfl⟩ := Prod.mk.inj hpure
    obtain ⟨_, rfl⟩ := Prod.mk.inj hpair
    exact ⟨_, ha⟩
  · exact ⟨_, ha⟩

end CrashCourier.Action
