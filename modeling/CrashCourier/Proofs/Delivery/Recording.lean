import CrashCourier.Proofs.Delivery.Retention

/-!
# Writing down what happens in a pass

Which calls a handler gets and which calls of a store fail is known from couriers that write it down.
Such a courier works on larger states and otherwise does what the plain one does: it `Follows` it. That
is shown once for all of them. A courier mirrors another if its store and its handler do
(`Courier.Mirrors`), and then so does a whole pass (`Courier.Mirrors.sendAll`).
-/

namespace CrashCourier

variable {σ σ' τ τ' : Type}

namespace Action

variable {ρ ρ' ε ε' α β : Type} {π : ρ' → ρ}

/-- The second action does what the first one does, on states of which the first one sees a part. -/
def Follows (π : ρ' → ρ) (a : Action ρ ε α) (b : Action ρ' ε α) : Prop :=
  ∀ x log r x' log', b.perform x log = ((r, x'), log') →
    a.perform (π x) log = ((r, π x'), log')

/-- Whatever the first action comes to, the second one comes to it as well. -/
theorem Follows.exists_perform {a : Action ρ ε α} {b : Action ρ' ε α} (h : Follows π a b) {x : ρ'}
    {y : ρ} {log log' : Log} {r : Except ε α} (ha : a.perform (π x) log = ((r, y), log')) :
    ∃ x', b.perform x log = ((r, x'), log') ∧ π x' = y := by
  rcases hb : b.perform x log with ⟨⟨r', x'⟩, log''⟩
  rw [h _ _ _ _ _ hb] at ha
  obtain ⟨hpair, rfl⟩ := Prod.mk.inj ha
  obtain ⟨rfl, rfl⟩ := Prod.mk.inj hpair
  exact ⟨x', rfl, rfl⟩

theorem follows_pure (x : α) : Follows π (pure x : Action ρ ε α) (pure x) := by
  intro y log r y' log' h
  cases h
  rfl

theorem follows_note (level : Level) (message : String) (fields : List (String × String)) :
    Follows π (note level message fields : Action ρ ε Unit) (note level message fields) := by
  intro y log r y' log' h
  cases h
  rfl

theorem Follows.bind {a : Action ρ ε α} {b : Action ρ' ε α} {f : α → Action ρ ε β}
    {g : α → Action ρ' ε β} (h : Follows π a b) (hrest : ∀ x, Follows π (f x) (g x)) :
    Follows π (a >>= f) (b >>= g) := by
  intro y log r y' log' hperform
  rcases perform_bind_cases hperform with ⟨x, y₁, log₁, hfirst, hsecond⟩ | ⟨e, hfirst, rfl⟩
  · exact (perform_bind_ok (h _ _ _ _ _ hfirst)).trans (hrest x _ _ _ _ _ hsecond)
  · exact perform_bind_error (h _ _ _ _ _ hfirst)

end Action

namespace Courier

open CrashCourier.Action

/-- The second courier has the doctor of the first, and its store and its handler do what those of the
first do. -/
structure Mirrors (π : σ' → σ) (ϖ : τ' → τ) (c : Courier σ τ) (d : Courier σ' τ') : Prop where
  doctor : d.doctor = c.doctor
  ids : Follows π c.store.ids d.store.ids
  read : ∀ id, Follows π (c.store.read id) (d.store.read id)
  delete : ∀ id, Follows π (c.store.delete id) (d.store.delete id)
  handler : ∀ batch, Follows ϖ (c.handler batch) (d.handler batch)

theorem follows_onStore {α : Type} {π : σ' → σ} {a : Action σ StoreFault α}
    {b : Action σ' StoreFault α} (h : Follows π a b) (ϖ : τ' → τ) (work : StoreWork) :
    Follows (Prod.map π ϖ) (onStore work a : Work σ τ α) (onStore work b) := by
  rintro ⟨s, t⟩ log r ⟨s', t'⟩ log' hperform
  obtain ⟨rfl, r', hb, rfl⟩ := perform_onStore hperform
  exact perform_onStore_of (h _ _ _ _ _ hb) _

section Mirrors

variable {π : σ' → σ} {ϖ : τ' → τ} {c : Courier σ τ} {d : Courier σ' τ'}

theorem Mirrors.fetchOne (h : Mirrors π ϖ c d) (id : Int64) :
    Follows (Prod.map π ϖ) (c.fetchOne id) (d.fetchOne id) := by
  refine (follows_onStore (h.read id) ϖ _).bind fun found => ?_
  cases found with
  | none => exact (follows_note _ _ _).bind fun _ => follows_pure _
  | some record =>
      dsimp only
      cases CrashReport.decode record with
      | ok report => exact follows_pure _
      | error fault => exact (follows_note _ _ _).bind fun _ => follows_pure _

theorem Mirrors.fetchEach (h : Mirrors π ϖ c d) (ids : List Int64) :
    Follows (Prod.map π ϖ) (c.fetchEach ids) (d.fetchEach ids) := by
  induction ids with
  | nil => exact follows_pure _
  | cons id rest ih =>
      exact (h.fetchOne id).bind fun here => ih.bind fun others => follows_pure _

theorem Mirrors.hand (h : Mirrors π ϖ c d) (batch : List CrashReport) :
    Follows (Prod.map π ϖ) (c.hand batch) (d.hand batch) := by
  rintro ⟨s, t⟩ log r ⟨s', t'⟩ log' hperform
  rcases hanswer : (d.handler batch).perform t log with ⟨⟨answer, t₁⟩, log₁⟩
  have hanswer' : c.handler batch (ϖ t) log = ((answer, ϖ t₁), log₁) :=
    h.handler batch _ _ _ _ _ hanswer
  change d.handler batch t log = _ at hanswer
  change d.hand batch (s, t) log = _ at hperform
  show c.hand batch (π s, ϖ t) log = _
  simp only [Courier.hand, onSecond, hanswer] at hperform
  simp only [Courier.hand, onSecond, hanswer']
  cases answer with
  | ok sent =>
      cases hperform
      rfl
  | error failure =>
      cases hperform
      rfl

theorem Mirrors.reconcile (h : Mirrors π ϖ c d) (arrived : List String) (pending : List Pending) :
    Follows (Prod.map π ϖ) (c.reconcile arrived pending) (d.reconcile arrived pending) := by
  induction pending with
  | nil => exact follows_pure _
  | cons p rest ih =>
      obtain ⟨id, report⟩ := p
      unfold Courier.reconcile
      by_cases hmem : arrived.contains report.id
      · rw [if_pos hmem, if_pos hmem]
        exact (follows_onStore (h.delete id) ϖ _).bind fun _ => ih
      · rw [if_neg hmem, if_neg hmem]
        exact (follows_note _ _ _).bind fun _ => ih

theorem Mirrors.deliver (h : Mirrors π ϖ c d) (pending : List Pending) :
    Follows (Prod.map π ϖ) (c.deliver pending) (d.deliver pending) := by
  unfold Courier.deliver
  by_cases hnil : pending.isEmpty
  · rw [if_pos hnil, if_pos hnil]
    exact (follows_note _ _ _).bind fun _ => follows_pure _
  · rw [if_neg hnil, if_neg hnil]
    refine (follows_note _ _ _).bind fun _ => (h.hand _).bind fun sent => ?_
    exact (h.reconcile _ _).bind fun _ => (follows_note _ _ _).bind fun _ => follows_pure _

/-- **A pass of the second courier is one of the first.** -/
theorem Mirrors.sendAll (h : Mirrors π ϖ c d) :
    Follows (Prod.map π ϖ) c.sendAll d.sendAll := by
  rw [sendAll_eq, sendAll_eq, h.doctor]
  refine (follows_onStore h.ids ϖ _).bind fun ids => (follows_note _ _ _).bind fun _ => ?_
  exact (h.fetchEach ids).bind fun pending => h.deliver _

end Mirrors

/-! ## The calls of a handler -/

/-- A courier that writes the calls of its handler down does what it would do without that. -/
theorem mirrors_recorded (c : Courier σ τ) : Mirrors id Prod.fst c c.recorded where
  doctor := rfl
  ids _ _ _ _ _ h := h
  read _ _ _ _ _ _ h := h
  delete _ _ _ _ _ _ h := h
  handler := by
    rintro batch ⟨t, calls⟩ log answer ⟨t', calls'⟩ log' h
    exact (Retention.perform_recorded h).1

end Courier

end CrashCourier
