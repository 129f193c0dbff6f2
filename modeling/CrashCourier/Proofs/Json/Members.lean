import CrashCourier.Proofs.Json.Text

/-!
# Objects

An object is a loop over its members. What a member does is up to the reader of the object: it gets
the key and what the members before have made, and it takes the colon and the value. `TakesMembers`
says how the members follow each other, whatever they make.

Free values and records of a fixed shape read objects through this one loop, and so a comparison of
what two readers make of one member is enough to compare what they make of an object.
-/

namespace CrashCourier.Json.Reader

variable {σ : Type}

/-- The members of an object are taken one after the other. -/
inductive TakesMembers (member : String → σ → Reader σ) :
    (first : Bool) → σ → Bytes → σ → Bytes → Prop where
  | close {first : Bool} {s : σ} {input rest : Bytes} :
      input.dropWhile isBlank = 0x7D :: rest → TakesMembers member first s input s rest
  | next {first : Bool} {s s' t : σ} {input mid tail after more rest : Bytes} {key : String} :
      Separated first input mid → mid.dropWhile isBlank = 0x22 :: tail →
      Gives string (0x22 :: tail) key after → Gives (member key s) after s' more →
      TakesMembers member false s' more t rest → TakesMembers member first s input t rest

/-- The closing brace makes the input shorter, whatever the members take. -/
theorem TakesMembers.length {member : String → σ → Reader σ}
    (hmember : ∀ key s, Leaves (member key s)) {first : Bool} {s t : σ} {input rest : Bytes}
    (h : TakesMembers member first s input t rest) : rest.length < input.length := by
  induction h with
  | @close first s input rest hclose =>
      have hle := length_dropWhile_le input
      rw [hclose, List.length_cons] at hle
      omega
  | @next first s s' t input mid tail after more rest key hsep hmid hkey hm _ ih =>
      have hle := length_dropWhile_le mid
      rw [hmid] at hle
      have hsepl := hsep.length
      have hlt := shortens_string hkey
      have hleaves := hmember _ _ hm
      omega

/-- One step of the loop over the members of an object. -/
def memberStep (member : String → σ → Reader σ) : Bool × σ → Reader ((Bool × σ) ⊕ σ) :=
  fun (first, s) => do
    if ← nextKey first then
      let key ← string
      return .inl (false, ← member key s)
    else
      skip
      return .inr s

theorem members_eq (member : String → σ → Reader σ) (s : σ) :
    members member s = repeated (memberStep member) (true, s) := rfl

section Members

variable {member : String → σ → Reader σ}

theorem gives_memberStep_inl {first first' : Bool} {s s' : σ} {input rest : Bytes} :
    Gives (memberStep member (first, s)) input (.inl (first', s')) rest ↔
      ∃ mid key after, Gives (nextKey first) input true mid ∧ Gives string mid key after ∧
        Gives (member key s) after s' rest ∧ first' = false := by
  rw [memberStep, gives_bind]
  refine ⟨?_, ?_⟩
  · intro hr
    obtain ⟨more, mid, hmore, h⟩ := hr
    cases more with
    | true =>
        simp only [if_true, gives_bind, gives_pure] at h
        obtain ⟨key, after, hkey, t, _, hmember, heq, rfl⟩ := h
        injection heq with heq
        injection heq with hfirst ht
        subst ht
        exact ⟨mid, key, after, hmore, hkey, hmember, hfirst⟩
    | false =>
        simp only [Bool.false_eq_true, if_false, gives_bind, gives_pure] at h
        obtain ⟨_, _, _, heq, _⟩ := h
        cases heq
  · intro hr
    obtain ⟨mid, key, after, hmore, hkey, hmember, rfl⟩ := hr
    refine ⟨true, mid, hmore, ?_⟩
    rw [if_pos rfl, gives_bind]
    refine ⟨key, after, hkey, ?_⟩
    rw [gives_bind]
    exact ⟨s', rest, hmember, gives_pure.mpr ⟨rfl, rfl⟩⟩

theorem gives_memberStep_inr {first : Bool} {s t : σ} {input rest : Bytes} :
    Gives (memberStep member (first, s)) input (.inr t) rest ↔
      input.dropWhile isBlank = 0x7D :: rest ∧ t = s := by
  rw [memberStep, gives_bind]
  refine ⟨?_, ?_⟩
  · intro hr
    obtain ⟨more, mid, hmore, h⟩ := hr
    cases more with
    | true =>
        simp only [if_true, gives_bind, gives_pure] at h
        obtain ⟨_, _, _, _, _, _, heq, _⟩ := h
        cases heq
    | false =>
        simp only [Bool.false_eq_true, if_false, gives_bind, gives_pure, gives_skip] at h
        obtain ⟨_, _, rfl, heq, rfl⟩ := h
        obtain ⟨hmid, tail, rfl⟩ := gives_nextKey_false.mp hmore
        injection heq with heq
        exact ⟨hmid.symm, heq⟩
  · intro hr
    obtain ⟨hclose, rfl⟩ := hr
    refine ⟨false, _, gives_nextKey_false.mpr ⟨hclose.symm, rest, rfl⟩, ?_⟩
    rw [if_neg Bool.false_ne_true, gives_bind]
    exact ⟨(), rest, gives_skip.mpr rfl, gives_pure.mpr ⟨rfl, rfl⟩⟩

/-- The key makes the input shorter, whatever the member takes. -/
theorem memberStep_advances (hmember : ∀ key s, Leaves (member key s)) :
    Advances (memberStep member) := by
  rintro ⟨first, s⟩ ⟨first', s'⟩ input rest h
  obtain ⟨mid, key, after, hmore, hkey, hm, _⟩ := gives_memberStep_inl.mp h
  obtain ⟨mid', hsep, rfl, _⟩ := gives_nextKey_true.mp hmore
  have hle := length_dropWhile_le mid'
  have hsepl := hsep.length
  have hlt := shortens_string hkey
  have hleaves := hmember _ _ hm
  omega

theorem takesMembers_of_runs {first : Bool} {s t : σ} {input rest : Bytes}
    (h : Runs (memberStep member) (first, s) input t rest) :
    TakesMembers member first s input t rest := by
  generalize hst : (first, s) = st at h
  induction h generalizing first s with
  | done h =>
      subst hst
      obtain ⟨hclose, rfl⟩ := gives_memberStep_inr.mp h
      exact .close hclose
  | @more st st' input mid rest t h _ ih =>
      subst hst
      obtain ⟨first', s'⟩ := st'
      obtain ⟨start, key, after, hmore, hkey, hm, rfl⟩ := gives_memberStep_inl.mp h
      obtain ⟨mid', hsep, hstart, tail, rfl⟩ := gives_nextKey_true.mp hmore
      exact .next hsep hstart.symm hkey hm (ih rfl)

theorem runs_of_takesMembers {first : Bool} {s t : σ} {input rest : Bytes}
    (h : TakesMembers member first s input t rest) :
    Runs (memberStep member) (first, s) input t rest := by
  induction h with
  | close hclose => exact .done (gives_memberStep_inr.mpr ⟨hclose, rfl⟩)
  | @next first s s' t input mid tail after more rest key hsep hmid hkey hm _ ih =>
      have hmore : Gives (nextKey first) input true (0x22 :: tail) :=
        gives_nextKey_true.mpr ⟨mid, hsep, hmid.symm, tail, rfl⟩
      exact .more (gives_memberStep_inl.mpr ⟨_, key, after, hmore, hkey, hm, rfl⟩) ih

/-- **An object is read member by member.** -/
theorem gives_members (hmember : ∀ key s, Leaves (member key s)) {s t : σ} {input rest : Bytes} :
    Gives (members member s) input t rest ↔ TakesMembers member true s input t rest := by
  rw [members_eq, gives_repeated (memberStep_advances hmember)]
  exact ⟨takesMembers_of_runs, runs_of_takesMembers⟩

end Members

end CrashCourier.Json.Reader
