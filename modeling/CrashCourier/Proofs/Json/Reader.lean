import CrashCourier.Json.Reader

/-!
# What readers give

`Gives r input a rest` says that the reader `r` takes `a` off the input and leaves `rest`. There is
one equation for every way of building a reader, so that a reader is followed by rewriting, forwards
from a text that is known and backwards from a result.

Loops carry fuel, and `Runs` is a loop without it: steps, one after the other, until one gives a
result. The two agree as soon as each step but the last makes the input shorter. Arrays and objects
are loops of this kind, and for them `TakesItems` and `TakesMembers` say what the steps are.
-/

namespace CrashCourier.Json.Reader

variable {α β σ : Type}

/-- The reader takes `a` off the input and leaves `rest`. -/
def Gives (r : Reader α) (input : Bytes) (a : α) (rest : Bytes) : Prop :=
  r input = .ok (a, rest)

theorem Gives.eq {r : Reader α} {input rest rest' : Bytes} {a a' : α} (h : Gives r input a rest)
    (h' : Gives r input a' rest') : a' = a ∧ rest' = rest := by
  rw [Gives] at h h'
  rw [h] at h'
  simp only [Except.ok.injEq, Prod.mk.injEq] at h'
  exact ⟨h'.1.symm, h'.2.symm⟩

section Equations

variable {input rest : Bytes} {a b : α}

@[simp] theorem gives_pure : Gives (pure a) input b rest ↔ b = a ∧ rest = input := by
  show Except.ok (a, input) = .ok (b, rest) ↔ _
  simp only [Except.ok.injEq, Prod.mk.injEq]
  exact and_congr eq_comm eq_comm

@[simp] theorem gives_throw {fault : Fault} : ¬ Gives (throw fault : Reader α) input a rest := by
  intro h
  cases h

@[simp] theorem gives_bind {r : Reader α} {f : α → Reader β} {y : β} :
    Gives (r >>= f) input y rest ↔ ∃ x mid, Gives r input x mid ∧ Gives (f x) mid y rest := by
  show (StateT.bind r f) input = _ ↔ _
  unfold Gives
  cases hr : r input with
  | error fault => simp [StateT.bind, hr, bind, Except.bind]
  | ok p =>
      obtain ⟨x, mid⟩ := p
      have hb : StateT.bind r f input = f x mid := by
        simp only [StateT.bind, hr, bind, Except.bind]
      rw [hb]
      refine ⟨?_, ?_⟩
      · intro h
        exact ⟨x, mid, rfl, h⟩
      · intro hin
        obtain ⟨x', mid', h, h'⟩ := hin
        cases h
        exact h'

@[simp] theorem gives_map {r : Reader α} {f : α → β} {y : β} :
    Gives (f <$> r) input y rest ↔ ∃ x, Gives r input x rest ∧ y = f x := by
  have hmap : f <$> r = r >>= fun x => pure (f x) := rfl
  rw [hmap, gives_bind]
  refine ⟨?_, ?_⟩
  · intro hr
    obtain ⟨x, mid, hx, hy⟩ := hr
    obtain ⟨rfl, rfl⟩ := gives_pure.mp hy
    exact ⟨x, hx, rfl⟩
  · intro hr
    obtain ⟨x, hx, rfl⟩ := hr
    exact ⟨x, rest, hx, gives_pure.mpr ⟨rfl, rfl⟩⟩

/-- A result of another kind is given as it is. -/
@[simp] theorem gives_liftM {r : Except Fault α} :
    Gives (liftM r : Reader α) input a rest ↔ r = .ok a ∧ rest = input := by
  cases r with
  | error fault =>
      refine ⟨?_, ?_⟩
      · intro h
        cases h
      · intro hr
        obtain ⟨h, _⟩ := hr
        cases h
  | ok x =>
      show Gives (pure x) input a rest ↔ _
      rw [gives_pure, Except.ok.injEq]
      exact and_congr_left fun _ => eq_comm

@[simp] theorem gives_peek {c : Option Char} :
    Gives peek input c rest ↔ c = input.head?.map Char.ofUInt8 ∧ rest = input := by
  simp only [Gives, peek, Except.ok.injEq, Prod.mk.injEq]
  exact and_congr eq_comm eq_comm

@[simp] theorem gives_ahead {c : Option Char} :
    Gives ahead input c rest ↔
      c = rest.head?.map Char.ofUInt8 ∧ rest = input.dropWhile isBlank := by
  show Gives peek (input.dropWhile isBlank) c rest ↔ _
  rw [gives_peek]
  refine ⟨?_, ?_⟩
  · intro hr
    obtain ⟨rfl, rfl⟩ := hr
    exact ⟨rfl, rfl⟩
  · intro hr
    obtain ⟨rfl, rfl⟩ := hr
    exact ⟨rfl, rfl⟩

@[simp] theorem gives_skip {u : Unit} : Gives skip input u rest ↔ rest = input.tail := by
  simp only [Gives, skip, Except.ok.injEq, Prod.mk.injEq, true_and]
  exact eq_comm

@[simp] theorem gives_octet? {b : Option UInt8} :
    Gives octet? input b rest ↔ b = input.head? ∧ rest = input.tail := by
  simp only [Gives, octet?, Except.ok.injEq, Prod.mk.injEq]
  exact and_congr eq_comm eq_comm

end Equations

/-! ### The octet that is next -/

section Next

variable {b : UInt8} {input tail rest : Bytes} {y : β}

theorem gives_bind_ahead {f : Option Char → Reader β} (h : input.dropWhile isBlank = b :: tail) :
    Gives (ahead >>= f) input y rest ↔ Gives (f (some (Char.ofUInt8 b))) (b :: tail) y rest := by
  rw [gives_bind, ← h]
  constructor
  · rintro ⟨c, mid, hc, hf⟩
    obtain ⟨rfl, rfl⟩ := gives_ahead.mp hc
    rwa [h] at hf ⊢
  · intro hf
    exact ⟨_, _, gives_ahead.mpr ⟨by rw [h]; rfl, rfl⟩, hf⟩

theorem gives_bind_skip {f : Unit → Reader β} :
    Gives (skip >>= f) (b :: tail) y rest ↔ Gives (f ()) tail y rest := by
  rw [gives_bind]
  constructor
  · rintro ⟨_, mid, hmid, hf⟩
    obtain rfl : mid = tail := gives_skip.mp hmid
    exact hf
  · intro hf
    exact ⟨(), tail, gives_skip.mpr rfl, hf⟩

theorem gives_bind_octet {f : Option UInt8 → Reader β} :
    Gives (octet? >>= f) (b :: tail) y rest ↔ Gives (f (some b)) tail y rest := by
  rw [gives_bind]
  constructor
  · rintro ⟨b?, mid, hb, hf⟩
    obtain ⟨rfl, rfl⟩ := gives_octet?.mp hb
    exact hf
  · intro hf
    exact ⟨some b, tail, gives_octet?.mpr ⟨rfl, rfl⟩, hf⟩

end Next

/-- A word is taken where it stands. -/
@[simp] theorem gives_word {w input rest : Bytes} {u : Unit} :
    Gives (word w) input u rest ↔ input = w ++ rest := by
  induction w generalizing input with
  | nil =>
      show Gives (pure ()) input u rest ↔ _
      rw [gives_pure, List.nil_append]
      exact ⟨fun h => h.2.symm, fun h => ⟨rfl, h.symm⟩⟩
  | cons b w ih =>
      rw [word, gives_bind]
      refine ⟨?_, ?_⟩
      · intro hr
        obtain ⟨x, mid, hx, h⟩ := hr
        obtain ⟨rfl, rfl⟩ := gives_octet?.mp hx
        cases input with
        | nil => exact absurd h gives_throw
        | cons b' input =>
            simp only [List.head?_cons, List.tail_cons] at h
            split at h
            · rename_i heq
              rw [ih.mp h, heq]
              rfl
            · exact absurd h gives_throw
      · intro hsame
        obtain rfl := hsame
        refine ⟨some b, w ++ rest, gives_octet?.mpr ⟨rfl, rfl⟩, ?_⟩
        simp only [if_true]
        exact ih.mpr rfl

/-! ## Loops -/

/-- Steps lead from a state to a result. -/
inductive Runs (step : σ → Reader (σ ⊕ α)) : σ → Bytes → α → Bytes → Prop where
  | done {s : σ} {input rest : Bytes} {a : α} :
      Gives (step s) input (.inr a) rest → Runs step s input a rest
  | more {s s' : σ} {input mid rest : Bytes} {a : α} :
      Gives (step s) input (.inl s') mid → Runs step s' mid a rest → Runs step s input a rest

/-- Every step but the last makes the input shorter. -/
def Advances (step : σ → Reader (σ ⊕ α)) : Prop :=
  ∀ ⦃s s' : σ⦄ ⦃input mid : Bytes⦄, Gives (step s) input (.inl s') mid → mid.length < input.length

section Loops

variable {step : σ → Reader (σ ⊕ α)} {input rest : Bytes} {a : α}

theorem runs_of_loop {fuel : Bytes} {s : σ} (h : Gives (loop step fuel s) input a rest) :
    Runs step s input a rest := by
  induction fuel generalizing s input with
  | nil =>
      rw [loop, gives_bind] at h
      obtain ⟨x, mid, hx, h⟩ := h
      cases x with
      | inl s' => exact absurd h gives_throw
      | inr a' =>
          obtain ⟨rfl, rfl⟩ := gives_pure.mp h
          exact .done hx
  | cons b fuel ih =>
      rw [loop, gives_bind] at h
      obtain ⟨x, mid, hx, h⟩ := h
      cases x with
      | inl s' => exact .more hx (ih h)
      | inr a' =>
          obtain ⟨rfl, rfl⟩ := gives_pure.mp h
          exact .done hx

/-- An octet of fuel for every octet of input is enough. -/
theorem loop_of_runs (hstep : Advances step) {s : σ} (h : Runs step s input a rest) :
    ∀ {fuel : Bytes}, input.length ≤ fuel.length → Gives (loop step fuel s) input a rest := by
  induction h with
  | @done s input rest a hx =>
      intro fuel _
      cases fuel with
      | nil =>
          rw [loop, gives_bind]
          exact ⟨_, _, hx, gives_pure.mpr ⟨rfl, rfl⟩⟩
      | cons b fuel =>
          rw [loop, gives_bind]
          exact ⟨_, _, hx, gives_pure.mpr ⟨rfl, rfl⟩⟩
  | @more s s' input mid rest a hx _ ih =>
      intro fuel hfuel
      have hlt := hstep hx
      cases fuel with
      | nil =>
          simp only [List.length_nil] at hfuel
          omega
      | cons b fuel =>
          rw [loop, gives_bind]
          refine ⟨_, _, hx, ih ?_⟩
          simp only [List.length_cons] at hfuel
          omega

/-- **A loop gives what its steps lead to.** -/
theorem gives_repeated (hstep : Advances step) {s : σ} :
    Gives (repeated step s) input a rest ↔ Runs step s input a rest := by
  show Gives (loop step input s) input a rest ↔ _
  exact ⟨runs_of_loop, fun h => loop_of_runs hstep h (Nat.le_refl _)⟩

end Loops

/-! ## Punctuation -/

theorem ofUInt8_inj {a b : UInt8} : Char.ofUInt8 a = Char.ofUInt8 b ↔ a = b := by
  refine ⟨?_, ?_⟩
  · intro h
    have hnat : (Char.ofUInt8 a).toNat = (Char.ofUInt8 b).toNat := by rw [h]
    exact UInt8.toNat_inj.mp hnat
  · intro heq
    obtain rfl := heq
    rfl

/-- An octet is ahead if and only if its character is. -/
theorem head_eq_some {input : Bytes} {b : UInt8} :
    input.head?.map Char.ofUInt8 = some (Char.ofUInt8 b) ↔ ∃ tail, input = b :: tail := by
  cases input with
  | nil => simp
  | cons b' tail =>
      simp only [List.head?_cons, Option.map_some, Option.some.injEq, List.cons.injEq]
      rw [ofUInt8_inj]
      refine ⟨?_, ?_⟩
      · intro heq
        obtain rfl := heq
        exact ⟨tail, rfl, rfl⟩
      · intro hr
        obtain ⟨_, rfl, _⟩ := hr
        rfl

/-- What comes before an item or a key, blanks apart: nothing before the first one, a comma before
the others. -/
def Separated : (first : Bool) → Bytes → Bytes → Prop
  | true, input, mid => mid = input
  | false, input, mid => input.dropWhile isBlank = 0x2C :: mid

theorem Separated.length {first : Bool} {input mid : Bytes} (h : Separated first input mid) :
    mid.length ≤ input.length := by
  cases first with
  | true => exact Nat.le_of_eq (congrArg _ h)
  | false =>
      have hle := (List.dropWhile_sublist isBlank (l := input)).length_le
      rw [h, List.length_cons] at hle
      omega

/-- What follows the octet that is ahead decides. -/
theorem gives_skip_ahead {f : Option Char → Reader β} {b : UInt8} {tail rest : Bytes} {y : β} :
    Gives (skip >>= fun _ => ahead >>= f) (b :: tail) y rest ↔
      Gives (f ((tail.dropWhile isBlank).head?.map Char.ofUInt8)) (tail.dropWhile isBlank) y rest := by
  simp only [gives_bind, gives_skip, gives_ahead]
  refine ⟨?_, ?_⟩
  · intro h
    obtain ⟨_, _, rfl, _, _, ⟨rfl, rfl⟩, h⟩ := h
    exact h
  · intro h
    exact ⟨(), tail, rfl, _, _, ⟨rfl, rfl⟩, h⟩

/-- What is ahead is another octet. -/
theorem exists_cons_of_head_ne {x : UInt8} {c : Char} {rest : Bytes}
    (hc : some c = rest.head?.map Char.ofUInt8) (hne : c ≠ Char.ofUInt8 x) :
    ∃ b tail, rest = b :: tail ∧ b ≠ x := by
  cases rest with
  | nil => cases hc
  | cons b tail =>
      refine ⟨b, tail, rfl, ?_⟩
      intro heq
      rw [heq] at hc
      exact hne (Option.some.inj hc)

theorem gives_nextItem_false {first : Bool} {input rest : Bytes} :
    Gives (nextItem first) input false rest ↔
      rest = input.dropWhile isBlank ∧ ∃ tail, rest = 0x5D :: tail := by
  rw [nextItem, gives_bind]
  refine ⟨?_, ?_⟩
  · intro hr
    obtain ⟨c, mid, hahead, h⟩ := hr
    obtain ⟨hc, hmid⟩ := gives_ahead.mp hahead
    split at h
    · exact absurd h gives_throw
    · obtain ⟨_, rfl⟩ := gives_pure.mp h
      exact ⟨hmid, head_eq_some.mp hc.symm⟩
    · split at h
      · cases (gives_pure.mp h).1
      · split at h
        · simp only [gives_bind] at h
          obtain ⟨_, _, _, _, _, _, h⟩ := h
          split at h
          · exact absurd h gives_throw
          · exact absurd h gives_throw
          · cases (gives_pure.mp h).1
        · exact absurd h gives_throw
  · intro hr
    obtain ⟨hmid, tail, rfl⟩ := hr
    exact ⟨_, _, gives_ahead.mpr ⟨rfl, hmid⟩, gives_pure.mpr ⟨rfl, rfl⟩⟩

theorem gives_nextItem_true {first : Bool} {input rest : Bytes} :
    Gives (nextItem first) input true rest ↔
      ∃ mid, Separated first input mid ∧ rest = mid.dropWhile isBlank ∧
        ∃ b tail, rest = b :: tail ∧ b ≠ 0x5D := by
  rw [nextItem, gives_bind]
  refine ⟨?_, ?_⟩
  · intro hr
    obtain ⟨c, mid, hahead, h⟩ := hr
    obtain ⟨hc, hmid⟩ := gives_ahead.mp hahead
    split at h
    · exact absurd h gives_throw
    · cases (gives_pure.mp h).1
    · rename_i c' hnot
      split at h
      · rename_i hfirst
        obtain ⟨_, rfl⟩ := gives_pure.mp h
        subst hfirst
        exact ⟨input, rfl, hmid, exists_cons_of_head_ne hc hnot⟩
      · rename_i hfirst
        obtain rfl : first = false := by simpa using hfirst
        split at h
        · rename_i hcomma
          subst hcomma
          obtain ⟨tail, htail⟩ := (head_eq_some (b := 0x2C)).mp hc.symm
          rw [htail] at h hmid
          have h := gives_skip_ahead.mp h
          split at h
          · exact absurd h gives_throw
          · exact absurd h gives_throw
          · rename_i c₂ hnot₂ hc₂
            obtain ⟨_, rfl⟩ := gives_pure.mp h
            exact ⟨tail, hmid.symm, rfl, exists_cons_of_head_ne hc₂.symm hnot₂⟩
        · exact absurd h gives_throw
  · intro hr
    obtain ⟨mid, hsep, hrest, b, tail, rfl, hb⟩ := hr
    have hchar : Char.ofUInt8 b ≠ ']' := fun h => hb ((ofUInt8_inj (b := 0x5D)).mp h)
    cases first with
    | true =>
        obtain rfl : mid = input := hsep
        refine ⟨_, _, gives_ahead.mpr ⟨rfl, hrest⟩, ?_⟩
        simp only [List.head?_cons, Option.map_some, if_true]
        exact gives_pure.mpr ⟨rfl, rfl⟩
    | false =>
        refine ⟨_, _, gives_ahead.mpr ⟨rfl, hsep.symm⟩, ?_⟩
        refine gives_skip_ahead.mpr ?_
        rw [← hrest]
        simp only [List.head?_cons, Option.map_some]
        exact gives_pure.mpr ⟨rfl, rfl⟩

theorem gives_nextKey_false {first : Bool} {input rest : Bytes} :
    Gives (nextKey first) input false rest ↔
      rest = input.dropWhile isBlank ∧ ∃ tail, rest = 0x7D :: tail := by
  rw [nextKey, gives_bind]
  refine ⟨?_, ?_⟩
  · intro hr
    obtain ⟨c, mid, hahead, h⟩ := hr
    obtain ⟨hc, hmid⟩ := gives_ahead.mp hahead
    split at h
    · exact absurd h gives_throw
    · obtain ⟨_, rfl⟩ := gives_pure.mp h
      exact ⟨hmid, head_eq_some.mp hc.symm⟩
    · split at h
      · split at h
        · cases (gives_pure.mp h).1
        · exact absurd h gives_throw
      · split at h
        · simp only [gives_bind] at h
          obtain ⟨_, _, _, _, _, _, h⟩ := h
          split at h
          · exact absurd h gives_throw
          · cases (gives_pure.mp h).1
          · exact absurd h gives_throw
          · exact absurd h gives_throw
        · exact absurd h gives_throw
  · intro hr
    obtain ⟨hmid, tail, rfl⟩ := hr
    exact ⟨_, _, gives_ahead.mpr ⟨rfl, hmid⟩, gives_pure.mpr ⟨rfl, rfl⟩⟩

theorem gives_nextKey_true {first : Bool} {input rest : Bytes} :
    Gives (nextKey first) input true rest ↔
      ∃ mid, Separated first input mid ∧ rest = mid.dropWhile isBlank ∧
        ∃ tail, rest = 0x22 :: tail := by
  rw [nextKey, gives_bind]
  refine ⟨?_, ?_⟩
  · intro hr
    obtain ⟨c, mid, hahead, h⟩ := hr
    obtain ⟨hc, hmid⟩ := gives_ahead.mp hahead
    split at h
    · exact absurd h gives_throw
    · cases (gives_pure.mp h).1
    · split at h
      · rename_i hfirst
        split at h
        · rename_i hquote
          obtain ⟨_, rfl⟩ := gives_pure.mp h
          subst hfirst; subst hquote
          exact ⟨input, rfl, hmid, head_eq_some.mp hc.symm⟩
        · exact absurd h gives_throw
      · rename_i hfirst
        obtain rfl : first = false := by simpa using hfirst
        split at h
        · rename_i hcomma
          subst hcomma
          obtain ⟨tail, htail⟩ := (head_eq_some (b := 0x2C)).mp hc.symm
          rw [htail] at h hmid
          have h := gives_skip_ahead.mp h
          split at h
          · exact absurd h gives_throw
          · rename_i hc₂
            obtain ⟨_, rfl⟩ := gives_pure.mp h
            exact ⟨tail, hmid.symm, rfl, head_eq_some.mp hc₂⟩
          · exact absurd h gives_throw
          · exact absurd h gives_throw
        · exact absurd h gives_throw
  · intro hr
    obtain ⟨mid, hsep, hrest, tail, rfl⟩ := hr
    cases first with
    | true =>
        obtain rfl : mid = input := hsep
        exact ⟨_, _, gives_ahead.mpr ⟨rfl, hrest⟩, gives_pure.mpr ⟨rfl, rfl⟩⟩
    | false =>
        refine ⟨_, _, gives_ahead.mpr ⟨rfl, hsep.symm⟩, ?_⟩
        refine gives_skip_ahead.mpr ?_
        rw [← hrest]
        exact gives_pure.mpr ⟨rfl, rfl⟩

@[simp] theorem gives_colon {input rest : Bytes} {u : Unit} :
    Gives colon input u rest ↔ input.dropWhile isBlank = 0x3A :: rest := by
  rw [colon, gives_bind]
  refine ⟨?_, ?_⟩
  · intro hr
    obtain ⟨c, mid, hahead, h⟩ := hr
    obtain ⟨hc, hmid⟩ := gives_ahead.mp hahead
    split at h
    · exact absurd h gives_throw
    · obtain ⟨tail, htail⟩ := (head_eq_some (b := 0x3A)).mp hc.symm
      obtain rfl := gives_skip.mp h
      rw [← hmid, htail, List.tail_cons]
    · exact absurd h gives_throw
  · intro h
    exact ⟨_, _, gives_ahead.mpr ⟨rfl, h.symm⟩, gives_skip.mpr rfl⟩

/-! ## How much is taken -/

/-- A reader that leaves no more than there was. -/
def Leaves (r : Reader α) : Prop :=
  ∀ ⦃input rest : Bytes⦄ ⦃a : α⦄, Gives r input a rest → rest.length ≤ input.length

/-- A reader that takes at least one octet. -/
def Shortens (r : Reader α) : Prop :=
  ∀ ⦃input rest : Bytes⦄ ⦃a : α⦄, Gives r input a rest → rest.length < input.length

theorem Shortens.leaves {r : Reader α} (h : Shortens r) : Leaves r :=
  fun _ _ _ hr => Nat.le_of_lt (h hr)

theorem leaves_pure {a : α} : Leaves (pure a : Reader α) := by
  intro input rest b h
  exact Nat.le_of_eq (congrArg _ (gives_pure.mp h).2)

theorem leaves_throw {fault : Fault} : Leaves (throw fault : Reader α) :=
  fun _ _ _ h => absurd h gives_throw

theorem Leaves.bind {r : Reader α} {f : α → Reader β} (hr : Leaves r) (hf : ∀ a, Leaves (f a)) :
    Leaves (r >>= f) := by
  intro input rest b h
  obtain ⟨a, mid, ha, hb⟩ := gives_bind.mp h
  exact Nat.le_trans (hf a hb) (hr ha)

theorem Shortens.bind {r : Reader α} {f : α → Reader β} (hr : Shortens r) (hf : ∀ a, Leaves (f a)) :
    Shortens (r >>= f) := by
  intro input rest b h
  obtain ⟨a, mid, ha, hb⟩ := gives_bind.mp h
  exact Nat.lt_of_le_of_lt (hf a hb) (hr ha)

theorem Leaves.bind_shortens {r : Reader α} {f : α → Reader β} (hr : Leaves r)
    (hf : ∀ a, Shortens (f a)) : Shortens (r >>= f) := by
  intro input rest b h
  obtain ⟨a, mid, ha, hb⟩ := gives_bind.mp h
  exact Nat.lt_of_lt_of_le (hf a hb) (hr ha)

theorem leaves_peek : Leaves peek := by
  intro input rest c h
  exact Nat.le_of_eq (congrArg _ (gives_peek.mp h).2)

theorem length_dropWhile_le (input : Bytes) :
    (input.dropWhile isBlank).length ≤ input.length :=
  (List.dropWhile_sublist isBlank).length_le

theorem leaves_skip : Leaves skip := by
  intro input rest u h
  rw [gives_skip.mp h, List.length_tail]
  omega

theorem leaves_octet? : Leaves octet? := by
  intro input rest b h
  rw [(gives_octet?.mp h).2, List.length_tail]
  omega

theorem leaves_colon : Leaves colon := by
  intro input rest u h
  have hle := length_dropWhile_le input
  rw [gives_colon.mp h, List.length_cons] at hle
  omega

/-! ## Arrays -/

/-- The items of an array are taken one after the other. -/
inductive TakesItems (item : Reader α) : (first : Bool) → Bytes → List α → Bytes → Prop where
  | close {first : Bool} {input rest : Bytes} :
      input.dropWhile isBlank = 0x5D :: rest → TakesItems item first input [] rest
  | next {first : Bool} {input mid tail after rest : Bytes} {b : UInt8} {a : α} {as : List α} :
      Separated first input mid → mid.dropWhile isBlank = b :: tail → b ≠ 0x5D →
      Gives item (b :: tail) a after → TakesItems item false after as rest →
      TakesItems item first input (a :: as) rest

/-- The closing bracket makes the input shorter, whatever the items take. -/
theorem TakesItems.length {item : Reader α} (hitem : Leaves item) {first : Bool} {as : List α}
    {input rest : Bytes} (h : TakesItems item first input as rest) :
    rest.length < input.length := by
  induction h with
  | @close first input rest hclose =>
      have hle := length_dropWhile_le input
      rw [hclose, List.length_cons] at hle
      omega
  | @next first input mid tail after rest b a as hsep hmid _ ha _ ih =>
      have hle := length_dropWhile_le mid
      rw [hmid] at hle
      have hsepl := hsep.length
      have hleaves := hitem ha
      omega

/-- One step of the loop over the items of an array. -/
def itemStep (item : Reader α) : Bool × List α → Reader ((Bool × List α) ⊕ List α) :=
  fun (first, taken) => do
    if ← nextItem first then
      return .inl (false, (← item) :: taken)
    else
      skip
      return .inr taken.reverse

theorem items_eq (item : Reader α) : items item = repeated (itemStep item) (true, []) := rfl

section Items

variable {item : Reader α}

theorem gives_itemStep_inl {first first' : Bool} {taken taken' : List α} {input rest : Bytes} :
    Gives (itemStep item (first, taken)) input (.inl (first', taken')) rest ↔
      ∃ mid a, Gives (nextItem first) input true mid ∧ Gives item mid a rest ∧
        first' = false ∧ taken' = a :: taken := by
  rw [itemStep, gives_bind]
  refine ⟨?_, ?_⟩
  · intro hr
    obtain ⟨more, mid, hmore, h⟩ := hr
    cases more with
    | true =>
        simp only [if_true, gives_bind, gives_pure] at h
        obtain ⟨a, mid', ha, heq, rfl⟩ := h
        injection heq with heq
        injection heq with hfirst htaken
        exact ⟨mid, a, hmore, ha, hfirst, htaken⟩
    | false =>
        simp only [Bool.false_eq_true, if_false, gives_bind, gives_pure] at h
        obtain ⟨_, _, _, heq, _⟩ := h
        cases heq
  · intro hr
    obtain ⟨mid, a, hmore, ha, rfl, rfl⟩ := hr
    refine ⟨true, mid, hmore, ?_⟩
    rw [if_pos rfl, gives_bind]
    exact ⟨a, rest, ha, gives_pure.mpr ⟨rfl, rfl⟩⟩

theorem gives_itemStep_inr {first : Bool} {taken as : List α} {input rest : Bytes} :
    Gives (itemStep item (first, taken)) input (.inr as) rest ↔
      input.dropWhile isBlank = 0x5D :: rest ∧ as = taken.reverse := by
  rw [itemStep, gives_bind]
  refine ⟨?_, ?_⟩
  · intro hr
    obtain ⟨more, mid, hmore, h⟩ := hr
    cases more with
    | true =>
        simp only [if_true, gives_bind, gives_pure] at h
        obtain ⟨_, _, _, heq, _⟩ := h
        cases heq
    | false =>
        simp only [Bool.false_eq_true, if_false, gives_bind, gives_pure, gives_skip] at h
        obtain ⟨_, _, rfl, heq, rfl⟩ := h
        obtain ⟨hmid, tail, rfl⟩ := gives_nextItem_false.mp hmore
        injection heq with heq
        exact ⟨hmid.symm, heq⟩
  · intro hr
    obtain ⟨hclose, rfl⟩ := hr
    refine ⟨false, _, gives_nextItem_false.mpr ⟨hclose.symm, rest, rfl⟩, ?_⟩
    rw [if_neg Bool.false_ne_true, gives_bind]
    exact ⟨(), rest, gives_skip.mpr rfl, gives_pure.mpr ⟨rfl, rfl⟩⟩

theorem itemStep_advances (hitem : Shortens item) : Advances (itemStep item) := by
  rintro ⟨first, taken⟩ ⟨first', taken'⟩ input rest h
  obtain ⟨mid, a, hmore, ha, _⟩ := gives_itemStep_inl.mp h
  obtain ⟨mid', hsep, rfl, _⟩ := gives_nextItem_true.mp hmore
  have hlt := hitem ha
  have hle := length_dropWhile_le mid'
  have hsepl := hsep.length
  omega

theorem takesItems_of_runs {first : Bool} {taken as : List α} {input rest : Bytes}
    (h : Runs (itemStep item) (first, taken) input as rest) :
    ∃ as', TakesItems item first input as' rest ∧ as = taken.reverse ++ as' := by
  generalize hs : (first, taken) = s at h
  induction h generalizing first taken with
  | done h =>
      subst hs
      obtain ⟨hclose, rfl⟩ := gives_itemStep_inr.mp h
      exact ⟨[], .close hclose, (List.append_nil _).symm⟩
  | @more s s' input mid rest as h _ ih =>
      subst hs
      obtain ⟨first', taken'⟩ := s'
      obtain ⟨start, a, hmore, ha, rfl, rfl⟩ := gives_itemStep_inl.mp h
      obtain ⟨mid', hsep, hstart, b, tail, rfl, hb⟩ := gives_nextItem_true.mp hmore
      obtain ⟨as', htakes, rfl⟩ := ih rfl
      exact ⟨a :: as', .next hsep hstart.symm hb ha htakes, by simp⟩

theorem runs_of_takesItems {first : Bool} {as : List α} {input rest : Bytes}
    (h : TakesItems item first input as rest) (taken : List α) :
    Runs (itemStep item) (first, taken) input (taken.reverse ++ as) rest := by
  induction h generalizing taken with
  | close hclose => exact .done (gives_itemStep_inr.mpr ⟨hclose, List.append_nil _⟩)
  | @next first input mid tail after rest b a as hsep hmid hb ha _ ih =>
      have hmore : Gives (nextItem first) input true (b :: tail) :=
        gives_nextItem_true.mpr ⟨mid, hsep, hmid.symm, b, tail, rfl, hb⟩
      have hrest := ih (a :: taken)
      rw [List.reverse_cons, List.append_assoc] at hrest
      exact .more (gives_itemStep_inl.mpr ⟨b :: tail, a, hmore, ha, rfl, rfl⟩) hrest

/-- **An array is read item by item.** -/
theorem gives_items (hitem : Shortens item) {as : List α} {input rest : Bytes} :
    Gives (items item) input as rest ↔ TakesItems item true input as rest := by
  rw [items_eq, gives_repeated (itemStep_advances hitem)]
  refine ⟨?_, ?_⟩
  · intro h
    obtain ⟨as', htakes, rfl⟩ := takesItems_of_runs h
    exact htakes
  · intro h
    exact runs_of_takesItems h []

end Items

end CrashCourier.Json.Reader
