import CrashCourier.Json.Numeral
import CrashCourier.Json.Writer
import CrashCourier.Proofs.Json.Reader
import CrashCourier.Proofs.Text.Utf8

/-!
# Numbers read back

A numeral ends where the text stops to continue it, so its reader looks at what follows. `Detaches`
says that this does no harm: what the reader takes stands in front of the rest, and it takes the same in
front of anything that begins with neither a digit nor a point nor an `e`. So it takes the same off the
text with something behind it (`Extends`).

Whole numbers are read back from their decimal digits. Of a number with a fraction it is not known
here what its text is read as; `Binary64.ReadsBack` says of one number that the text gives it again,
and with `Extends` that is enough for the number inside a document.
-/

namespace CrashCourier.Json.Reader

variable {α β : Type}

/-- What may follow a numeral without continuing it. -/
def Ends (rest : Bytes) : Prop :=
  ∀ b ∈ rest.head?, digit? b = none ∧ b ≠ 0x2E ∧ b ≠ 0x65 ∧ b ≠ 0x45

theorem ends_nil : Ends [] := by
  intro b hb
  cases hb

theorem ends_cons {b : UInt8} {rest : Bytes} (h : b = 0x2C ∨ b = 0x5D ∨ b = 0x7D) :
    Ends (b :: rest) := by
  intro b' hb'
  obtain rfl : b = b' := by simpa using hb'
  rcases h with rfl | rfl | rfl <;> decide

/-- What the reader takes off a text it takes off the text with something behind it. -/
def Extends (r : Reader α) : Prop :=
  ∀ ⦃input rest more : Bytes⦄ ⦃a : α⦄, Gives r input a rest → Ends more →
    Gives r (input ++ more) a (rest ++ more)

/-- What the reader takes stands in front of the rest. It takes the same in front of anything that ends a
numeral, and of anything that begins as the rest does. -/
def Detaches (r : Reader α) : Prop :=
  ∀ ⦃input rest : Bytes⦄ ⦃a : α⦄, Gives r input a rest →
    ∃ w, input = w ++ rest ∧
      ∀ more, Ends more ∨ more.head? = rest.head? → Gives r (w ++ more) a more

theorem Detaches.extends {r : Reader α} (hr : Detaches r) : Extends r := by
  intro input rest more a h hmore
  obtain ⟨w, rfl, hw⟩ := hr h
  rw [List.append_assoc]
  refine hw (rest ++ more) ?_
  cases rest with
  | nil => exact .inl hmore
  | cons b rest => exact .inr rfl

theorem detaches_pure {a : α} : Detaches (pure a : Reader α) := by
  intro input rest b h
  obtain ⟨rfl, rfl⟩ := gives_pure.mp h
  exact ⟨[], rfl, fun more _ => gives_pure.mpr ⟨rfl, rfl⟩⟩

theorem Detaches.bind {r : Reader α} {f : α → Reader β} (hr : Detaches r)
    (hf : ∀ a, Detaches (f a)) : Detaches (r >>= f) := by
  intro input rest b h
  obtain ⟨a, mid, ha, hb⟩ := gives_bind.mp h
  obtain ⟨w, rfl, hw⟩ := hr ha
  obtain ⟨w', rfl, hw'⟩ := hf a hb
  refine ⟨w ++ w', (List.append_assoc w w' rest).symm, fun more hmore => ?_⟩
  rw [List.append_assoc]
  refine gives_bind.mpr ⟨a, w' ++ more, hw (w' ++ more) ?_, hw' more hmore⟩
  -- what the second reader takes begins as before, and if that is nothing the rest follows at once
  cases w' with
  | nil => exact hmore
  | cons b w' => exact .inr rfl

/-! ## Digits -/

/-- Whether an octet is a digit. -/
def isDigit (b : UInt8) : Bool :=
  (digit? b).isSome

theorem isDigit_iff {b : UInt8} : isDigit b = true ↔ 0x30 ≤ b.toNat ∧ b.toNat ≤ 0x39 := by
  have hb : (0x30 ≤ b ∧ b ≤ 0x39) ↔ 0x30 ≤ b.toNat ∧ b.toNat ≤ 0x39 := by
    rw [UInt8.le_iff_toNat_le, UInt8.le_iff_toNat_le]
    rfl
  rw [isDigit, digit?, ← hb]
  split
  · rename_i h
    exact ⟨fun _ => h, fun _ => rfl⟩
  · rename_i h
    exact ⟨fun h' => (nomatch h'), fun h' => absurd h' h⟩

theorem gives_digits {input rest : Bytes} {ds : List Nat} :
    Gives digits input ds rest ↔
      ds = (input.takeWhile isDigit).filterMap digit? ∧ rest = input.dropWhile isDigit := by
  simp only [Gives, digits, Except.ok.injEq, Prod.mk.injEq]
  exact and_congr eq_comm eq_comm

/-- What follows digits without continuing them. -/
def Stops (rest : Bytes) : Prop :=
  ∀ b ∈ rest.head?, isDigit b = false

theorem Ends.stops {more : Bytes} (h : Ends more) : Stops more := by
  intro b hb
  rw [isDigit, (h b hb).1]
  rfl

theorem Stops.dropWhile {more : Bytes} (h : Stops more) : more.dropWhile isDigit = more := by
  cases more with
  | nil => rfl
  | cons b more =>
      rw [List.dropWhile_cons, h b rfl]
      rfl

theorem Stops.takeWhile {more : Bytes} (h : Stops more) : more.takeWhile isDigit = [] := by
  cases more with
  | nil => rfl
  | cons b more =>
      rw [List.takeWhile_cons, h b rfl]
      rfl

theorem stops_dropWhile (input : Bytes) : Stops (input.dropWhile isDigit) := by
  intro b hb
  have hhead := List.head?_dropWhile_not isDigit input
  rw [hb] at hhead
  exact hhead

theorem detaches_digits : Detaches digits := by
  intro input rest ds h
  obtain ⟨rfl, rfl⟩ := gives_digits.mp h
  refine ⟨input.takeWhile isDigit, List.takeWhile_append_dropWhile.symm, fun more hmore => ?_⟩
  have hstops : Stops more := by
    rcases hmore with hends | hhead
    · exact hends.stops
    · intro b hb
      exact stops_dropWhile input b (hhead ▸ hb)
  have hall : ∀ b ∈ input.takeWhile isDigit, isDigit b = true :=
    List.all_eq_true.mp List.all_takeWhile
  refine gives_digits.mpr ⟨?_, ?_⟩
  · rw [List.takeWhile_append_of_pos hall, hstops.takeWhile, List.append_nil]
  · rw [List.dropWhile_append_of_pos hall, hstops.dropWhile]

theorem gives_someDigits {atEnd : Fault} {input rest : Bytes} {ds : List Nat} :
    Gives (someDigits atEnd) input ds rest ↔ Gives digits input ds rest ∧ ds ≠ [] := by
  rw [someDigits, gives_bind]
  refine ⟨?_, ?_⟩
  · intro hr
    obtain ⟨ds', mid, hds, h⟩ := hr
    split at h
    · obtain ⟨c, mid', _, h⟩ := gives_bind.mp h
      split at h
      · exact absurd h gives_throw
      · exact absurd h gives_throw
    · rename_i hne
      obtain ⟨rfl, rfl⟩ := gives_pure.mp h
      exact ⟨hds, hne⟩
  · intro hr
    obtain ⟨hds, hne⟩ := hr
    refine ⟨ds, rest, hds, ?_⟩
    cases ds with
    | nil => exact absurd rfl hne
    | cons d ds => exact gives_pure.mpr ⟨rfl, rfl⟩

theorem detaches_someDigits (atEnd : Fault) : Detaches (someDigits atEnd) := by
  intro input rest ds h
  obtain ⟨hds, hne⟩ := gives_someDigits.mp h
  obtain ⟨w, hinput, hw⟩ := detaches_digits hds
  exact ⟨w, hinput, fun more hmore => gives_someDigits.mpr ⟨hw more hmore, hne⟩⟩

/-- Where digits are taken the text begins with one. -/
theorem someDigits_head {atEnd : Fault} {input rest : Bytes} {ds : List Nat}
    (h : Gives (someDigits atEnd) input ds rest) :
    ∃ b tail, input = b :: tail ∧ isDigit b = true := by
  obtain ⟨hds, hne⟩ := gives_someDigits.mp h
  obtain ⟨rfl, _⟩ := gives_digits.mp hds
  cases input with
  | nil => exact absurd rfl hne
  | cons b tail =>
      refine ⟨b, tail, rfl, ?_⟩
      cases hb : isDigit b with
      | true => rfl
      | false =>
          rw [List.takeWhile_cons, hb] at hne
          exact absurd rfl hne

theorem shortens_someDigits (atEnd : Fault) : Shortens (someDigits atEnd) := by
  intro input rest ds h
  obtain ⟨b, tail, rfl, hb⟩ := someDigits_head h
  obtain ⟨hds, _⟩ := gives_someDigits.mp h
  rw [(gives_digits.mp hds).2, List.dropWhile_cons, if_pos hb]
  exact Nat.lt_succ_of_le (List.dropWhile_sublist isDigit).length_le

theorem gives_wholeDigits {atEnd : Fault} {input rest : Bytes} {ds : List Nat} :
    Gives (wholeDigits atEnd) input ds rest ↔
      Gives (someDigits atEnd) input ds rest ∧ ¬(ds.head? = some 0 ∧ ds.length ≠ 1) := by
  rw [wholeDigits, gives_bind]
  refine ⟨?_, ?_⟩
  · intro hr
    obtain ⟨ds', mid, hds, h⟩ := hr
    dsimp only at h
    split at h
    · obtain ⟨_, _, h, _⟩ := gives_bind.mp h
      exact absurd h gives_throw
    · rename_i hzero
      obtain ⟨rfl, rfl⟩ := gives_pure.mp h
      exact ⟨hds, hzero⟩
  · intro hr
    obtain ⟨hds, hzero⟩ := hr
    refine ⟨ds, rest, hds, ?_⟩
    dsimp only
    rw [if_neg hzero]
    exact gives_pure.mpr ⟨rfl, rfl⟩

theorem detaches_wholeDigits (atEnd : Fault) : Detaches (wholeDigits atEnd) := by
  intro input rest ds h
  obtain ⟨hds, hzero⟩ := gives_wholeDigits.mp h
  obtain ⟨w, hinput, hw⟩ := detaches_someDigits atEnd hds
  exact ⟨w, hinput, fun more hmore => gives_wholeDigits.mpr ⟨hw more hmore, hzero⟩⟩

/-! ## Fractions and exponents -/

theorem gives_fraction {atEnd : Fault} {input rest : Bytes} {r : Option (List Nat)} :
    Gives (fraction atEnd) input r rest ↔
      (∃ tail ds, input = 0x2E :: tail ∧ Gives (someDigits atEnd) tail ds rest ∧ r = some ds) ∨
      (∀ tail, input ≠ 0x2E :: tail) ∧ r = none ∧ rest = input := by
  rw [fraction, gives_bind]
  refine ⟨?_, ?_⟩
  · intro hr
    obtain ⟨c, mid, hc, h⟩ := hr
    obtain ⟨rfl, rfl⟩ := gives_peek.mp hc
    split at h
    · rename_i hpoint
      obtain ⟨tail, rfl⟩ := (head_eq_some (b := 0x2E)).mp hpoint
      simp only [gives_bind, gives_skip, gives_pure] at h
      obtain ⟨_, tail, rfl, ds, _, hds, rfl, rfl⟩ := h
      exact .inl ⟨tail, ds, rfl, hds, rfl⟩
    · rename_i hpoint
      obtain ⟨rfl, rfl⟩ := gives_pure.mp h
      refine .inr ⟨?_, rfl, rfl⟩
      rintro tail rfl
      exact hpoint rfl
  · intro hr
    rcases hr with ⟨tail, ds, rfl, hds, rfl⟩ | ⟨hne, rfl, rfl⟩
    · exact ⟨some '.', 0x2E :: tail, gives_peek.mpr ⟨rfl, rfl⟩, gives_bind.mpr
        ⟨(), tail, gives_skip.mpr rfl, gives_bind.mpr ⟨ds, rest, hds, gives_pure.mpr ⟨rfl, rfl⟩⟩⟩⟩
    · refine ⟨_, rest, gives_peek.mpr ⟨rfl, rfl⟩, ?_⟩
      split
      · rename_i hpoint
        obtain ⟨tail, htail⟩ := (head_eq_some (b := 0x2E)).mp hpoint
        exact absurd htail (hne tail)
      · exact gives_pure.mpr ⟨rfl, rfl⟩

theorem detaches_fraction (atEnd : Fault) : Detaches (fraction atEnd) := by
  intro input rest r h
  rcases gives_fraction.mp h with ⟨tail, ds, rfl, hds, rfl⟩ | ⟨hne, rfl, rfl⟩
  · obtain ⟨w, rfl, hw⟩ := detaches_someDigits atEnd hds
    exact ⟨0x2E :: w, rfl, fun more hmore =>
      gives_fraction.mpr (.inl ⟨w ++ more, ds, rfl, hw more hmore, rfl⟩)⟩
  · refine ⟨[], rfl, fun more hmore => gives_fraction.mpr (.inr ⟨?_, rfl, rfl⟩)⟩
    rintro tail rfl
    rcases hmore with hends | hhead
    · exact (hends _ rfl).2.1 rfl
    · obtain ⟨tail', htail⟩ := List.head?_eq_some_iff.mp hhead.symm
      exact hne tail' htail

theorem leaves_fraction (atEnd : Fault) : Leaves (fraction atEnd) := by
  intro input rest r h
  rcases gives_fraction.mp h with ⟨tail, ds, rfl, hds, rfl⟩ | ⟨_, _, rfl⟩
  · exact Nat.le_succ_of_le ((shortens_someDigits atEnd).leaves hds)
  · exact Nat.le_refl _

/-- The sign and the digits of an exponent, the `e` taken. -/
def signedDigits (atEnd : Fault) : Reader (Option (Bool × List Nat)) := do
  match ← peek with
  | some '+' =>
    skip
    return some (false, ← someDigits atEnd)
  | some '-' =>
    skip
    return some (true, ← someDigits atEnd)
  | _ => return some (false, ← someDigits atEnd)

theorem power_eq (atEnd : Fault) :
    power atEnd = peek >>= fun c =>
      if c = some 'e' ∨ c = some 'E' then skip >>= fun _ => signedDigits atEnd
      else pure none := rfl

/-- Without a sign the digits stand at once. -/
theorem gives_signedDigits {atEnd : Fault} {input rest : Bytes} {r : Option (Bool × List Nat)} :
    Gives (signedDigits atEnd) input r rest ↔
      ∃ down ds, r = some (down, ds) ∧
        ((∃ tail, input = (if down then 0x2D else 0x2B) :: tail ∧
            Gives (someDigits atEnd) tail ds rest) ∨
          down = false ∧ Gives (someDigits atEnd) input ds rest) := by
  rw [signedDigits, gives_bind]
  refine ⟨?_, ?_⟩
  · intro hr
    obtain ⟨c, mid, hc, h⟩ := hr
    obtain ⟨rfl, rfl⟩ := gives_peek.mp hc
    split at h
    · rename_i hsign
      obtain ⟨tail, rfl⟩ := (head_eq_some (b := 0x2B)).mp hsign
      simp only [gives_bind, gives_skip, gives_pure] at h
      obtain ⟨_, tail, rfl, ds, _, hds, rfl, rfl⟩ := h
      exact ⟨false, ds, rfl, .inl ⟨tail, rfl, hds⟩⟩
    · rename_i hsign
      obtain ⟨tail, rfl⟩ := (head_eq_some (b := 0x2D)).mp hsign
      simp only [gives_bind, gives_skip, gives_pure] at h
      obtain ⟨_, tail, rfl, ds, _, hds, rfl, rfl⟩ := h
      exact ⟨true, ds, rfl, .inl ⟨tail, rfl, hds⟩⟩
    · simp only [gives_bind, gives_pure] at h
      obtain ⟨ds, _, hds, rfl, rfl⟩ := h
      exact ⟨false, ds, rfl, .inr ⟨rfl, hds⟩⟩
  · intro hr
    rcases hr with ⟨down, ds, rfl, ⟨tail, rfl, hds⟩ | ⟨rfl, hds⟩⟩
    · refine ⟨_, _, gives_peek.mpr ⟨rfl, rfl⟩, ?_⟩
      cases down with
      | true => exact gives_bind.mpr ⟨(), tail, gives_skip.mpr rfl,
          gives_bind.mpr ⟨ds, rest, hds, gives_pure.mpr ⟨rfl, rfl⟩⟩⟩
      | false => exact gives_bind.mpr ⟨(), tail, gives_skip.mpr rfl,
          gives_bind.mpr ⟨ds, rest, hds, gives_pure.mpr ⟨rfl, rfl⟩⟩⟩
    · refine ⟨_, _, gives_peek.mpr ⟨rfl, rfl⟩, ?_⟩
      -- the digits begin with a digit, so the first octet is not taken for a sign
      obtain ⟨b, tail, rfl, hb⟩ := someDigits_head hds
      split
      · rename_i hsign
        obtain ⟨_, heq⟩ := (head_eq_some (b := 0x2B)).mp hsign
        injection heq with heq _
        subst heq
        cases hb
      · rename_i hsign
        obtain ⟨_, heq⟩ := (head_eq_some (b := 0x2D)).mp hsign
        injection heq with heq _
        subst heq
        cases hb
      · exact gives_bind.mpr ⟨ds, rest, hds, gives_pure.mpr ⟨rfl, rfl⟩⟩

theorem detaches_signedDigits (atEnd : Fault) : Detaches (signedDigits atEnd) := by
  intro input rest r h
  obtain ⟨down, ds, rfl, ⟨tail, rfl, hds⟩ | ⟨rfl, hds⟩⟩ := gives_signedDigits.mp h
  · obtain ⟨w, rfl, hw⟩ := detaches_someDigits atEnd hds
    exact ⟨_ :: w, rfl, fun more hmore =>
      gives_signedDigits.mpr ⟨down, ds, rfl, .inl ⟨w ++ more, rfl, hw more hmore⟩⟩⟩
  · obtain ⟨w, rfl, hw⟩ := detaches_someDigits atEnd hds
    exact ⟨w, rfl, fun more hmore =>
      gives_signedDigits.mpr ⟨false, ds, rfl, .inr ⟨rfl, hw more hmore⟩⟩⟩

theorem leaves_signedDigits (atEnd : Fault) : Leaves (signedDigits atEnd) := by
  intro input rest r h
  obtain ⟨down, ds, rfl, ⟨tail, rfl, hds⟩ | ⟨rfl, hds⟩⟩ := gives_signedDigits.mp h
  · exact Nat.le_succ_of_le ((shortens_someDigits atEnd).leaves hds)
  · exact (shortens_someDigits atEnd).leaves hds

/-- The letter of a power is ahead, in one of its two cases. -/
theorem letter_ahead_iff {input : Bytes} :
    (input.head?.map Char.ofUInt8 = some 'e' ∨ input.head?.map Char.ofUInt8 = some 'E') ↔
      ∃ b tail, input = b :: tail ∧ (b = 0x65 ∨ b = 0x45) := by
  refine ⟨?_, ?_⟩
  · intro h
    rcases h with h | h
    · obtain ⟨tail, rfl⟩ := (head_eq_some (b := 0x65)).mp h
      exact ⟨_, tail, rfl, .inl rfl⟩
    · obtain ⟨tail, rfl⟩ := (head_eq_some (b := 0x45)).mp h
      exact ⟨_, tail, rfl, .inr rfl⟩
  · intro h
    obtain ⟨b, tail, rfl, hb⟩ := h
    rcases hb with rfl | rfl
    · exact .inl rfl
    · exact .inr rfl

theorem gives_power {atEnd : Fault} {input rest : Bytes} {r : Option (Bool × List Nat)} :
    Gives (power atEnd) input r rest ↔
      (∃ b tail, input = b :: tail ∧ (b = 0x65 ∨ b = 0x45) ∧
        Gives (signedDigits atEnd) tail r rest) ∨
      (∀ b ∈ input.head?, b ≠ 0x65 ∧ b ≠ 0x45) ∧ r = none ∧ rest = input := by
  rw [power_eq, gives_bind]
  refine ⟨?_, ?_⟩
  · intro hr
    obtain ⟨c, mid, hc, h⟩ := hr
    obtain ⟨rfl, rfl⟩ := gives_peek.mp hc
    split at h
    · rename_i he
      obtain ⟨_, _, rfl, h⟩ := by simpa only [gives_bind, gives_skip] using h
      obtain ⟨b, tail, rfl, hb⟩ := letter_ahead_iff.mp he
      exact .inl ⟨b, tail, rfl, hb, h⟩
    · rename_i he
      obtain ⟨rfl, rfl⟩ := gives_pure.mp h
      -- no letter is ahead, so nothing was taken
      refine .inr ⟨fun b hb => not_or.mp fun hletter => he ?_, rfl, rfl⟩
      obtain ⟨tail, htail⟩ := List.head?_eq_some_iff.mp hb
      exact letter_ahead_iff.mpr ⟨b, tail, htail, hletter⟩
  · intro hr
    rcases hr with ⟨b, tail, rfl, hb, h⟩ | ⟨hne, rfl, rfl⟩
    · refine ⟨_, _, gives_peek.mpr ⟨rfl, rfl⟩, ?_⟩
      rw [if_pos (letter_ahead_iff.mpr ⟨b, tail, rfl, hb⟩), gives_bind]
      exact ⟨(), tail, gives_skip.mpr rfl, h⟩
    · refine ⟨_, _, gives_peek.mpr ⟨rfl, rfl⟩, ?_⟩
      rw [if_neg]
      · exact gives_pure.mpr ⟨rfl, rfl⟩
      · intro he
        obtain ⟨b, tail, rfl, hb⟩ := letter_ahead_iff.mp he
        exact not_or.mpr (hne b rfl) hb

theorem detaches_power (atEnd : Fault) : Detaches (power atEnd) := by
  intro input rest r h
  rcases gives_power.mp h with ⟨b, tail, rfl, hb, hds⟩ | ⟨hne, rfl, rfl⟩
  · obtain ⟨w, rfl, hw⟩ := detaches_signedDigits atEnd hds
    exact ⟨b :: w, rfl, fun more hmore =>
      gives_power.mpr (.inl ⟨b, w ++ more, rfl, hb, hw more hmore⟩)⟩
  · refine ⟨[], rfl, fun more hmore => gives_power.mpr (.inr ⟨?_, rfl, rfl⟩)⟩
    rcases hmore with hends | hhead
    · exact fun b hb => (hends b hb).2.2
    · rwa [List.nil_append, hhead]

theorem leaves_power (atEnd : Fault) : Leaves (power atEnd) := by
  intro input rest r h
  rcases gives_power.mp h with ⟨b, tail, rfl, _, hds⟩ | ⟨_, _, rfl⟩
  · exact Nat.le_succ_of_le (leaves_signedDigits atEnd hds)
  · exact Nat.le_refl _

/-! ## Numerals -/

/-- The digits, the fraction and the exponent of a numeral, its sign taken. -/
def unsigned (atEnd : Fault) (negative : Bool) : Reader Numeral := do
  let whole ← wholeDigits atEnd
  let fraction ← fraction atEnd
  let power ← power atEnd
  return ⟨negative, whole, fraction, power⟩

theorem detaches_unsigned (atEnd : Fault) (negative : Bool) : Detaches (unsigned atEnd negative) :=
  (detaches_wholeDigits atEnd).bind fun _ => (detaches_fraction atEnd).bind fun _ =>
    (detaches_power atEnd).bind fun _ => detaches_pure

theorem shortens_unsigned (atEnd : Fault) (negative : Bool) :
    Shortens (unsigned atEnd negative) := by
  have hwhole : Shortens (wholeDigits atEnd) := fun _ _ _ h =>
    shortens_someDigits atEnd (gives_wholeDigits.mp h).1
  exact hwhole.bind fun _ => (leaves_fraction atEnd).bind fun _ =>
    (leaves_power atEnd).bind fun _ => leaves_pure

/-- Without its sign a numeral begins with a digit. -/
theorem unsigned_head {atEnd : Fault} {negative : Bool} {input rest : Bytes} {n : Numeral}
    (h : Gives (unsigned atEnd negative) input n rest) :
    ∃ b tail, input = b :: tail ∧ isDigit b = true := by
  obtain ⟨ds, mid, hds, _⟩ := gives_bind.mp h
  exact someDigits_head (gives_wholeDigits.mp hds).1

theorem numeral_eq (atEnd : Fault) :
    numeral atEnd = peek >>= fun c =>
      if c = some '-' then skip >>= fun _ => unsigned atEnd true else unsigned atEnd false := by
  unfold numeral
  congr 1
  funext c
  by_cases hc : c = some '-'
  · rw [if_pos hc]
    simp only [hc]
    rfl
  · rw [if_neg hc]
    simp only [hc]
    rfl

theorem gives_numeral {atEnd : Fault} {input rest : Bytes} {n : Numeral} :
    Gives (numeral atEnd) input n rest ↔
      (∃ tail, input = 0x2D :: tail ∧ Gives (unsigned atEnd true) tail n rest) ∨
      Gives (unsigned atEnd false) input n rest := by
  rw [numeral_eq, gives_bind]
  refine ⟨?_, ?_⟩
  · intro hr
    obtain ⟨c, mid, hc, h⟩ := hr
    obtain ⟨rfl, rfl⟩ := gives_peek.mp hc
    split at h
    · rename_i hminus
      obtain ⟨_, rfl⟩ := (head_eq_some (b := 0x2D)).mp hminus
      simp only [gives_bind, gives_skip] at h
      obtain ⟨_, tail, rfl, h⟩ := h
      exact .inl ⟨_, rfl, h⟩
    · exact .inr h
  · intro hr
    rcases hr with ⟨tail, rfl, h⟩ | h
    · refine ⟨some '-', _, gives_peek.mpr ⟨rfl, rfl⟩, ?_⟩
      rw [if_pos rfl, gives_bind]
      exact ⟨(), tail, gives_skip.mpr rfl, h⟩
    · refine ⟨_, _, gives_peek.mpr ⟨rfl, rfl⟩, ?_⟩
      obtain ⟨b, tail, rfl, hb⟩ := unsigned_head h
      rw [if_neg]
      · exact h
      · intro hminus
        obtain ⟨_, heq⟩ := (head_eq_some (b := 0x2D)).mp hminus
        injection heq with heq _
        subst heq
        cases hb

theorem detaches_numeral (atEnd : Fault) : Detaches (numeral atEnd) := by
  intro input rest n h
  rcases gives_numeral.mp h with ⟨tail, rfl, h⟩ | h
  · obtain ⟨w, rfl, hw⟩ := detaches_unsigned atEnd true h
    exact ⟨0x2D :: w, rfl, fun more hmore =>
      gives_numeral.mpr (.inl ⟨w ++ more, rfl, hw more hmore⟩)⟩
  · obtain ⟨w, rfl, hw⟩ := detaches_unsigned atEnd false h
    exact ⟨w, rfl, fun more hmore => gives_numeral.mpr (.inr (hw more hmore))⟩

theorem extends_numeral (atEnd : Fault) : Extends (numeral atEnd) :=
  (detaches_numeral atEnd).extends

theorem shortens_numeral (atEnd : Fault) : Shortens (numeral atEnd) := by
  intro input rest n h
  rcases gives_numeral.mp h with ⟨tail, rfl, h⟩ | h
  · exact Nat.lt_succ_of_lt (shortens_unsigned atEnd true h)
  · exact shortens_unsigned atEnd false h

theorem gives_number {input rest : Bytes} {x : Number} :
    Gives number input x rest ↔
      ∃ n, Gives (numeral .endOfValue) input n rest ∧ n.number = .ok x := by
  have hnumber : number = numeral .endOfValue >>= fun n => (liftM n.number : Reader Number) := rfl
  rw [hnumber, gives_bind]
  refine ⟨?_, ?_⟩
  · intro hr
    obtain ⟨n, mid, hn, h⟩ := hr
    obtain ⟨hx, rfl⟩ := gives_liftM.mp h
    exact ⟨n, hn, hx⟩
  · intro hr
    obtain ⟨n, hn, hx⟩ := hr
    exact ⟨n, rest, hn, gives_liftM.mpr ⟨hx, rfl⟩⟩

theorem extends_number : Extends number := by
  intro input rest more x h hmore
  obtain ⟨n, hn, hx⟩ := gives_number.mp h
  exact gives_number.mpr ⟨n, extends_numeral _ hn hmore, hx⟩

theorem shortens_number : Shortens number := by
  intro input rest x h
  obtain ⟨n, hn, _⟩ := gives_number.mp h
  exact shortens_numeral _ hn

/-- Where a numeral is taken its sign or a digit is ahead. -/
theorem numeral_head {atEnd : Fault} {input rest : Bytes} {n : Numeral}
    (h : Gives (numeral atEnd) input n rest) :
    ∃ b tail, input = b :: tail ∧ (b = 0x2D ∨ isDigit b = true) := by
  rcases gives_numeral.mp h with ⟨tail, rfl, _⟩ | hn
  · exact ⟨0x2D, tail, rfl, .inl rfl⟩
  · obtain ⟨b, tail, rfl, hb⟩ := unsigned_head hn
    exact ⟨b, tail, rfl, .inr hb⟩

theorem number_head {input rest : Bytes} {x : Number} (h : Gives number input x rest) :
    ∃ b tail, input = b :: tail ∧ (b = 0x2D ∨ isDigit b = true) := by
  obtain ⟨n, hn, _⟩ := gives_number.mp h
  exact numeral_head hn

/-- An octet that begins a number is no blank, and its character begins one. -/
theorem startsNumber_of_head {b : UInt8} (h : b = 0x2D ∨ isDigit b = true) :
    isBlank b = false ∧ startsNumber (Char.ofUInt8 b) = true := by
  rcases h with rfl | h
  · decide
  · have hb := isDigit_iff.mp h
    refine ⟨?_, ?_⟩
    · simp only [isBlank, Bool.or_eq_false_iff, beq_eq_false_iff_ne, ne_eq, ← UInt8.toNat_inj]
      refine ⟨⟨⟨?_, ?_⟩, ?_⟩, ?_⟩
      · show ¬ b.toNat = 0x20
        omega
      · show ¬ b.toNat = 0x0A
        omega
      · show ¬ b.toNat = 0x09
        omega
      · show ¬ b.toNat = 0x0D
        omega
    · have hdigit : (Char.ofUInt8 b).isDigit = true := Char.isDigit_iff_toNat.mpr hb
      rw [startsNumber, hdigit, Bool.or_true]

/-! ## Whole numbers -/

/-- Whether characters are digits and nothing else. -/
def AllDigits (cs : List Char) : Prop :=
  ∀ c ∈ cs, c.isDigit = true

theorem allDigits_toDigits (n : Nat) : AllDigits (Nat.toDigits 10 n) :=
  fun _ hc => Nat.isDigit_of_mem_toDigits (by decide) (by decide) hc

section Digits

variable {cs : List Char}

theorem toNat_octet_of_isDigit {c : Char} (hc : c.isDigit = true) :
    (UInt8.ofNat c.toNat).toNat = c.toNat ∧ 0x30 ≤ c.toNat ∧ c.toNat ≤ 0x39 := by
  have hb : 0x30 ≤ c.toNat ∧ c.toNat ≤ 0x39 := Char.isDigit_iff_toNat.mp hc
  refine ⟨?_, hb⟩
  rw [UInt8.toNat_ofNat']
  omega

theorem digit?_octet {c : Char} (hc : c.isDigit = true) :
    digit? (UInt8.ofNat c.toNat) = some (c.toNat - 0x30) := by
  obtain ⟨hnat, hlow, hhigh⟩ := toNat_octet_of_isDigit hc
  rw [digit?, if_pos, hnat]
  rw [UInt8.le_iff_toNat_le, UInt8.le_iff_toNat_le, hnat]
  exact ⟨hlow, hhigh⟩

theorem encode_digits (hcs : AllDigits cs) :
    Text.Utf8.encode cs = cs.map fun c => UInt8.ofNat c.toNat := by
  induction cs with
  | nil => rfl
  | cons c cs ih =>
      have hc := (toNat_octet_of_isDigit (hcs c List.mem_cons_self)).2
      have hrest := ih fun c' hc' => hcs c' (List.mem_cons_of_mem _ hc')
      rw [Text.Utf8.encode] at hrest ⊢
      rw [List.flatMap_cons, Text.Utf8.encodeChar_of_lt (by omega), hrest]
      rfl

theorem filterMap_digits (hcs : AllDigits cs) :
    (Text.Utf8.encode cs).filterMap digit? = cs.map fun c => c.toNat - 0x30 := by
  rw [encode_digits hcs]
  induction cs with
  | nil => rfl
  | cons c cs ih =>
      have hrest := ih fun c' hc' => hcs c' (List.mem_cons_of_mem _ hc')
      rw [List.map_cons, List.filterMap_cons, digit?_octet (hcs c List.mem_cons_self), hrest]
      rfl

/-- The digits that characters stand for. -/
def digitsIn (cs : List Char) : List Nat :=
  cs.map fun c => c.toNat - 0x30

/-- Written digits are taken one and all. -/
theorem gives_digits_encode (hcs : AllDigits cs) {rest : Bytes} (hrest : Stops rest) :
    Gives digits (Text.Utf8.encode cs ++ rest) (digitsIn cs) rest := by
  have hall : ∀ b ∈ Text.Utf8.encode cs, isDigit b = true := by
    rw [encode_digits hcs]
    intro b hb
    obtain ⟨c, hc, rfl⟩ := List.mem_map.mp hb
    rw [isDigit, digit?_octet (hcs c hc)]
    rfl
  have htake := @List.takeWhile_append_of_pos _ isDigit _ rest hall
  have hdrop := @List.dropWhile_append_of_pos _ isDigit _ rest hall
  rw [hrest.takeWhile, List.append_nil] at htake
  rw [hrest.dropWhile] at hdrop
  refine gives_digits.mpr ⟨?_, hdrop.symm⟩
  rw [htake, filterMap_digits hcs]
  rfl

theorem gives_someDigits_encode (atEnd : Fault) (hcs : AllDigits cs) (hne : cs ≠ []) {rest : Bytes}
    (hrest : Stops rest) :
    Gives (someDigits atEnd) (Text.Utf8.encode cs ++ rest) (digitsIn cs) rest := by
  refine gives_someDigits.mpr ⟨gives_digits_encode hcs hrest, ?_⟩
  rw [digitsIn, ne_eq, List.map_eq_nil_iff]
  exact hne

/-- Before the point a zero stands alone. -/
theorem gives_wholeDigits_encode (atEnd : Fault) (hcs : AllDigits cs) (hne : cs ≠ [])
    (hzero : cs.head? = some '0' → cs.length = 1) {rest : Bytes} (hrest : Stops rest) :
    Gives (wholeDigits atEnd) (Text.Utf8.encode cs ++ rest) (digitsIn cs) rest := by
  refine gives_wholeDigits.mpr ⟨gives_someDigits_encode atEnd hcs hne hrest, ?_⟩
  intro hr
  obtain ⟨hfirst, hlength⟩ := hr
  rw [digitsIn, List.length_map] at hlength
  refine hlength (hzero ?_)
  cases cs with
  | nil => exact absurd rfl hne
  | cons c cs =>
      rw [digitsIn, List.map_cons, List.head?_cons, Option.some.injEq] at hfirst
      have hrange := (toNat_octet_of_isDigit (hcs c List.mem_cons_self)).2
      have hchar : c = '0' := Char.toNat_inj.mp (by show c.toNat = 0x30; omega)
      rw [hchar, List.head?_cons]

end Digits

/-- The first digit of a number is no zero, unless the number is. -/
theorem head_toDigits {n : Nat} (hn : 0 < n) : (Nat.toDigits 10 n).head? ≠ some '0' := by
  induction n using Nat.strongRecOn with
  | ind n ih =>
      by_cases hsmall : n < 10
      · rw [Nat.toDigits_of_lt_base hsmall, List.head?_cons]
        intro h
        have hzero := Nat.digitChar_eq_zero.mp (Option.some.inj h)
        omega
      · have hdiv : 0 < n / 10 := by omega
        have hfront := ih (n / 10) (by omega) hdiv
        rw [Nat.toDigits_of_base_le (by decide) (by omega)]
        cases hds : Nat.toDigits 10 (n / 10) with
        | nil => exact absurd hds Nat.toDigits_ne_nil
        | cons c cs =>
            rw [hds] at hfront
            exact hfront

/-- The digits of a number, as their values. -/
def digitsOf (n : Nat) : List Nat :=
  digitsIn (Nat.toDigits 10 n)

/-- A zero stands alone in front of the digits of a number. -/
theorem length_of_head_toDigits {n : Nat} (h : (Nat.toDigits 10 n).head? = some '0') :
    (Nat.toDigits 10 n).length = 1 := by
  rcases Nat.eq_zero_or_pos n with rfl | hn
  · rfl
  · exact absurd h (head_toDigits hn)

theorem gives_wholeDigits_toString (atEnd : Fault) (n : Nat) :
    Gives (wholeDigits atEnd) (octets (toString n)) (digitsOf n) [] := by
  have hdigits : Gives (wholeDigits atEnd) (Text.Utf8.encode (Nat.toDigits 10 n) ++ [])
      (digitsOf n) [] :=
    gives_wholeDigits_encode atEnd (allDigits_toDigits n) Nat.toDigits_ne_nil
      length_of_head_toDigits nofun
  rw [List.append_nil] at hdigits
  rw [octets, Nat.toString_eq_ofList_toDigits, String.toList_ofList]
  exact hdigits

/-- Digits are collected to the end as long as their number fits. -/
theorem collect_eq {ds : List Nat} {sum : Nat}
    (h : ds.foldl (fun n d => n * 10 + d) sum ≤ Numeral.greatest) :
    Numeral.collect sum ds = (ds.foldl (fun n d => n * 10 + d) sum, 0) := by
  induction ds generalizing sum with
  | nil => rfl
  | cons d ds ih =>
      rw [List.foldl_cons] at h ⊢
      have hgrow : ∀ (ds : List Nat) (k : Nat), k ≤ ds.foldl (fun n d => n * 10 + d) k := by
        intro ds
        induction ds with
        | nil => exact fun k => Nat.le_refl k
        | cons d ds ih =>
            intro k
            have hk := ih (k * 10 + d)
            rw [List.foldl_cons]
            omega
      have hle := hgrow ds (sum * 10 + d)
      rw [Numeral.collect, if_pos (by omega), ih h]

theorem value_digitsOf (n : Nat) : Numeral.value (digitsOf n) = n := by
  have h := Nat.ofDigitChars_ten_toDigits (n := n)
  rw [Nat.ofDigitChars_eq_foldl] at h
  rw [Numeral.value, digitsOf, digitsIn, List.foldl_map]
  simp only [Nat.mul_comm] at h
  exact h

theorem collect_digitsOf {n : Nat} (hn : n ≤ Numeral.greatest) :
    Numeral.collect 0 (digitsOf n) = (n, 0) := by
  have hvalue : (digitsOf n).foldl (fun n d => n * 10 + d) 0 = n := value_digitsOf n
  have hfits : (digitsOf n).foldl (fun n d => n * 10 + d) 0 ≤ Numeral.greatest := by
    rw [hvalue]
    exact hn
  have hcollect := collect_eq hfits
  rw [hcollect, hvalue]

theorem gives_unsigned_toString (atEnd : Fault) (negative : Bool) (n : Nat) :
    Gives (unsigned atEnd negative) (octets (toString n)) ⟨negative, digitsOf n, none, none⟩ [] :=
  gives_bind.mpr ⟨_, _, gives_wholeDigits_toString atEnd n,
    gives_bind.mpr ⟨none, [], gives_fraction.mpr (.inr ⟨nofun, rfl, rfl⟩),
      gives_bind.mpr ⟨none, [], gives_power.mpr (.inr ⟨nofun, rfl, rfl⟩),
        gives_pure.mpr ⟨rfl, rfl⟩⟩⟩⟩

/-- **A natural number is read back.** -/
theorem gives_number_natural (n : UInt64) {rest : Bytes} (hrest : Ends rest) :
    Gives number ((Number.natural n).write ++ rest) (.natural n) rest := by
  have hle : n.toNat ≤ Numeral.greatest := Nat.le_of_lt_succ n.toNat_lt
  refine extends_number (gives_number.mpr ⟨⟨false, digitsOf n.toNat, none, none⟩,
    gives_numeral.mpr (.inr (gives_unsigned_toString _ _ _)), ?_⟩) hrest
  rw [Numeral.number]
  simp only [collect_digitsOf hle]
  rw [if_pos ⟨rfl, rfl, trivial⟩, if_neg Bool.false_ne_true, UInt64.ofNat_toNat]
  rfl

/-- **A negative number is read back.** -/
theorem gives_number_negative (n : Negative) {rest : Bytes} (hrest : Ends rest) :
    Gives number ((Number.negative n).write ++ rest) (.negative n) rest := by
  have hle : n.magnitude ≤ Numeral.greatest := Nat.le_trans n.magnitude_le (by decide)
  have hwrite : (Number.negative n).write = 0x2D :: octets (toString n.magnitude) := by
    rw [Number.write, octets, String.toList_append]
    rfl
  rw [hwrite]
  refine extends_number (gives_number.mpr ⟨⟨true, digitsOf n.magnitude, none, none⟩,
    gives_numeral.mpr (.inl ⟨_, rfl, gives_unsigned_toString _ _ _⟩), ?_⟩) hrest
  rw [Numeral.number]
  simp only [collect_digitsOf hle]
  rw [if_pos ⟨rfl, rfl, trivial⟩, if_pos trivial, dif_pos ⟨n.magnitude_pos, n.magnitude_le⟩]
  rfl

end CrashCourier.Json.Reader

/-! ## Numbers with a fraction -/

namespace CrashCourier

/-- The text of the number, as it is written in a document, is read as the number. -/
def Binary64.ReadsBack (x : Binary64) : Prop :=
  Json.Reader.Gives Json.Reader.number (octets (Decimal.Layout.json.text x)) (.real x) []

namespace Json

/-- A number is read back: this is asked for only of one with a fraction. -/
def Number.ReadsBack : Number → Prop
  | .real x => x.ReadsBack
  | _ => True

open Reader in
/-- **A number that was written is read back.** -/
theorem gives_number_write {n : Number} (hn : n.ReadsBack) {rest : Bytes} (hrest : Ends rest) :
    Gives number (n.write ++ rest) n rest := by
  cases n with
  | natural n => exact gives_number_natural n hrest
  | negative n => exact gives_number_negative n hrest
  | real x => exact extends_number hn hrest

end Json

end CrashCourier
