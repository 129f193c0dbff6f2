import CrashCourier.Proofs.Json.Reread

/-!
# The grammar of documents

`Spells` says which octets are a document, one constructor for each form: words, strings, numbers,
and arrays and objects with their punctuation. It knows no depth. A reader that takes values as they
are written, nested at most `depth` deep, takes the octets that spell a value that is nested no deeper
(`gives_raw_iff`), and so every reader that goes by the tree can be stated by the grammar.

Strings and numerals are tokens here. A numeral is a number only if it is in range, and it is a whole
number just in case it has neither a fraction nor an exponent and its value has 64 bits
(`Numeral.int?_number`).
-/

namespace CrashCourier.Json

/-! ## Documents -/

/-- A part of a document. -/
inductive Part where
  | value (v : Value)
  /-- What is left of an array, its closing bracket included; `first` says that no item came yet. -/
  | items (first : Bool) (vs : List Value)
  /-- What is left of an object, its closing brace included. -/
  | members (first : Bool) (ms : List (String × Value))

/-- How deep arrays and objects are nested in a part. -/
def Part.depth : Part → Nat
  | .value v => v.depth
  | .items _ vs => depthItems vs
  | .members _ ms => depthMembers ms

open Reader

/-- The octets begin with the part, and `rest` is left of them. Blanks may stand before each token. An
object keeps all its members, those of a repeated key too. -/
inductive Spells : (input : Bytes) → Part → (rest : Bytes) → Prop where
  | null {input rest : Bytes} :
      input.dropWhile isBlank = octets "null" ++ rest → Spells input (.value .null) rest
  | truth {input rest : Bytes} {b : Bool} :
      input.dropWhile isBlank = writeTruth b ++ rest → Spells input (.value (.truth b)) rest
  | text {input tail rest : Bytes} {s : String} :
      input.dropWhile isBlank = 0x22 :: tail → Gives string (0x22 :: tail) s rest →
      Spells input (.value (.text s)) rest
  | number {input rest : Bytes} {numeral : Numeral} {n : Number} :
      Gives (Reader.numeral .endOfValue) (input.dropWhile isBlank) numeral rest →
      numeral.number = .ok n → Spells input (.value (.number n)) rest
  | list {input tail rest : Bytes} {vs : List Value} :
      input.dropWhile isBlank = 0x5B :: tail → Spells tail (.items true vs) rest →
      Spells input (.value (.list vs)) rest
  | object {input tail rest : Bytes} {ms : List (String × Value)} :
      input.dropWhile isBlank = 0x7B :: tail → Spells tail (.members true ms) rest →
      Spells input (.value (.object ms)) rest
  | endOfList {input rest : Bytes} {first : Bool} :
      input.dropWhile isBlank = 0x5D :: rest → Spells input (.items first []) rest
  | item {input mid after rest : Bytes} {first : Bool} {v : Value} {vs : List Value} :
      Separated first input mid → Spells mid (.value v) after → Spells after (.items false vs) rest →
      Spells input (.items first (v :: vs)) rest
  | endOfObject {input rest : Bytes} {first : Bool} :
      input.dropWhile isBlank = 0x7D :: rest → Spells input (.members first []) rest
  | member {input mid tail after more last rest : Bytes} {first : Bool} {key : String} {v : Value}
      {ms : List (String × Value)} :
      Separated first input mid → mid.dropWhile isBlank = 0x22 :: tail →
      Gives string (0x22 :: tail) key after → after.dropWhile isBlank = 0x3A :: more →
      Spells more (.value v) last → Spells last (.members false ms) rest →
      Spells input (.members first ((key, v) :: ms)) rest

/-- The text is one value and nothing else but blanks. -/
def TextOf (input : Bytes) (v : Value) : Prop :=
  ∃ rest, Spells input (.value v) rest ∧ rest.dropWhile isBlank = []

/-! ## What is spelled is read -/

/-- The part is taken by the reader of values that are nested at most `depth` deep. -/
def Part.Taken (depth : Nat) (input rest : Bytes) : Part → Prop
  | .value v => Gives (raw depth) input v rest
  | .items first vs => TakesItems (raw depth) first input vs rest
  | .members first ms => TakesPairs (raw depth) first input ms rest

/-- The octets that an item begins with, and that it is no closing bracket. -/
theorem exists_cons_of_gives_raw {depth : Nat} {input rest : Bytes} {v : Value}
    (h : Gives (raw depth) input v rest) :
    ∃ b tail, input.dropWhile isBlank = b :: tail ∧ b ≠ 0x5D ∧
      Gives (raw depth) (b :: tail) v rest := by
  obtain ⟨b, tail, hinput, _, hb⟩ := (gives_raw.mp h).head
  rw [← gives_raw_dropWhile, hinput] at h
  exact ⟨b, tail, hinput, hb, h⟩

theorem Spells.taken {input rest : Bytes} {part : Part} (h : Spells input part rest) {depth : Nat}
    (hdepth : part.depth ≤ depth) : part.Taken depth input rest := by
  induction h generalizing depth with
  | null hinput => exact gives_raw.mpr (.null hinput)
  | truth hinput => exact gives_raw.mpr (.truth hinput)
  | text hinput hs =>
      refine gives_raw.mpr (.text hinput ?_)
      rw [hinput]
      exact hs
  | number hnumeral hn => exact gives_raw.mpr (.number (gives_number.mpr ⟨_, hnumeral, hn⟩))
  | list hinput _ ih =>
      -- the items are nested one level less deep
      cases depth with
      | zero => exact absurd hdepth (Nat.not_succ_le_zero _)
      | succ depth =>
          have hitems := (gives_items (shortens_raw depth)).mpr (ih (Nat.le_of_succ_le_succ hdepth))
          exact gives_raw.mpr (.list hinput (rawItems_succ.mpr hitems))
  | object hinput _ ih =>
      cases depth with
      | zero => exact absurd hdepth (Nat.not_succ_le_zero _)
      | succ depth =>
          have hmembers :=
            (gives_rawMembers (leaves_raw depth)).mpr (ih (Nat.le_of_succ_le_succ hdepth))
          exact gives_raw.mpr (.object hinput (rawMembers_succ.mpr hmembers))
  | endOfList hinput => exact .close hinput
  | item hsep _ _ ihv ihvs =>
      obtain ⟨hv, hvs⟩ := Nat.max_le.mp hdepth
      obtain ⟨b, tail, hmid, hb, htaken⟩ := exists_cons_of_gives_raw (ihv hv)
      exact .next hsep hmid hb htaken (ihvs hvs)
  | endOfObject hinput => exact .close hinput
  | member hsep hmid hkey hcolon _ _ ihv ihms =>
      obtain ⟨hv, hms⟩ := Nat.max_le.mp hdepth
      exact .next hsep hmid hkey hcolon (ihv hv) (ihms hms)

/-! ## What is read is spelled -/

section Read

variable {depth : Nat} {input rest : Bytes} {first : Bool}

theorem spells_items
    (hitem : ∀ {input v rest}, Gives (raw depth) input v rest → Spells input (.value v) rest)
    {vs : List Value} (h : TakesItems (raw depth) first input vs rest) :
    Spells input (.items first vs) rest := by
  induction h with
  | close hclose => exact .endOfList hclose
  | next hsep hmid _ hv _ ih =>
      -- the reader of the items has already looked past the blanks
      rw [← hmid, gives_raw_dropWhile] at hv
      exact .item hsep (hitem hv) ih

theorem spells_members
    (hvalue : ∀ {input v rest}, Gives (raw depth) input v rest → Spells input (.value v) rest)
    {ms : List (String × Value)} (h : TakesPairs (raw depth) first input ms rest) :
    Spells input (.members first ms) rest := by
  induction h with
  | close hclose => exact .endOfObject hclose
  | next hsep hmid hkey hcolon hv _ ih => exact .member hsep hmid hkey hcolon (hvalue hv) ih

/-- A value is spelled as it is taken, if what stands between brackets and braces is. -/
theorem spells_of_takesValue {list : Bytes → List Value → Bytes → Prop}
    {object : Bytes → List (String × Value) → Bytes → Prop}
    (hlist : ∀ {tail vs rest}, list tail vs rest → Spells tail (.items true vs) rest)
    (hobject : ∀ {tail ms rest}, object tail ms rest → Spells tail (.members true ms) rest)
    {v : Value} (h : TakesValue list object (input.dropWhile isBlank) v rest) :
    Spells input (.value v) rest := by
  cases h with
  | null hinput => exact .null hinput
  | truth hinput => exact .truth hinput
  | text hinput hs =>
      rw [hinput] at hs
      exact .text hinput hs
  | number hn =>
      obtain ⟨numeral, hnumeral, hn⟩ := gives_number.mp hn
      exact .number hnumeral hn
  | list hinput hvs => exact .list hinput (hlist hvs)
  | object hinput hms => exact .object hinput (hobject hms)

theorem spells_of_gives_raw {v : Value} (h : Gives (raw depth) input v rest) :
    Spells input (.value v) rest := by
  induction depth generalizing input rest v with
  | zero =>
      exact spells_of_takesValue (fun h => absurd h not_within_zero)
        (fun h => absurd h not_within_zero) (gives_raw.mp h)
  | succ depth ih =>
      refine spells_of_takesValue ?_ ?_ (gives_raw.mp h)
      · intro tail vs rest hvs
        exact spells_items ih ((gives_items (shortens_raw depth)).mp (rawItems_succ.mp hvs))
      · intro tail ms rest hms
        exact spells_members ih ((gives_rawMembers (leaves_raw depth)).mp (rawMembers_succ.mp hms))

/-- **What is read as it is written, nested at most `depth` deep, is what is spelled so.** -/
theorem gives_raw_iff {v : Value} :
    Gives (raw depth) input v rest ↔ Spells input (.value v) rest ∧ v.depth ≤ depth := by
  refine ⟨fun h => ⟨spells_of_gives_raw h, depth_le_of_gives_raw h⟩, fun ⟨h, hdepth⟩ => ?_⟩
  exact h.taken hdepth

end Read

/-- A text is that of one tree. -/
theorem TextOf.eq {input : Bytes} {v w : Value} (h : TextOf input v) (h' : TextOf input w) :
    v = w := by
  obtain ⟨rest, hv, _⟩ := h
  obtain ⟨rest', hw, _⟩ := h'
  have hv' := gives_raw_iff.mpr ⟨hv, Nat.le_max_left v.depth w.depth⟩
  have hw' := gives_raw_iff.mpr ⟨hw, Nat.le_max_right v.depth w.depth⟩
  exact (hw'.eq hv').1

/-- A reader that goes by the tree reads the texts of the trees that it takes, if they are not nested
too deep. -/
theorem run_eq_ok_iff {α : Type} {r : Reader α} {of? : Value → Option α} {depth : Nat}
    (h : ReadsAs r (raw depth) of?) {input : Bytes} {a : α} :
    Reader.run r input = .ok a ↔ ∃ v, TextOf input v ∧ v.depth ≤ depth ∧ of? v = some a := by
  rw [run_eq_ok]
  constructor
  · rintro ⟨rest, hr, hrest⟩
    obtain ⟨v, hv, hof⟩ := h.mp hr
    obtain ⟨hspells, hdepth⟩ := gives_raw_iff.mp hv
    exact ⟨v, ⟨rest, hspells, hrest⟩, hdepth, hof⟩
  · rintro ⟨v, ⟨rest, hspells, hrest⟩, hdepth, hof⟩
    exact ⟨rest, h.mpr ⟨v, gives_raw_iff.mpr ⟨hspells, hdepth⟩, hof⟩, hrest⟩

/-- **Which texts are read as a value, and as which.** -/
theorem Value.ofBytes_eq_ok_iff {input : Bytes} {w : Value} :
    Value.ofBytes input = .ok w ↔
      ∃ v, TextOf input v ∧ v.depth ≤ greatestDepth ∧ v.settled = w := by
  refine (run_eq_ok_iff (readsAs_value greatestDepth)).trans ?_
  simp only [Option.some.injEq]

theorem Record.ofBytes_eq_ok_iff {α : Type} [Record α] {input : Bytes} {a : α} :
    Record.ofBytes input = .ok a ↔ ∃ v, TextOf input v ∧ v.depth ≤ greatestDepth ∧
      (shape α).ofValue? v = some (held a) := by
  have hreads : ReadsAs (reader : Reader α) (raw greatestDepth)
      fun v => ((shape α).ofValue? v).map ofHeld := by
    intro input rest a
    have hshape := @readsAs_shape (shape α) greatestDepth input rest
    constructor
    · intro h
      obtain ⟨held', hread, rfl⟩ := gives_map.mp h
      obtain ⟨v, hv, hof⟩ := hshape.mp hread
      exact ⟨v, hv, congrArg (Option.map ofHeld) hof⟩
    · rintro ⟨v, hv, hof⟩
      obtain ⟨held', hheld, rfl⟩ := Option.map_eq_some_iff.mp hof
      exact gives_map.mpr ⟨held', hshape.mpr ⟨v, hv, hheld⟩, rfl⟩
  refine (run_eq_ok_iff hreads).trans (exists_congr fun v => and_congr_right' (and_congr_right' ?_))
  rw [Option.map_eq_some_iff]
  constructor
  · rintro ⟨held', hof, rfl⟩
    rw [held_ofHeld]
    exact hof
  · exact fun hof => ⟨_, hof, ofHeld_held a⟩

/-! ## Whole numbers -/

/-- The whole number that a number is, if it was written as one. -/
def Number.int? : Number → Option Int
  | .natural n => some n.toNat
  | .negative n => some (-(n.magnitude : Int))
  | .real _ => none

namespace Numeral

/-- The number before the point, with its sign. -/
def int (n : Numeral) : Int :=
  if n.negative then -(value n.whole : Int) else value n.whole

/-- Digits that are collected to the end make a number of 64 bits. -/
theorem foldl_le_of_collect {ds : List Nat} {sum : Nat} (hsum : sum ≤ greatest)
    (h : (collect sum ds).2 = 0) : ds.foldl (fun n d => n * 10 + d) sum ≤ greatest := by
  induction ds generalizing sum with
  | nil => exact hsum
  | cons d ds ih =>
      rw [collect] at h
      by_cases hfits : sum * 10 + d ≤ greatest
      · rw [if_pos hfits] at h
        exact ih hfits h
      · rw [if_neg hfits] at h
        exact absurd h (Nat.succ_ne_zero _)

/-- What is scaled is no whole number. -/
theorem int?_of_bind {x : Except Fault Binary64} {sign : Binary64 → Binary64} {k : Number}
    (h : (do return Number.real (sign (← x)) : Except Fault Number) = .ok k) : k.int? = none := by
  cases x with
  | error fault => cases h
  | ok x =>
      cases h
      rfl

/-- A numeral that is no whole number of 64 bits becomes a binary64 number. -/
theorem int?_number_of_not {n : Numeral} {k : Number}
    (h : ¬ (n.fraction = none ∧ n.power = none ∧ value n.whole ≤ greatest))
    (hk : n.number = .ok k) : k.int? = none := by
  have hleft : ¬ (n.fraction.isNone ∧ n.power.isNone ∧ (collect 0 n.whole).2 = 0) := by
    rintro ⟨hfraction, hpower, hleft⟩
    exact h ⟨Option.isNone_iff_eq_none.mp hfraction, Option.isNone_iff_eq_none.mp hpower,
      foldl_le_of_collect (Nat.zero_le _) hleft⟩
  unfold number at hk
  dsimp only at hk
  rw [if_neg hleft] at hk
  split at hk
  · exact int?_of_bind hk
  · split at hk
    · split at hk
      · cases hk
        rfl
      · cases hk
    · exact int?_of_bind hk

/-- Without fraction and exponent, digits that fit are a whole number, unless they say `-0` or are
less than -2⁶³. -/
theorem int?_number_of_fits {n : Numeral} (hfraction : n.fraction = none) (hpower : n.power = none)
    (hfits : value n.whole ≤ greatest) :
    (n.negative = false → n.number = .ok (.natural (UInt64.ofNat (value n.whole)))) ∧
    (n.negative = true → (h : 0 < value n.whole ∧ value n.whole ≤ Negative.greatest) →
      n.number = .ok (.negative ⟨value n.whole, h.1, h.2⟩)) ∧
    (n.negative = true → ¬ (0 < value n.whole ∧ value n.whole ≤ Negative.greatest) →
      ∀ k, n.number = .ok k → k.int? = none) := by
  have hcollect : collect 0 n.whole = (value n.whole, 0) := collect_eq hfits
  unfold number
  rw [hcollect, hfraction, hpower]
  dsimp only
  rw [if_pos ⟨rfl, rfl, rfl⟩]
  refine ⟨fun hsign => ?_, fun hsign h => ?_, fun hsign h k hk => ?_⟩
  · rw [hsign]
    rfl
  · rw [if_pos hsign, dif_pos h]
    rfl
  · rw [if_pos hsign, dif_neg h] at hk
    exact int?_of_bind hk

/-- **Which numerals are whole numbers, and which whole number each of them is.** It has neither a
fraction nor an exponent, and it is not `-0`. -/
theorem int?_number {n : Numeral} {z : Int} :
    (∃ k, n.number = .ok k ∧ k.int? = some z) ↔
      n.fraction = none ∧ n.power = none ∧ n.int = z ∧ ¬ (n.negative = true ∧ z = 0) ∧
        -(2 ^ 63) ≤ z ∧ z < 2 ^ 64 := by
  by_cases hwhole : n.fraction = none ∧ n.power = none ∧ value n.whole ≤ greatest
  · obtain ⟨hfraction, hpower, hfits⟩ := hwhole
    obtain ⟨hnatural, hnegative, hreal⟩ := int?_number_of_fits hfraction hpower hfits
    unfold greatest at hfits
    unfold int
    cases hsign : n.negative with
    | false =>
        have hint : (Number.natural (UInt64.ofNat (value n.whole))).int? = some (value n.whole : Int) := by
          rw [Number.int?, UInt64.toNat_ofNat_of_lt' (Nat.lt_succ_of_le hfits)]
        rw [if_neg Bool.false_ne_true]
        constructor
        · rintro ⟨k, hk, hz⟩
          obtain rfl := Except.ok.inj ((hnatural hsign).symm.trans hk)
          obtain rfl := Option.some.inj (hint.symm.trans hz)
          exact ⟨hfraction, hpower, rfl, fun h => Bool.false_ne_true h.1, by omega, by omega⟩
        · rintro ⟨_, _, rfl, _⟩
          exact ⟨_, hnatural hsign, hint⟩
    | true =>
        rw [if_pos rfl]
        by_cases hrange : 0 < value n.whole ∧ value n.whole ≤ Negative.greatest
        · have hle : value n.whole ≤ 0x8000000000000000 := hrange.2
          constructor
          · rintro ⟨k, hk, hz⟩
            obtain rfl := Except.ok.inj ((hnegative hsign hrange).symm.trans hk)
            obtain rfl : -(value n.whole : Int) = z := Option.some.inj hz
            have hpos := hrange.1
            exact ⟨hfraction, hpower, rfl, by omega, by omega, by omega⟩
          · rintro ⟨_, _, rfl, _⟩
            exact ⟨_, hnegative hsign hrange, rfl⟩
        · constructor
          · rintro ⟨k, hk, hz⟩
            cases (hreal hsign hrange k hk).symm.trans hz
          · rintro ⟨_, _, rfl, hzero, hlow, _⟩
            refine absurd ⟨Nat.pos_of_ne_zero fun h => hzero ⟨rfl, by omega⟩, ?_⟩ hrange
            unfold Negative.greatest
            omega
  · constructor
    · rintro ⟨k, hk, hz⟩
      cases (int?_number_of_not hwhole hk).symm.trans hz
    · rintro ⟨hfraction, hpower, rfl, _, hlow, hhigh⟩
      refine absurd ⟨hfraction, hpower, ?_⟩ hwhole
      have hint : n.int = value n.whole ∨ n.int = -(value n.whole : Int) := by
        unfold int
        split
        · exact .inr rfl
        · exact .inl rfl
      unfold greatest
      omega

end Numeral

end CrashCourier.Json
