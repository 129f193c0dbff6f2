import CrashCourier.Proofs.Text.Utf8

/-!
# Octets that are no UTF-8

Any octets are read as a text. `Repaired` says as which, by the encoding of characters alone: a
character stands for itself, and one replacement stands for the longest run that begins a character
and does not finish it, or for one octet that begins none.

The machine is in three states after some octets. It has read a character, or the octets begin one,
or no character begins so (`after_eq_done`, `exists_after_eq_more`). That the first is the encoding
of the character is a matter of its bits; that the second can go on holds because the range of the
next octet is never empty.
-/

namespace CrashCourier.Text.Utf8

/-- The octets begin a character and do not finish it. -/
def Begins (bs : Bytes) : Prop :=
  ∃ c more, more ≠ [] ∧ encodeChar c = bs ++ more

/-- One replacement stands for `bad`, with `rest` behind it. -/
structure Broken (bad rest : Bytes) : Prop where
  nonempty : bad ≠ []
  /-- No character stands here. -/
  none_here : ∀ c, ¬ encodeChar c <+: bad ++ rest
  begins : Begins bad ∨ bad.length = 1
  /-- No longer run begins a character. -/
  longest : ∀ run, run <+: bad ++ rest → Begins run → run.length ≤ bad.length

/-- The text that stands for the octets. -/
inductive Repaired : Bytes → List Char → Prop where
  | nil : Repaired [] []
  | char {c : Char} {rest : Bytes} {cs : List Char} :
      Repaired rest cs → Repaired (encodeChar c ++ rest) (c :: cs)
  | broken {bad rest : Bytes} {cs : List Char} :
      Broken bad rest → Repaired rest cs → Repaired (bad ++ rest) (replacement :: cs)

/-! ## One octet -/

/-- What one more octet leads to. -/
def Progress.then : Progress → UInt8 → Progress
  | .more p, b => p.next b
  | _, _ => .broken

/-- What the octets lead to, the first of them `b`. -/
def after (b : UInt8) (bs : Bytes) : Progress :=
  bs.foldl Progress.then (first b)

theorem after_append (b : UInt8) (bs more : Bytes) :
    after b (bs ++ more) = more.foldl Progress.then (after b bs) :=
  List.foldl_append

@[simp] theorem foldl_broken (bs : Bytes) : bs.foldl Progress.then .broken = .broken := by
  induction bs with
  | nil => rfl
  | cons b bs ih => exact ih

/-- Nothing comes of octets behind a character. -/
theorem foldl_done (c : Char) (bs : Bytes) :
    bs.foldl Progress.then (.done c) = if bs = [] then .done c else .broken := by
  cases bs with
  | nil => rfl
  | cons b bs => exact foldl_broken bs

theorem eq_of_foldl_done {c c' : Char} {bs : Bytes}
    (h : bs.foldl Progress.then (.done c) = .done c') : bs = [] ∧ c' = c := by
  rw [foldl_done] at h
  split at h
  · next hbs => exact ⟨hbs, (Progress.done.inj h).symm⟩
  · cases h

theorem Pending.next_cases (p : Pending) (b : UInt8) :
    ((p.low ≤ b ∧ b ≤ p.high) ∧ p.owed = 0 ∧
      p.next b = .done (Char.ofNat (p.bits * 64 + b.toNat % 64))) ∨
    (∃ n, (p.low ≤ b ∧ b ≤ p.high) ∧ p.owed = n + 1 ∧
      p.next b = .more ⟨n, 0x80, 0xBF, p.bits * 64 + b.toNat % 64⟩) ∨
    p.next b = .broken := by
  unfold next
  by_cases hb : p.low ≤ b ∧ b ≤ p.high
  · simp only [if_pos hb]
    cases howed : p.owed with
    | zero => exact .inl ⟨hb, rfl, rfl⟩
    | succ n => exact .inr (.inl ⟨n, hb, rfl, rfl⟩)
  · exact .inr (.inr (if_neg hb))

/-- What a first octet leads to: the character of one octet, or one of two, three or four. -/
theorem first_cases (b : UInt8) :
    (b.toNat < 0x80 ∧ first b = .done (Char.ofNat b.toNat)) ∨
    (0xC2 ≤ b.toNat ∧ b.toNat < 0xE0 ∧ first b = .more ⟨0, 0x80, 0xBF, b.toNat - 0xC0⟩) ∨
    (0xE0 ≤ b.toNat ∧ b.toNat < 0xF0 ∧ first b = .more ⟨1, if b.toNat = 0xE0 then 0xA0 else 0x80,
      if b.toNat = 0xED then 0x9F else 0xBF, b.toNat - 0xE0⟩) ∨
    (0xF0 ≤ b.toNat ∧ b.toNat < 0xF5 ∧ first b = .more ⟨2, if b.toNat = 0xF0 then 0x90 else 0x80,
      if b.toNat = 0xF4 then 0x8F else 0xBF, b.toNat - 0xF0⟩) ∨
    first b = .broken := by
  unfold first
  dsimp only
  by_cases h1 : b.toNat < 0x80
  · exact .inl ⟨h1, if_pos h1⟩
  rw [if_neg h1]
  by_cases h2 : b.toNat < 0xC2
  · exact .inr (.inr (.inr (.inr (if_pos h2))))
  rw [if_neg h2]
  by_cases h3 : b.toNat < 0xE0
  · exact .inr (.inl ⟨by omega, h3, if_pos h3⟩)
  rw [if_neg h3]
  by_cases h4 : b.toNat < 0xF0
  · exact .inr (.inr (.inl ⟨by omega, h4, if_pos h4⟩))
  rw [if_neg h4]
  by_cases h5 : b.toNat < 0xF5
  · exact .inr (.inr (.inr (.inl ⟨by omega, h5, if_pos h5⟩)))
  · exact .inr (.inr (.inr (.inr (if_neg h5))))

/-! ## Characters -/

/-- A character that is under way ends with as many octets as it owes. -/
theorem exists_of_foldl_more {p : Pending} {bs : Bytes} {c : Char}
    (h : bs.foldl Progress.then (.more p) = .done c) :
    ∃ x rest, bs = x :: rest ∧ p.low ≤ x ∧ x ≤ p.high ∧
      (p.owed = 0 → rest = [] ∧ c = Char.ofNat (p.bits * 64 + x.toNat % 64)) ∧
      (∀ n, p.owed = n + 1 → rest.foldl Progress.then
        (.more ⟨n, 0x80, 0xBF, p.bits * 64 + x.toNat % 64⟩) = .done c) := by
  cases bs with
  | nil => cases h
  | cons x rest =>
      replace h : rest.foldl Progress.then (p.next x) = .done c := h
      obtain ⟨⟨hlow, hhigh⟩, howed, hnext⟩ | ⟨n, ⟨hlow, hhigh⟩, howed, hnext⟩ | hnext := p.next_cases x
      · refine ⟨x, rest, rfl, hlow, hhigh, fun _ => ?_, fun n hn => ?_⟩
        · rw [hnext] at h
          exact eq_of_foldl_done h
        · omega
      · refine ⟨x, rest, rfl, hlow, hhigh, fun hzero => ?_, fun m hm => ?_⟩
        · omega
        · obtain rfl : n = m := by omega
          rw [hnext] at h
          exact h
      · rw [hnext, foldl_broken] at h
        cases h

/-- The octets of the character of a number. -/
theorem encodeChar_ofNat {v : Nat} (h : v < 0xD800 ∨ 0xDFFF < v ∧ v < 0x110000) :
    encodeChar (Char.ofNat v) =
      if v ≤ 0x7F then [UInt8.ofNat v]
      else if v ≤ 0x7FF then [UInt8.ofNat (v / 64 % 32 + 0xC0), UInt8.ofNat (v % 64 + 0x80)]
      else if v ≤ 0xFFFF then
        [UInt8.ofNat (v / 4096 % 16 + 0xE0), UInt8.ofNat (v / 64 % 64 + 0x80),
          UInt8.ofNat (v % 64 + 0x80)]
      else
        [UInt8.ofNat (v / 262144 % 8 + 0xF0), UInt8.ofNat (v / 4096 % 64 + 0x80),
          UInt8.ofNat (v / 64 % 64 + 0x80), UInt8.ofNat (v % 64 + 0x80)] := by
  have hv : (Char.ofNat v).val.toNat = v := by
    show (Char.ofNat v).toNat = v
    rw [Char.ofNat, dif_pos h]
    rfl
  rw [encodeChar, String.utf8EncodeChar, hv]

/-- An octet is known by its number. -/
theorem ofNat_eq {n : Nat} {b : UInt8} (h : n = b.toNat) : UInt8.ofNat n = b := by
  rw [h, UInt8.ofNat_toNat]

/-- The range of an octet inside a character. -/
theorem tail_range {x : UInt8} (hlow : 0x80 ≤ x) (hhigh : x ≤ 0xBF) :
    0x80 ≤ x.toNat ∧ x.toNat ≤ 0xBF :=
  ⟨UInt8.le_iff_toNat_le.mp hlow, UInt8.le_iff_toNat_le.mp hhigh⟩

/-- The second octet has a smaller range after some first ones. -/
theorem second_range {p q : Prop} [Decidable p] [Decidable q] {low high x : UInt8}
    (hlow : (if p then low else 0x80) ≤ x) (hhigh : x ≤ if q then high else 0xBF)
    (h80 : 0x80 ≤ low) (hBF : high ≤ 0xBF) :
    0x80 ≤ x.toNat ∧ x.toNat ≤ 0xBF ∧ (p → low.toNat ≤ x.toNat) ∧ (q → x.toNat ≤ high.toNat) := by
  have hleast : 0x80 ≤ x ∧ (p → low ≤ x) := by
    split at hlow
    · exact ⟨UInt8.le_trans h80 hlow, fun _ => hlow⟩
    · next hp => exact ⟨hlow, fun h => absurd h hp⟩
  have hgreatest : x ≤ 0xBF ∧ (q → x ≤ high) := by
    split at hhigh
    · exact ⟨UInt8.le_trans hhigh hBF, fun _ => hhigh⟩
    · next hq => exact ⟨hhigh, fun h => absurd h hq⟩
  obtain ⟨hx80, hxBF⟩ := tail_range hleast.1 hgreatest.1
  exact ⟨hx80, hxBF, fun h => UInt8.le_iff_toNat_le.mp (hleast.2 h),
    fun h => UInt8.le_iff_toNat_le.mp (hgreatest.2 h)⟩

/-- Octets that lead to a character are its encoding. -/
theorem encodeChar_of_after {b : UInt8} {bs : Bytes} {c : Char} (h : after b bs = .done c) :
    encodeChar c = b :: bs := by
  unfold after at h
  -- the ranges put the character among those of as many octets, and its octets hold its bits
  obtain ⟨hb, hfirst⟩ | ⟨hlow, hhigh, hfirst⟩ | ⟨hlow, hhigh, hfirst⟩ | ⟨hlow, hhigh, hfirst⟩ | hfirst :=
    first_cases b
  · rw [hfirst] at h
    obtain ⟨rfl, rfl⟩ := eq_of_foldl_done h
    rw [encodeChar_ofNat (by omega), if_pos (by omega), UInt8.ofNat_toNat]
  · rw [hfirst] at h
    obtain ⟨x, _, rfl, hxlow, hxhigh, hzero, _⟩ := exists_of_foldl_more h
    obtain ⟨rfl, rfl⟩ := hzero rfl
    obtain ⟨hx80, hxBF⟩ := tail_range hxlow hxhigh
    dsimp only
    rw [encodeChar_ofNat (by omega), if_neg (by omega), if_pos (by omega),
      ofNat_eq (b := b) (by omega), ofNat_eq (b := x) (by omega)]
  · rw [hfirst] at h
    obtain ⟨x, _, rfl, hxlow, hxhigh, _, hsucc⟩ := exists_of_foldl_more h
    obtain ⟨y, _, rfl, hylow, hyhigh, hzero, _⟩ := exists_of_foldl_more (hsucc 0 rfl)
    obtain ⟨rfl, rfl⟩ := hzero rfl
    obtain ⟨hx80, hxBF, hleast, hgreatest⟩ :=
      second_range hxlow hxhigh (by decide) (by decide)
    obtain ⟨hy80, hyBF⟩ := tail_range hylow hyhigh
    -- no overlong form, and no half of a pair
    replace hleast : b.toNat = 0xE0 → 0xA0 ≤ x.toNat := hleast
    replace hgreatest : b.toNat = 0xED → x.toNat ≤ 0x9F := hgreatest
    dsimp only
    rw [encodeChar_ofNat (by omega), if_neg (by omega), if_neg (by omega), if_pos (by omega),
      ofNat_eq (b := b) (by omega), ofNat_eq (b := x) (by omega), ofNat_eq (b := y) (by omega)]
  · rw [hfirst] at h
    obtain ⟨x, _, rfl, hxlow, hxhigh, _, hsucc⟩ := exists_of_foldl_more h
    obtain ⟨y, _, rfl, hylow, hyhigh, _, hsucc'⟩ := exists_of_foldl_more (hsucc 1 rfl)
    obtain ⟨z, _, rfl, hzlow, hzhigh, hzero, _⟩ := exists_of_foldl_more (hsucc' 0 rfl)
    obtain ⟨rfl, rfl⟩ := hzero rfl
    obtain ⟨hx80, hxBF, hleast, hgreatest⟩ :=
      second_range hxlow hxhigh (by decide) (by decide)
    obtain ⟨hy80, hyBF⟩ := tail_range hylow hyhigh
    obtain ⟨hz80, hzBF⟩ := tail_range hzlow hzhigh
    -- no overlong form, and nothing beyond the last character
    replace hleast : b.toNat = 0xF0 → 0x90 ≤ x.toNat := hleast
    replace hgreatest : b.toNat = 0xF4 → x.toNat ≤ 0x8F := hgreatest
    dsimp only
    rw [encodeChar_ofNat (by omega), if_neg (by omega), if_neg (by omega), if_neg (by omega),
      ofNat_eq (b := b) (by omega), ofNat_eq (b := x) (by omega), ofNat_eq (b := y) (by omega),
      ofNat_eq (b := z) (by omega)]
  · rw [hfirst, foldl_broken] at h
    cases h

/-- What is read to its end with no text has no octets. -/
theorem eq_nil_of_decodeFrom? {held : Option Pending} {bs : Bytes}
    (h : decodeFrom? held bs = some []) : bs = [] := by
  induction bs generalizing held with
  | nil => rfl
  | cons b bs ih =>
      rw [decodeFrom?] at h
      split at h
      · next p _ =>
          -- a character is under way, and the octets may not end here
          rw [ih h] at h
          cases h
      · obtain ⟨cs, _, hcs⟩ := Option.map_eq_some_iff.mp h
        cases hcs
      · cases h

theorem foldl_of_decodeFrom? {p : Pending} {bs : Bytes} {c : Char}
    (h : decodeFrom? (some p) bs = some [c]) : bs.foldl Progress.then (.more p) = .done c := by
  induction bs generalizing p with
  | nil => cases h
  | cons b bs ih =>
      rw [decodeFrom?, Option.elim_some] at h
      rw [List.foldl_cons, Progress.then]
      split at h
      · next q hnext =>
          rw [hnext]
          exact ih h
      · next d hnext =>
          obtain ⟨cs, hrest, hcs⟩ := Option.map_eq_some_iff.mp h
          obtain ⟨rfl, rfl⟩ := List.cons.inj hcs
          rw [hnext, eq_nil_of_decodeFrom? hrest]
          rfl
      · cases h

/-- The encoding of a character leads to it. -/
theorem exists_after_encodeChar (c : Char) :
    ∃ b bs, encodeChar c = b :: bs ∧ after b bs = .done c := by
  have hread : decodeFrom? none (encodeChar c) = some [c] := by
    have h := decodeFrom?_encodeChar c []
    rw [List.append_nil] at h
    exact h
  cases henc : encodeChar c with
  | nil =>
      rw [henc] at hread
      cases hread
  | cons b bs =>
      refine ⟨b, bs, rfl, ?_⟩
      rw [henc, decodeFrom?, Option.elim_none] at hread
      unfold after
      split at hread
      · next p hfirst =>
          rw [hfirst]
          exact foldl_of_decodeFrom? hread
      · next d hfirst =>
          obtain ⟨cs, hrest, hcs⟩ := Option.map_eq_some_iff.mp hread
          obtain ⟨rfl, rfl⟩ := List.cons.inj hcs
          rw [hfirst, eq_nil_of_decodeFrom? hrest]
          rfl
      · cases hread

/-- **Octets lead to a character just in case they are its encoding.** -/
theorem after_eq_done {b : UInt8} {bs : Bytes} {c : Char} :
    after b bs = .done c ↔ encodeChar c = b :: bs := by
  refine ⟨encodeChar_of_after, fun h => ?_⟩
  obtain ⟨b', bs', henc, hafter⟩ := exists_after_encodeChar c
  obtain ⟨rfl, rfl⟩ := List.cons.inj (h.symm.trans henc)
  exact hafter

/-! ## The beginning of a character -/

/-- The range of the next octet is not empty. -/
theorem low_le_high_of_foldl {start : Progress} (hstart : ∀ q, start = .more q → q.low ≤ q.high)
    {bs : Bytes} {p : Pending} (h : bs.foldl Progress.then start = .more p) : p.low ≤ p.high := by
  induction bs generalizing start with
  | nil => exact hstart p h
  | cons b bs ih =>
      refine ih (fun q hq => ?_) h
      cases start with
      | more r =>
          obtain ⟨_, _, hnext⟩ | ⟨n, _, _, hnext⟩ | hnext := r.next_cases b <;>
            cases hnext.symm.trans hq
          exact (by decide : (0x80 : UInt8) ≤ 0xBF)
      | done c => cases hq
      | broken => cases hq

theorem low_le_high {b : UInt8} {bs : Bytes} {p : Pending} (h : after b bs = .more p) :
    p.low ≤ p.high := by
  refine low_le_high_of_foldl (fun q hq => ?_) h
  obtain ⟨_, hfirst⟩ | ⟨_, _, hfirst⟩ | ⟨_, _, hfirst⟩ | ⟨_, _, hfirst⟩ | hfirst := first_cases b <;>
    cases hfirst.symm.trans hq
  · exact (by decide : (0x80 : UInt8) ≤ 0xBF)
  · dsimp only
    split
    · rw [if_neg (by omega)]
      decide
    · split <;> decide
  · dsimp only
    split
    · rw [if_neg (by omega)]
      decide
    · split <;> decide

/-- A character that is under way can be finished. -/
theorem exists_foldl_eq_done {p : Pending} (h : p.low ≤ p.high) :
    ∃ x more c, (x :: more).foldl Progress.then (.more p) = .done c := by
  obtain ⟨owed, low, high, bits⟩ := p
  induction owed generalizing low high bits with
  | zero =>
      refine ⟨low, [], Char.ofNat (bits * 64 + low.toNat % 64), ?_⟩
      show Pending.next _ low = _
      rw [Pending.next, if_pos ⟨UInt8.le_refl low, h⟩]
  | succ n ih =>
      obtain ⟨x, more, c, hmore⟩ :=
        ih 0x80 0xBF (bits * 64 + low.toNat % 64) (by decide : (0x80 : UInt8) ≤ 0xBF)
      refine ⟨low, x :: more, c, ?_⟩
      show (x :: more).foldl Progress.then (Pending.next _ low) = _
      rw [Pending.next, if_pos ⟨UInt8.le_refl low, h⟩]
      exact hmore

/-- **Octets lead into a character just in case they begin one.** -/
theorem exists_after_eq_more {b : UInt8} {bs : Bytes} :
    (∃ p, after b bs = .more p) ↔ Begins (b :: bs) := by
  constructor
  · rintro ⟨p, hp⟩
    obtain ⟨x, more, c, hmore⟩ := exists_foldl_eq_done (low_le_high hp)
    refine ⟨c, x :: more, List.cons_ne_nil _ _, ?_⟩
    exact encodeChar_of_after ((after_append b bs (x :: more)).trans (by rw [hp, hmore]))
  · rintro ⟨c, more, hne, henc⟩
    have hdone := (after_append b bs more).symm.trans (after_eq_done.mpr henc)
    -- neither a character nor broken octets could go on to `c`
    cases hafter : after b bs with
    | more p => exact ⟨p, rfl⟩
    | done d =>
        rw [hafter] at hdone
        exact absurd (eq_of_foldl_done hdone).1 hne
    | broken =>
        rw [hafter, foldl_broken] at hdone
        cases hdone

/-! ## Broken octets -/

section Stuck

variable {b : UInt8} {bs rest : Bytes}

/-- No run that goes beyond the octets behind which no character goes on leads anywhere. -/
theorem length_le_of_stuck (hstuck : ∀ x more, rest = x :: more → (after b bs).then x = .broken)
    {run : Bytes} (hrun : run <+: bs ++ rest) (h : after b run ≠ .broken) :
    run.length ≤ bs.length := by
  refine Nat.le_of_not_lt fun hlt => h ?_
  obtain ⟨more, rfl⟩ := List.prefix_of_prefix_length_le (List.prefix_append bs rest) hrun
    (Nat.le_of_lt hlt)
  -- a longer run takes the octet where the machine is stuck
  cases more with
  | nil => simp at hlt
  | cons x more =>
      obtain ⟨last, hlast⟩ := hrun
      rw [List.append_assoc, List.append_cancel_left_eq] at hlast
      rw [after_append, List.foldl_cons, hstuck x (more ++ last) hlast.symm, foldl_broken]

/-- A replacement stands for the octets where the machine is stuck. -/
theorem broken_of_stuck (h : (∃ p, after b bs = .more p) ∨ (bs = [] ∧ first b = .broken))
    (hstuck : ∀ x more, rest = x :: more → (after b bs).then x = .broken) :
    Broken (b :: bs) rest where
  nonempty := List.cons_ne_nil _ _
  none_here c hc := by
    obtain ⟨b', run, henc, hrun⟩ := exists_after_encodeChar c
    rw [henc, List.cons_append, List.cons_prefix_cons] at hc
    obtain ⟨rfl, hprefix⟩ := hc
    have hle := length_le_of_stuck hstuck hprefix (by rw [hrun]; exact Progress.noConfusion)
    -- so the character would have ended before
    obtain ⟨more, rfl⟩ := List.prefix_of_prefix_length_le hprefix (List.prefix_append bs rest) hle
    rcases h with ⟨p, hp⟩ | ⟨hnil, hfirst⟩
    · rw [after_append, hrun, foldl_done] at hp
      split at hp <;> cases hp
    · obtain ⟨rfl, rfl⟩ := List.append_eq_nil_iff.mp hnil
      cases hfirst.symm.trans hrun
  begins := by
    rcases h with hmore | ⟨rfl, _⟩
    · exact .inl (exists_after_eq_more.mp hmore)
    · exact .inr rfl
  longest run hrun hbegins := by
    cases run with
    | nil => exact Nat.zero_le _
    | cons b' run =>
        rw [List.cons_append, List.cons_prefix_cons] at hrun
        obtain ⟨rfl, hprefix⟩ := hrun
        obtain ⟨p, hp⟩ := exists_after_eq_more.mpr hbegins
        exact Nat.succ_le_succ
          (length_le_of_stuck hstuck hprefix (by rw [hp]; exact Progress.noConfusion))

/-- And only there. -/
theorem Broken.stuck (h : Broken (b :: bs) rest) :
    ((∃ p, after b bs = .more p) ∨ (bs = [] ∧ first b = .broken)) ∧
      ∀ x more, rest = x :: more → (after b bs).then x = .broken := by
  constructor
  · by_cases hmore : ∃ p, after b bs = .more p
    · exact .inl hmore
    · have hlength := h.begins.resolve_left fun hbegins => hmore (exists_after_eq_more.mpr hbegins)
      obtain rfl : bs = [] := List.length_eq_zero_iff.mp (Nat.succ.inj hlength)
      refine .inr ⟨rfl, ?_⟩
      cases hfirst : first b with
      | more p => exact absurd ⟨p, hfirst⟩ hmore
      | done c =>
          have henc : encodeChar c = [b] := after_eq_done.mp hfirst
          refine absurd ?_ (h.none_here c)
          rw [henc]
          exact List.prefix_append [b] rest
      | broken => rfl
  · rintro x more rfl
    have happend : after b (bs ++ [x]) = (after b bs).then x := after_append b bs [x]
    have hprefix : b :: (bs ++ [x]) <+: b :: bs ++ x :: more :=
      ⟨more, by simp⟩
    cases hthen : (after b bs).then x with
    | more q =>
        have hle := h.longest _ hprefix (exists_after_eq_more.mp ⟨q, happend.trans hthen⟩)
        rw [List.length_cons, List.length_cons, List.length_append, List.length_singleton] at hle
        omega
    | done c =>
        have henc : encodeChar c = b :: (bs ++ [x]) := after_eq_done.mp (happend.trans hthen)
        exact absurd (henc ▸ hprefix) (h.none_here c)
    | broken => rfl

end Stuck

/-- Octets begin with a character or with broken octets. -/
theorem exists_char_or_broken {b : UInt8} (bs : Bytes) {rest : Bytes} {p : Pending}
    (h : after b bs = .more p) :
    (∃ c more, b :: (bs ++ rest) = encodeChar c ++ more) ∨
      ∃ bad more, b :: (bs ++ rest) = bad ++ more ∧ Broken bad more := by
  induction rest generalizing bs p with
  | nil => exact .inr ⟨b :: bs, [], rfl, broken_of_stuck (.inl ⟨p, h⟩) nofun⟩
  | cons x rest ih =>
      have happend : after b (bs ++ [x]) = p.next x := by
        rw [after_append, h]
        rfl
      have hsplit : b :: (bs ++ x :: rest) = b :: (bs ++ [x] ++ rest) := by simp
      cases hnext : p.next x with
      | more q =>
          rw [hsplit]
          exact ih (bs ++ [x]) (happend.trans hnext)
      | done c =>
          refine .inl ⟨c, rest, ?_⟩
          rw [after_eq_done.mp (happend.trans hnext)]
          exact hsplit
      | broken =>
          refine .inr ⟨b :: bs, x :: rest, rfl, broken_of_stuck (.inl ⟨p, h⟩) ?_⟩
          rintro _ _ ⟨⟩
          rw [h]
          exact hnext

theorem exists_repaired (input : Bytes) : ∃ cs, Repaired input cs := by
  match input with
  | [] => exact ⟨[], .nil⟩
  | b :: rest =>
    have hsplit : (∃ c more, b :: rest = encodeChar c ++ more) ∨
        ∃ bad more, b :: rest = bad ++ more ∧ Broken bad more := by
      cases hfirst : first b with
      | more p => exact exists_char_or_broken [] hfirst
      | done c =>
          have henc : encodeChar c = [b] := after_eq_done.mp hfirst
          exact .inl ⟨c, rest, by rw [henc]; rfl⟩
      | broken =>
          exact .inr ⟨[b], rest, rfl, broken_of_stuck (.inr ⟨rfl, hfirst⟩)
            fun x more _ => by rw [after, List.foldl_nil, hfirst]; rfl⟩
    rcases hsplit with ⟨c, more, heq⟩ | ⟨bad, more, heq, hbad⟩
    · obtain ⟨b', bs, henc, _⟩ := exists_after_encodeChar c
      have hlt : more.length < (b :: rest).length := by
        rw [heq, henc, List.length_append, List.length_cons]
        omega
      obtain ⟨cs, hcs⟩ := exists_repaired more
      exact ⟨c :: cs, heq ▸ hcs.char⟩
    · have hlt : more.length < (b :: rest).length := by
        have hpos := List.length_pos_iff.mpr hbad.nonempty
        rw [heq, List.length_append]
        omega
      obtain ⟨cs, hcs⟩ := exists_repaired more
      exact ⟨replacement :: cs, heq ▸ .broken hbad hcs⟩
termination_by input.length
decreasing_by all_goals exact hlt

/-! ## What is read -/

/-- What is read of the octets ahead. -/
def readOn : Progress → Bytes → List Char
  | .more p, rest => decodeLossyFrom (some p) rest
  | .done c, rest => c :: decodeLossy rest
  | .broken, rest => replacement :: decodeLossy rest

theorem decodeLossy_cons (b : UInt8) (rest : Bytes) :
    decodeLossy (b :: rest) = readOn (first b) rest := by
  rw [decodeLossy, decodeLossyFrom, stepLossy, startLossy]
  cases first b <;> rfl

theorem readOn_foldl {start : Progress} {bs : Bytes} (rest : Bytes)
    (h : bs.foldl Progress.then start ≠ .broken) :
    readOn start (bs ++ rest) = readOn (bs.foldl Progress.then start) rest := by
  induction bs generalizing start with
  | nil => rfl
  | cons b bs ih =>
      rw [List.foldl_cons] at h ⊢
      rw [← ih h]
      cases start with
      | more p =>
          show decodeLossyFrom (some p) (b :: (bs ++ rest)) = readOn (p.next b) (bs ++ rest)
          rw [decodeLossyFrom, stepLossy]
          cases hnext : p.next b with
          | more q => rfl
          | done c => rfl
          | broken =>
              rw [Progress.then, hnext, foldl_broken] at h
              exact absurd rfl h
      | done c => exact absurd (foldl_broken bs) h
      | broken => exact absurd (foldl_broken bs) h

theorem decodeLossy_append {b : UInt8} {bs : Bytes} (rest : Bytes) (h : after b bs ≠ .broken) :
    decodeLossy (b :: bs ++ rest) = readOn (after b bs) rest :=
  (decodeLossy_cons b (bs ++ rest)).trans (readOn_foldl rest h)

/-- A character is read as itself. -/
theorem decodeLossy_char (c : Char) (rest : Bytes) :
    decodeLossy (encodeChar c ++ rest) = c :: decodeLossy rest := by
  obtain ⟨b, bs, henc, hafter⟩ := exists_after_encodeChar c
  rw [henc, decodeLossy_append rest (by rw [hafter]; exact Progress.noConfusion), hafter]
  rfl

/-- Broken octets are read as one replacement. -/
theorem decodeLossy_broken {bad rest : Bytes} (h : Broken bad rest) :
    decodeLossy (bad ++ rest) = replacement :: decodeLossy rest := by
  cases bad with
  | nil => exact absurd rfl h.nonempty
  | cons b bs =>
      obtain ⟨⟨p, hp⟩ | ⟨rfl, hfirst⟩, hstuck⟩ := h.stuck
      · rw [decodeLossy_append rest (by rw [hp]; exact Progress.noConfusion), hp]
        show decodeLossyFrom (some p) rest = _
        cases rest with
        | nil => rfl
        | cons x rest =>
            have hnext := hstuck x rest rfl
            rw [hp] at hnext
            replace hnext : p.next x = .broken := hnext
            rw [decodeLossyFrom, stepLossy, hnext]
            rfl
      · show decodeLossy (b :: rest) = _
        rw [decodeLossy_cons, hfirst]
        rfl

/-- **Any octets are read as the text that stands for them.** -/
theorem repaired_iff {input : Bytes} {cs : List Char} :
    Repaired input cs ↔ decodeLossy input = cs := by
  have hread : ∀ {cs}, Repaired input cs → decodeLossy input = cs := by
    intro cs h
    induction h with
    | nil => rfl
    | char _ ih => rw [decodeLossy_char, ih]
    | broken hbad _ ih => rw [decodeLossy_broken hbad, ih]
  refine ⟨hread, fun h => ?_⟩
  obtain ⟨cs', hcs'⟩ := exists_repaired input
  rw [← h, hread hcs']
  exact hcs'

end CrashCourier.Text.Utf8
