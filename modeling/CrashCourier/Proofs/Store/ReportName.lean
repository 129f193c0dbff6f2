import CrashCourier.Proofs.Text.Hex
import CrashCourier.Store.ReportName
import Mathlib.Data.List.Infix

/-!
# Names of report files

The digits of a number can be read back, so that they say which number it is, and what stands in
front of them and behind them is the same for all numbers of a bundle. So two numbers have two names,
and the name of a number is read as that number (`parse?_format`). Other names may be read as a number
too: digits in upper case, or a plus sign in front. These are all (`parse?_codec`): what is read as a
number is sixteen octets, and it is the number as it is written unless it has an upper-case letter or a
plus sign.

Nothing behind the bundle is a slash. Whatever the bundle is called, the number is in the last name
of a path.
-/

namespace CrashCourier

/-! ## Names -/

namespace ReportName

/-- What stands behind the bundle in the name of a report. -/
def behind (id : Int64) : List Char :=
  middle ++ digits id ++ ending

theorem format_toList (bundleId : String) (id : Int64) :
    (format bundleId id).toList = bundleId.toList ++ behind id := by
  unfold format behind
  rw [String.toList_ofList, List.append_assoc, List.append_assoc, List.append_assoc]

theorem digits_injective {id id' : Int64} (h : digits id = digits id') : id = id' := by
  have hread := congrArg Text.ofHex? h
  unfold digits at hread
  rw [Text.ofHex_hex, Text.ofHex_hex] at hread
  have hnat := UInt64.toNat_inj.mp (Option.some.inj hread)
  have hint := congrArg UInt64.toInt64 hnat
  rwa [Int64.toInt64_toUInt64, Int64.toInt64_toUInt64] at hint

theorem behind_injective {id id' : Int64} (h : behind id = behind id') : id = id' := by
  unfold behind at h
  exact digits_injective (List.append_cancel_left (List.append_cancel_right h))

theorem not_mem_behind {c : Char} (hmiddle : c ∉ middle) (hdigit : ∀ d < 16, c ≠ Nat.digitChar d)
    (hending : c ∉ ending) (id : Int64) : c ∉ behind id := by
  unfold behind digits
  rw [List.mem_append, List.mem_append, not_or, not_or]
  exact ⟨⟨hmiddle, Text.not_mem_hex hdigit⟩, hending⟩

theorem slash_not_mem_behind (id : Int64) : '/' ∉ behind id :=
  not_mem_behind (by decide) (by decide) (by decide) id

theorem nul_not_mem_behind (id : Int64) : '\x00' ∉ behind id :=
  not_mem_behind (by decide) (by decide) (by decide) id

/-- It begins with a dash. -/
theorem behind_eq_cons (id : Int64) : ∃ rest, behind id = '-' :: rest :=
  ⟨_, rfl⟩

/-! ## Reading a name -/

theorem length_digits (id : Int64) : (digits id).length = width :=
  Text.length_hex (by decide) id.toUInt64.toNat_lt

/-- The digits of a number, without its sign. -/
def unsigned : List Char → List Char
  | '+' :: rest => rest
  | cs => cs

theorem unsigned_of_not_mem {cs : List Char} (h : '+' ∉ cs) : unsigned cs = cs := by
  unfold unsigned
  split
  · exact absurd List.mem_cons_self h
  · rfl

theorem ofDigits?_eq_some {cs : List Char} {id : Int64} : ofDigits? cs = some id ↔
    cs.length = width ∧ ∃ n, Text.ofHex? (unsigned cs) = some n ∧ (UInt64.ofNat n).toInt64 = id := by
  have hof : ofDigits? cs = if cs.length = width then
      (Text.ofHex? (unsigned cs)).map fun n => (UInt64.ofNat n).toInt64 else none := rfl
  rw [hof]
  by_cases hwidth : cs.length = width
  · rw [if_pos hwidth, Option.map_eq_some_iff]
    exact ⟨fun h => ⟨hwidth, h⟩, fun h => h.2⟩
  · rw [if_neg hwidth]
    exact ⟨fun h => (nomatch h), fun h => absurd h.1 hwidth⟩

/-- The digits of a number are read as the number. -/
theorem ofDigits?_digits (id : Int64) : ofDigits? (digits id) = some id := by
  have hplus : '+' ∉ digits id := Text.not_mem_hex (by decide)
  have hunsigned : unsigned (digits id) = digits id := unsigned_of_not_mem hplus
  refine ofDigits?_eq_some.mpr ⟨length_digits id, id.toUInt64.toNat, ?_, ?_⟩
  · rw [hunsigned]
    exact Text.ofHex_hex _ _
  · rw [UInt64.ofNat_toNat, Int64.toInt64_toUInt64]

theorem withoutEnding?_append (ending text : List Char) :
    withoutEnding? ending (text ++ ending) = some text := by
  have h : ending.reverse.isPrefixOf? (text ++ ending).reverse = some text.reverse := by
    rw [List.isPrefixOf?_eq_some_iff_append_eq, List.reverse_append]
  unfold withoutEnding?
  rw [h, Option.map_some, List.reverse_reverse]

theorem eq_append_of_withoutEnding? {ending text rest : List Char}
    (h : withoutEnding? ending text = some rest) : text = rest ++ ending := by
  unfold withoutEnding? at h
  obtain ⟨reversed, hreversed, rfl⟩ := Option.map_eq_some_iff.mp h
  have happend := List.isPrefixOf?_eq_some_iff_append_eq.mp hreversed
  rw [← List.reverse_reverse text, ← happend, List.reverse_append, List.reverse_reverse]

theorem parse?_eq_some {name bundleId : String} {id : Int64} : parse? name bundleId = some id ↔
    ∃ cs, name.toList = bundleId.toList ++ (middle ++ (cs ++ ending)) ∧ ofDigits? cs = some id := by
  constructor
  · intro h
    unfold parse? at h
    obtain ⟨rest, hrest, h⟩ := Option.bind_eq_some_iff.mp h
    obtain ⟨rest', hrest', h⟩ := Option.bind_eq_some_iff.mp h
    obtain ⟨cs, hcs, h⟩ := Option.bind_eq_some_iff.mp h
    refine ⟨cs, ?_, h⟩
    rw [← List.isPrefixOf?_eq_some_iff_append_eq.mp hrest,
      ← List.isPrefixOf?_eq_some_iff_append_eq.mp hrest', eq_append_of_withoutEnding? hcs]
  · rintro ⟨cs, hname, hcs⟩
    have hbundle : bundleId.toList.isPrefixOf? name.toList = some (middle ++ (cs ++ ending)) :=
      List.isPrefixOf?_eq_some_iff_append_eq.mpr hname.symm
    have hmiddle : middle.isPrefixOf? (middle ++ (cs ++ ending)) = some (cs ++ ending) :=
      List.isPrefixOf?_eq_some_iff_append_eq.mpr rfl
    unfold parse?
    rw [hbundle, Option.bind_eq_bind, Option.bind_some, hmiddle, Option.bind_some,
      withoutEnding?_append, Option.bind_some, hcs]

/-- **The name of a report says its number.** -/
theorem parse?_format (bundleId : String) (id : Int64) :
    parse? (format bundleId id) bundleId = some id := by
  refine parse?_eq_some.mpr ⟨digits id, ?_, ofDigits?_digits id⟩
  rw [format_toList, behind, List.append_assoc]

theorem format_injective {bundleId : String} {id id' : Int64}
    (h : format bundleId id = format bundleId id') : id = id' := by
  have hparse := parse?_format bundleId id
  rw [h, parse?_format] at hparse
  exact (Option.some.inj hparse).symm

/-- A name that is read as a number is made of the bundle, as many characters as a number takes, and
what stands around them. -/
theorem exists_digits_of_parse? {name bundleId : String} {id : Int64}
    (h : parse? name bundleId = some id) :
    ∃ ds, ds.length = width ∧ name.toList = bundleId.toList ++ (middle ++ (ds ++ ending)) := by
  obtain ⟨ds, hname, hds⟩ := parse?_eq_some.mp h
  exact ⟨ds, (ofDigits?_eq_some.mp hds).1, hname⟩

/-- A name that is read as a number begins with the bundle. -/
theorem exists_append_of_parse? {name bundleId : String} {id : Int64}
    (h : parse? name bundleId = some id) : ∃ rest, name.toList = bundleId.toList ++ rest := by
  obtain ⟨ds, _, hname⟩ := exists_digits_of_parse? h
  exact ⟨_, hname⟩

/-- **No name is that of a report of two bundles.** All names are as long behind their bundle, so a
bundle that begins with another, or looks like a name itself, is told apart from it by its length. -/
theorem bundle_unique {name bundleId bundleId' : String} {id id' : Int64}
    (h : parse? name bundleId = some id) (h' : parse? name bundleId' = some id') :
    bundleId = bundleId' := by
  obtain ⟨ds, hds, hname⟩ := exists_digits_of_parse? h
  obtain ⟨ds', hds', hname'⟩ := exists_digits_of_parse? h'
  have hbehind : (middle ++ (ds ++ ending)).length = (middle ++ (ds' ++ ending)).length := by
    rw [List.length_append, List.length_append, List.length_append, List.length_append, hds, hds']
  have hsplit := List.append_inj' (hname.symm.trans hname') hbehind
  exact String.toList_injective hsplit.1

/-- The name of a report is none to another bundle. -/
theorem parse?_format_of_ne {bundleId bundleId' : String} (h : bundleId' ≠ bundleId) (id : Int64) :
    parse? (format bundleId id) bundleId' = none := by
  cases hparse : parse? (format bundleId id) bundleId' with
  | none => rfl
  | some id' => exact absurd (bundle_unique hparse (parse?_format bundleId id)) h

/-! ## How long a name is -/

/-- Whether every character has one octet. -/
def ascii (cs : List Char) : Bool := cs.all fun c => c.utf8Size = 1

theorem ascii_append (cs cs' : List Char) : ascii (cs ++ cs') = (ascii cs && ascii cs') :=
  List.all_append

theorem utf8ByteSize_ofList {cs : List Char} (h : ascii cs = true) :
    (String.ofList cs).utf8ByteSize = cs.length := by
  induction cs with
  | nil => rfl
  | cons c rest ih =>
      unfold ascii at h
      rw [List.all_cons, Bool.and_eq_true, decide_eq_true_eq] at h
      rw [String.ofList_cons, String.utf8ByteSize_append, String.utf8ByteSize_singleton, h.1,
        ih h.2, List.length_cons, Nat.add_comm]

theorem ascii_digits (id : Int64) : ascii (digits id) = true := by
  refine List.all_eq_true.mpr fun c hc => ?_
  obtain ⟨d, hd, rfl⟩ := Text.exists_of_mem_hex hc
  exact (by decide : ∀ d < 16, decide ((Nat.digitChar d).utf8Size = 1) = true) d hd

/-- Behind the bundle a name has 29 octets. -/
theorem utf8ByteSize_format (bundleId : String) (id : Int64) :
    (format bundleId id).utf8ByteSize = bundleId.utf8ByteSize + 29 := by
  have hname : format bundleId id = bundleId ++ String.ofList (behind id) := by
    rw [← String.ofList_toList (s := bundleId), ← String.ofList_append, String.ofList_toList,
      ← format_toList, String.ofList_toList]
  have hone : ascii (behind id) = true := by
    unfold behind
    rw [ascii_append, ascii_append, ascii_digits]
    decide
  rw [hname, String.utf8ByteSize_append, utf8ByteSize_ofList hone]
  unfold behind
  rw [List.length_append, List.length_append, length_digits]
  rfl

/-! ## Which names are read -/

/-- What a name may have for its number: sixteen octets, digits of either case or a plus sign with
digits behind it. -/
def IsNumber (number : String) : Prop :=
  number.utf8ByteSize = 16 ∧ ((∀ c ∈ number.toList, Text.IsHexDigit c) ∨
    ∃ ds, number.toList = '+' :: ds ∧ ∀ c ∈ ds, Text.IsHexDigit c)

theorem ascii_of_digits {cs : List Char} (h : ∀ c ∈ cs, Text.IsHexDigit c) : ascii cs = true :=
  List.all_eq_true.mpr fun c hc => by
    have hlt := (h c hc).toNat_lt
    rw [decide_eq_true_eq, Char.utf8Size_eq_one_iff]
    exact Nat.le_of_lt_succ hlt

theorem forall_unsigned {p : Char → Prop} (hplus : ¬ p '+') {cs : List Char} :
    (∀ c ∈ unsigned cs, p c) ↔ (∀ c ∈ cs, p c) ∨ ∃ ds, cs = '+' :: ds ∧ ∀ c ∈ ds, p c := by
  unfold unsigned
  split
  · rename_i ds
    constructor
    · exact fun h => .inr ⟨ds, rfl, h⟩
    · rintro (h | ⟨_, heq, h⟩)
      · exact absurd (h '+' List.mem_cons_self) hplus
      · rwa [(List.cons.inj heq).2]
  · rename_i hne
    constructor
    · exact .inl
    · rintro (h | ⟨ds, heq, _⟩)
      · exact h
      · exact absurd heq (hne ds)

/-- **What is read as a number** is sixteen octets: digits of either case, or a plus sign and digits. -/
theorem ofDigits?_isSome {number : String} :
    (ofDigits? number.toList).isSome ↔ IsNumber number := by
  have hplus : ¬ Text.IsHexDigit '+' := by
    unfold Text.IsHexDigit
    decide
  have hread : (ofDigits? number.toList).isSome ↔
      number.toList.length = width ∧ ∀ c ∈ unsigned number.toList, Text.IsHexDigit c := by
    rw [← Text.ofHex_isSome, Option.isSome_iff_exists, Option.isSome_iff_exists]
    simp only [ofDigits?_eq_some]
    constructor
    · rintro ⟨id, hwidth, n, hn, _⟩
      exact ⟨hwidth, n, hn⟩
    · rintro ⟨hwidth, n, hn⟩
      exact ⟨_, hwidth, n, hn, rfl⟩
  rw [hread, IsNumber, forall_unsigned hplus]
  -- all characters are of one octet
  refine and_congr_left fun hdigits => ?_
  have hascii : ascii number.toList = true := by
    rcases hdigits with h | ⟨ds, heq, h⟩
    · exact ascii_of_digits h
    · rw [heq, ← List.singleton_append, ascii_append, ascii_of_digits h]
      rfl
  have hsize := utf8ByteSize_ofList hascii
  rw [String.ofList_toList] at hsize
  rw [hsize]
  rfl

/-- A number that was read is written in the same way just in case it has no upper-case letter and no
plus sign. -/
theorem digits_of_ofDigits? {cs : List Char} {id : Int64} (h : ofDigits? cs = some id) :
    digits id = cs ↔ ∀ c ∈ cs, c.isUpper = false ∧ c ≠ '+' := by
  obtain ⟨hwidth, n, hn, rfl⟩ := ofDigits?_eq_some.mp h
  have hplus : '+' ∉ digits (UInt64.ofNat n).toInt64 := Text.not_mem_hex (by decide)
  by_cases hmem : '+' ∈ cs
  · refine ⟨fun heq => absurd (heq ▸ hmem) hplus, fun hall => absurd rfl (hall '+' hmem).2⟩
  · rw [unsigned_of_not_mem hmem] at hn
    have hlt : n < 2 ^ 64 := by
      have hpow := Text.ofHex_lt hn
      rw [hwidth] at hpow
      exact hpow
    have hdigits : digits (UInt64.ofNat n).toInt64 = Text.hex cs.length n := by
      unfold digits
      rw [UInt64.toUInt64_toInt64, UInt64.toNat_ofNat_of_lt' hlt, hwidth]
    rw [hdigits, Text.hex_of_ofHex hn (List.ne_nil_of_length_pos (by rw [hwidth]; decide))]
    exact forall₂_congr fun c hc => ⟨fun hlower => ⟨hlower, fun heq => hmem (heq ▸ hc)⟩, And.left⟩

/-- The name with a text for its number. -/
theorem toList_name (bundleId number : String) :
    (bundleId ++ "-report-" ++ number ++ ".json").toList =
      bundleId.toList ++ (middle ++ (number.toList ++ ending)) := by
  rw [String.toList_append, String.toList_append, String.toList_append, List.append_assoc,
    List.append_assoc]
  rfl

theorem eq_name_iff {name bundleId number : String} :
    name = bundleId ++ "-report-" ++ number ++ ".json" ↔
      name.toList = bundleId.toList ++ (middle ++ (number.toList ++ ending)) := by
  rw [← toList_name]
  exact String.toList_inj.symm

/-- **The names of report files are a codec.** -/
theorem parse?_codec :
    (∀ bundleId id, parse? (format bundleId id) bundleId = some id) ∧
    (∀ bundleId id id', id ≠ id' → format bundleId id ≠ format bundleId id') ∧
    ∀ name bundleId,
      ((∃ id, parse? name bundleId = some id) ↔
        ∃ number, IsNumber number ∧ name = bundleId ++ "-report-" ++ number ++ ".json") ∧
      ∀ id number, parse? name bundleId = some id →
        name = bundleId ++ "-report-" ++ number ++ ".json" →
        (format bundleId id = name ↔ ∀ c ∈ number.toList, c.isUpper = false ∧ c ≠ '+') := by
  refine ⟨parse?_format, fun bundleId id id' hne heq => hne (format_injective heq), ?_⟩
  intro name bundleId
  constructor
  · constructor
    · rintro ⟨id, hparse⟩
      obtain ⟨cs, hname, hcs⟩ := parse?_eq_some.mp hparse
      refine ⟨String.ofList cs, ofDigits?_isSome.mp ?_, eq_name_iff.mpr ?_⟩
      · rw [String.toList_ofList, hcs]
        rfl
      · rw [String.toList_ofList]
        exact hname
    · rintro ⟨number, hnumber, hname⟩
      obtain ⟨id, hid⟩ := Option.isSome_iff_exists.mp (ofDigits?_isSome.mpr hnumber)
      exact ⟨id, parse?_eq_some.mpr ⟨_, eq_name_iff.mp hname, hid⟩⟩
  · intro id number hparse hname
    obtain ⟨cs, hname', hcs⟩ := parse?_eq_some.mp hparse
    have hnumber := eq_name_iff.mp hname
    obtain rfl : cs = number.toList :=
      List.append_cancel_right (List.append_cancel_left (List.append_cancel_left
        (hname'.symm.trans hnumber)))
    rw [← digits_of_ofDigits? hcs, ← String.toList_inj, hname', format_toList, behind]
    rw [List.append_assoc, List.append_cancel_left_eq, List.append_cancel_left_eq,
      List.append_cancel_right_eq]

/-- A name that is read as a number need not be the name of that number. -/
theorem upperCase_not_written :
    parse? "app-report-00000000000000FF.json" "app" = some 255 ∧
    format "app" 255 ≠ "app-report-00000000000000FF.json" := by
  have hread : parse? "app-report-00000000000000FF.json" "app" = some 255 := by decide +kernel
  obtain ⟨_, _, hnames⟩ := parse?_codec
  have hwritten := (hnames _ "app").2 255 "00000000000000FF" hread rfl
  refine ⟨hread, fun heq => ?_⟩
  exact absurd (hwritten.mp heq 'F' (by decide)).1 (by decide)

end ReportName

end CrashCourier
