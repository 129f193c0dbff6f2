import CrashCourier.Proofs.Json.Document

/-!
# Written JSON is one line

No octet that is written stands for a control. Strings are the only place where one could come from,
and they escape it; a carriage return in a report is two visible characters in its text. Numbers are
made of digits and a few marks, and the rest of the notation is fixed.

Octets beyond 127 belong to longer characters and are none of the controls.
-/

namespace CrashCourier

/-- Characters of which none is a control. -/
def Visible (cs : List Char) : Prop :=
  ∀ c ∈ cs, 0x20 ≤ c.toNat

instance (cs : List Char) : Decidable (Visible cs) :=
  decidable_of_iff (cs.all fun c => 0x20 ≤ c.toNat) (by simp [Visible])

/-- Octets of which none is a control. -/
def Uncontrolled (bs : Bytes) : Prop :=
  ∀ b ∈ bs, 0x20 ≤ b.toNat

theorem Visible.append {cs ds : List Char} (hcs : Visible cs) (hds : Visible ds) :
    Visible (cs ++ ds) :=
  fun c hc => (List.mem_append.mp hc).elim (hcs c) (hds c)

theorem Uncontrolled.append {bs cs : Bytes} (hbs : Uncontrolled bs) (hcs : Uncontrolled cs) :
    Uncontrolled (bs ++ cs) :=
  fun b hb => (List.mem_append.mp hb).elim (hbs b) (hcs b)

theorem Uncontrolled.cons {b : UInt8} {bs : Bytes} (hb : 0x20 ≤ b.toNat) (hbs : Uncontrolled bs) :
    Uncontrolled (b :: bs) :=
  fun c hc => (List.mem_cons.mp hc).elim (fun heq => heq ▸ hb) (hbs c)

theorem uncontrolled_encode {cs : List Char} (h : Visible cs) :
    Uncontrolled (Text.Utf8.encode cs) := by
  intro b hb
  obtain ⟨c, hc, hb⟩ := List.mem_flatMap.mp hb
  have hvisible := h c hc
  rcases Text.Utf8.mem_encodeChar hb with ⟨hlow, rfl⟩ | hhigh
  · rw [UInt8.toNat_ofNat']
    omega
  · omega

theorem uncontrolled_octets {s : String} (h : Visible s.toList) : Uncontrolled (octets s) :=
  uncontrolled_encode h

/-! ## Numbers -/

theorem visible_toDigits (n : Nat) : Visible (Nat.toDigits 10 n) := by
  intro c hc
  have hdigit := (Json.Reader.toNat_octet_of_isDigit (Json.Reader.allDigits_toDigits n c hc)).2
  omega

theorem visible_toString (n : Nat) : Visible (toString n).toList := by
  rw [Nat.toString_eq_ofList_toDigits, String.toList_ofList]
  exact visible_toDigits n

theorem visible_zeros (n : Nat) : Visible (List.replicate n '0') := by
  intro c hc
  rw [List.eq_of_mem_replicate hc]
  decide

namespace Decimal

theorem visible_positionalText (x : Decimal) : Visible (positionalText x).toList := by
  unfold positionalText
  dsimp only
  by_cases h : 0 ≤ x.exponent
  · rw [if_pos h, String.toList_ofList]
    exact ((visible_toDigits _).append (visible_zeros _)).append (by decide)
  · rw [if_neg h, String.toList_ofList]
    have hdigits := (visible_zeros ((-x.exponent).toNat + 1 -
      (Nat.toDigits 10 x.digits).length)).append (visible_toDigits x.digits)
    refine Visible.append (fun c hc => hdigits c (List.mem_of_mem_take hc)) ?_
    intro c hc
    rcases List.mem_cons.mp hc with rfl | hc
    · decide
    · exact hdigits c (List.mem_of_mem_drop hc)

theorem visible_exponentText (x : Decimal) : Visible (exponentText x).toList := by
  have hdigits := visible_toDigits x.digits
  unfold exponentText
  simp only [String.toList_append, String.toList_ofList]
  refine ((Visible.append ?_ (by decide)).append ?_).append (visible_toString _)
  · cases hds : Nat.toDigits 10 x.digits with
    | nil => decide
    | cons d rest =>
        rw [hds] at hdigits
        cases rest with
        | nil => exact hdigits
        | cons e rest =>
            intro c hc
            simp only [List.mem_cons] at hc
            rcases hc with rfl | rfl | hc
            · exact hdigits c List.mem_cons_self
            · decide
            · exact hdigits c (List.mem_cons_of_mem _ (List.mem_cons.mpr hc))
  · split <;> decide

theorem visible_text (layout : Layout) (x : Binary64) : Visible (layout.text x).toList := by
  unfold Layout.text
  dsimp only
  rw [String.toList_append]
  refine Visible.append ?_ ?_
  · split <;> decide
  · split
    · exact visible_positionalText _
    · exact visible_exponentText _

end Decimal

namespace Json

theorem Number.uncontrolled_write (n : Number) : Uncontrolled n.write := by
  cases n with
  | natural n => exact uncontrolled_octets (visible_toString _)
  | negative n =>
      refine uncontrolled_octets ?_
      rw [String.toList_append]
      exact Visible.append (by decide) (visible_toString _)
  | real x => exact uncontrolled_octets (Decimal.visible_text _ _)

/-! ## Strings -/

/-- **No character is written as a control.** -/
theorem uncontrolled_escapeChar (c : Char) : Uncontrolled (escapeChar c) := by
  unfold escapeChar
  split
  iterate 7 exact uncontrolled_octets (by decide)
  split
  · rename_i hcontrol
    -- the sixteen digits are visible, and so are the marks before them
    refine uncontrolled_encode ?_
    generalize c.toNat = n at hcontrol
    interval_cases n <;> decide
  · rename_i hvisible
    have hone : Visible [c] := by
      intro d hd
      rw [List.mem_singleton.mp hd]
      omega
    intro b hb
    refine uncontrolled_encode hone b ?_
    rw [Text.Utf8.encode, List.flatMap_singleton]
    exact hb

theorem uncontrolled_writeString (s : String) : Uncontrolled (writeString s) := by
  refine .append (.cons (by decide) ?_) (.cons (by decide) (fun _ h => nomatch h))
  intro b hb
  obtain ⟨c, _, hb⟩ := List.mem_flatMap.mp hb
  exact uncontrolled_escapeChar c b hb

/-! ## Values -/

/-- Texts without controls hold none once they are put between commas and brackets. -/
theorem uncontrolled_intercalate {texts : List Bytes} (h : ∀ t ∈ texts, Uncontrolled t) :
    Uncontrolled (List.intercalate [0x2C] texts) := by
  cases texts with
  | nil => exact fun _ hb => nomatch hb
  | cons t texts =>
      rw [intercalate_cons]
      refine (h t List.mem_cons_self).append ?_
      intro b hb
      obtain ⟨t', ht', hb⟩ := List.mem_flatMap.mp hb
      exact Uncontrolled.cons (by decide) (h t' (List.mem_cons_of_mem _ ht')) b hb

theorem uncontrolled_writeMember (key : String) {text : Bytes} (h : Uncontrolled text) :
    Uncontrolled (writeMember key text) :=
  (uncontrolled_writeString key).append (h.cons (by decide))

theorem uncontrolled_brackets {first last : UInt8} {text : Bytes} (hfirst : 0x20 ≤ first.toNat)
    (hlast : 0x20 ≤ last.toNat) (h : Uncontrolled text) : Uncontrolled (first :: text ++ [last]) :=
  (h.cons hfirst).append (.cons hlast fun _ hb => nomatch hb)

mutual

/-- **The text of a value holds no control.** -/
theorem Value.uncontrolled_write (v : Value) : Uncontrolled v.write := by
  match v with
  | .null => exact uncontrolled_octets (by decide)
  | .truth b => cases b <;> exact uncontrolled_octets (by decide)
  | .number n => exact n.uncontrolled_write
  | .text s => exact uncontrolled_writeString s
  | .list items =>
      exact uncontrolled_brackets (by decide) (by decide)
        (uncontrolled_intercalate (uncontrolled_writeItems items))
  | .object members =>
      exact uncontrolled_brackets (by decide) (by decide)
        (uncontrolled_intercalate (uncontrolled_writeMembers members))

theorem uncontrolled_writeItems (items : List Value) : ∀ t ∈ writeItems items, Uncontrolled t := by
  match items with
  | [] => exact fun _ ht => nomatch ht
  | v :: rest =>
      intro t ht
      rcases List.mem_cons.mp ht with rfl | ht
      · exact v.uncontrolled_write
      · exact uncontrolled_writeItems rest t ht

theorem uncontrolled_writeMembers (members : List (String × Value)) :
    ∀ t ∈ writeMembers members, Uncontrolled t := by
  match members with
  | [] => exact fun _ ht => nomatch ht
  | (k, v) :: rest =>
      intro t ht
      rcases List.mem_cons.mp ht with rfl | ht
      · exact uncontrolled_writeMember k v.uncontrolled_write
      · exact uncontrolled_writeMembers rest t ht

end

/-- A record that is written is one line, whatever it holds. -/
theorem Record.uncontrolled_toBytes {α : Type} [Record α] (a : α) :
    Uncontrolled (Record.toBytes a) := by
  rw [Record.toBytes, write_eq_toValue]
  exact Value.uncontrolled_write _

end Json

end CrashCourier
