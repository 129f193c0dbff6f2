import CrashCourier.Http.Message
import CrashCourier.Proofs.Json.Echo
import CrashCourier.Proofs.Json.Gathered
import CrashCourier.Proofs.Text.Lossy

/-!
# Which message a body holds

A body is any octets. If it is the text of an object that the reader takes, the object may say the
message (`Says`): its member `reason` does, or else its first member. Otherwise the whole body is the
message, read as a text with replacements, unless all of it is white space.

What an object says is a matter of the object alone. So it does not depend on how its text is spelled,
and a `reason` says the same whatever stands beside it.
-/

namespace CrashCourier

namespace Text

/-- The character has the Unicode property `White_Space`. -/
def IsWhiteSpace (c : Char) : Prop :=
  (0x9 ≤ c.toNat ∧ c.toNat ≤ 0xD) ∨ c.toNat = 0x20 ∨ c.toNat = 0x85 ∨ c.toNat = 0xA0 ∨
    c.toNat = 0x1680 ∨ (0x2000 ≤ c.toNat ∧ c.toNat ≤ 0x200A) ∨ c.toNat = 0x2028 ∨
    c.toNat = 0x2029 ∨ c.toNat = 0x202F ∨ c.toNat = 0x205F ∨ c.toNat = 0x3000

theorem isBlank_iff {c : Char} : isBlank c = true ↔ IsWhiteSpace c := by
  simp only [isBlank, blanks, IsWhiteSpace, List.any_cons, List.any_nil, Bool.or_false,
    Bool.or_eq_true, Bool.and_eq_true, decide_eq_true_eq]
  omega

end Text

namespace Http

open Json

/-- The body is the text of the object, nested no deeper than the reader goes. A repeated key has its
first place and its last value. -/
def Denotes (body : Bytes) (o : Members) : Prop :=
  ∃ ms, TextOf body (.object ms) ∧ (Value.object ms).depth ≤ greatestDepth ∧ Members.Gathers ms o

/-- The value is a text or an array that begins with one. -/
inductive BeginsWith : Value → String → Prop where
  | text {s : String} : BeginsWith (.text s) s
  | list {s : String} {vs : List Value} : BeginsWith (.list (.text s :: vs)) s

/-- The object has the text as its `reason`, or else it is that of its first member. -/
inductive Says (o : Members) : String → Prop where
  | reason {s : String} : Members.get? "reason" o = some (.text s) → Says o s
  | first {key s : String} {v : Value} {others : Members} :
      (∀ reason, Members.get? "reason" o ≠ some (.text reason)) →
      o = (key, v) :: others → BeginsWith v s → Says o s

theorem leadingText?_eq_some {v : Value} {s : String} : leadingText? v = some s ↔ BeginsWith v s := by
  constructor
  · intro h
    unfold leadingText? at h
    split at h
    · cases h
      exact .text
    · cases h
      exact .list
    · cases h
  · intro h
    cases h <;> rfl

theorem objectMessage?_eq_some {o : Members} {s : String} :
    objectMessage? o = some s ↔ Says o s := by
  unfold objectMessage?
  constructor
  · intro h
    split at h
    · next reason hreason =>
        cases h
        exact .reason hreason
    · next hreason =>
        obtain ⟨⟨key, v⟩, hhead, hv⟩ := Option.bind_eq_some_iff.mp h
        obtain ⟨others, ho⟩ := List.head?_eq_some_iff.mp hhead
        exact .first hreason ho (leadingText?_eq_some.mp hv)
  · intro h
    cases h with
    | reason hreason => rw [hreason]
    | @first key _ v others hreason ho hv =>
        subst ho
        split
        · next reason heq => exact absurd heq (hreason reason)
        · exact leadingText?_eq_some.mpr hv

/-- The reader takes the texts of objects, and each for the object that it denotes. -/
theorem denotes_iff {body : Bytes} {o : Members} :
    Denotes body o ↔ Value.ofBytes body = .ok (.object o) := by
  rw [Value.ofBytes_eq_ok_iff]
  constructor
  · rintro ⟨ms, htext, hdepth, hgathers⟩
    exact ⟨_, htext, hdepth, congrArg Value.object (Members.gathers_iff.mp hgathers)⟩
  · rintro ⟨v, htext, hdepth, hsettled⟩
    cases v with
    | object ms =>
        exact ⟨ms, htext, hdepth, Members.gathers_iff.mpr (Value.object.inj hsettled)⟩
    | null | truth _ | number _ | text _ | list _ => cases hsettled

/-- A body that the reader refuses denotes nothing that could say anything. -/
theorem silent_of_refused {body : Bytes} (h : (Value.ofBytes body).toOption = none)
    (o : Members) (s : String) (hdenotes : Denotes body o) : ¬ Says o s := by
  rw [denotes_iff.mp hdenotes] at h
  cases h

/-- What the object says is the message. -/
theorem message_of_spoken {body : Bytes} {o : Members} {s : String} (h : Denotes body o)
    (hs : Says o s) : message body = s := by
  rw [message, denotes_iff.mp h]
  exact congrArg (Option.getD · _) (objectMessage?_eq_some.mpr hs)

theorem message_of_silent {body : Bytes} (h : ∀ o s, Denotes body o → ¬ Says o s) :
    message body = bodyMessage body := by
  unfold message
  split
  · next o hread =>
      have hnone : objectMessage? o = none :=
        Option.eq_none_iff_forall_ne_some.mpr fun s hs =>
          h o s (denotes_iff.mpr hread) (objectMessage?_eq_some.mp hs)
      rw [hnone]
      rfl
  · rfl

section Whole

variable {body : Bytes} {text : List Char}

theorem bodyMessage_of_repaired (h : Text.Utf8.Repaired body text) :
    bodyMessage body =
      if text.all Text.isBlank then "Expecting JSON as result" else String.ofList text := by
  unfold bodyMessage
  rw [Text.Utf8.repaired_iff.mp h]
  rfl

theorem bodyMessage_of_blank (h : Text.Utf8.Repaired body text)
    (hblank : ∀ c ∈ text, Text.IsWhiteSpace c) : bodyMessage body = "Expecting JSON as result" := by
  rw [bodyMessage_of_repaired h, if_pos]
  exact List.all_eq_true.mpr fun c hc => Text.isBlank_iff.mpr (hblank c hc)

theorem bodyMessage_of_not_blank (h : Text.Utf8.Repaired body text) {c : Char} (hc : c ∈ text)
    (hnot : ¬ Text.IsWhiteSpace c) : bodyMessage body = String.ofList text := by
  rw [bodyMessage_of_repaired h, if_neg]
  exact fun hall => hnot (Text.isBlank_iff.mp (List.all_eq_true.mp hall c hc))

end Whole

/-- **The message of every body, by precedence.** A body that is the text of an object, nested no deeper
than the reader goes, gives what the object says: its `reason`, or else the text of its first member.
Every text of the same members gives the same, however it is spelled, and so does every text of the
object; if there is a `reason`, it is enough that the values of this key are the same. All other bodies
give their whole text, broken octets replaced, or a fixed message if all of it is white space. -/
theorem message_by_precedence (body : Bytes) :
    (∀ ms o s, TextOf body (.object ms) → (Value.object ms).depth ≤ greatestDepth →
      Members.Gathers ms o → Says o s →
        message body = s ∧
        (∀ body', TextOf body' (.object ms) → message body' = s) ∧
        (∀ body', Denotes body' o → message body' = s) ∧
        (Members.get? "reason" o = some (.text s) → ∀ body' ms', TextOf body' (.object ms') →
          (Value.object ms').depth ≤ greatestDepth →
          Members.valuesOf "reason" ms' = Members.valuesOf "reason" ms → message body' = s)) ∧
    ((∀ o s, Denotes body o → ¬ Says o s) →
      (∃ text, Text.Utf8.Repaired body text) ∧
      ∀ text, Text.Utf8.Repaired body text →
        ((∀ c ∈ text, Text.IsWhiteSpace c) → message body = "Expecting JSON as result") ∧
        ((∃ c ∈ text, ¬ Text.IsWhiteSpace c) → message body = String.ofList text)) := by
  refine ⟨?_, fun hsilent => ⟨Text.Utf8.exists_repaired body, fun text htext => ?_⟩⟩
  · intro ms o s htext hdepth hgathers hs
    refine ⟨message_of_spoken ⟨ms, htext, hdepth, hgathers⟩ hs, ?_, ?_, ?_⟩
    · exact fun body' htext' => message_of_spoken ⟨ms, htext', hdepth, hgathers⟩ hs
    · exact fun body' hdenotes => message_of_spoken hdenotes hs
    · intro hreason body' ms' htext' hdepth' hvalues
      have hgathers' := Members.gathers_collected ms'
      refine message_of_spoken ⟨ms', htext', hdepth', hgathers'⟩ (.reason ?_)
      -- an object has the last of the values of a key, wherever they stand
      rw [hgathers'.values, hvalues, ← hgathers.values, hreason]
  · rw [message_of_silent hsilent]
    refine ⟨bodyMessage_of_blank htext, ?_⟩
    rintro ⟨c, hc, hnot⟩
    exact bodyMessage_of_not_blank htext hc hnot

/-- A `reason` goes before the list that stands in front of it, in every text of the two members. One
octet that begins no character is replaced. A body of blanks gives the fixed message. -/
theorem reason_before_list :
    (let ms : Members := [("errors", .list [.text "first"]), ("reason", .text "the reason")]
     message (Value.object ms).write = "the reason" ∧
      ∀ body, TextOf body (.object ms) → message body = "the reason") ∧
    message [0xFF] = "\uFFFD" ∧
    message (octets " \n") = "Expecting JSON as result" := by
  refine ⟨?_, ?_, ?_⟩
  · intro ms
    have htext : TextOf (Value.object ms).write (.object ms) :=
      ⟨[], by simpa using spells_write_of_reals_nil (v := .object ms) rfl Reader.ends_nil, rfl⟩
    have hreason : Members.get? "reason" (Members.collected (settledMembers ms)) =
        some (.text "the reason") := rfl
    obtain ⟨hmessage, hspelled, _⟩ := (message_by_precedence (Value.object ms).write).1 ms _ _ htext
      (by decide) (Members.gathers_collected ms) (.reason hreason)
    exact ⟨hmessage, hspelled⟩
  · obtain ⟨_, hmessage⟩ := (message_by_precedence [0xFF]).2 (silent_of_refused rfl)
    refine (hmessage [Text.Utf8.replacement] (Text.Utf8.repaired_iff.mpr rfl)).2
      ⟨_, List.mem_singleton.mpr rfl, ?_⟩
    have hcode : Text.Utf8.replacement.toNat = 0xFFFD := rfl
    unfold Text.IsWhiteSpace
    omega
  · obtain ⟨_, hmessage⟩ := (message_by_precedence (octets " \n")).2 (silent_of_refused rfl)
    have hblank : [' ', '\n'].all Text.isBlank = true := rfl
    exact (hmessage [' ', '\n'] (Text.Utf8.repaired_iff.mpr rfl)).1 fun c hc =>
      Text.isBlank_iff.mp (List.all_eq_true.mp hblank c hc)

end Http

end CrashCourier
