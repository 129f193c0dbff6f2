import CrashCourier.Proofs.Json.Draft

/-!
# Readers of drafts

A reader takes a draft if it takes it off every text in which the draft stands (`Takes`). A reader that
goes by the tree takes what a draft means (`takes_of_means`).

Where a text is followed by its draft, every step of a loop is known beforehand, and it is enough that these
steps make the input shorter (`gives_of_descends`). Nothing has to be known of what the loop would do with
other texts.
-/

namespace CrashCourier.Json

namespace Reader

/-! ## Loops that were followed -/

section Loops

variable {σ α : Type} {step : σ → Reader (σ ⊕ α)}

/-- Steps lead from a state to a result, and each but the last made the input shorter. -/
inductive Descends (step : σ → Reader (σ ⊕ α)) : σ → Bytes → α → Bytes → Prop where
  | done {s : σ} {input rest : Bytes} {a : α} :
      Gives (step s) input (.inr a) rest → Descends step s input a rest
  | more {s s' : σ} {input mid rest : Bytes} {a : α} :
      Gives (step s) input (.inl s') mid → mid.length < input.length →
      Descends step s' mid a rest → Descends step s input a rest

theorem loop_of_descends {s : σ} {input rest : Bytes} {a : α} (h : Descends step s input a rest)
    {fuel : Bytes} (hfuel : input.length ≤ fuel.length) :
    Gives (loop step fuel s) input a rest := by
  induction h generalizing fuel with
  | done hstep =>
      cases fuel with
      | nil => exact gives_bind.mpr ⟨_, _, hstep, gives_pure.mpr ⟨rfl, rfl⟩⟩
      | cons => exact gives_bind.mpr ⟨_, _, hstep, gives_pure.mpr ⟨rfl, rfl⟩⟩
  | more hstep hlt _ ih =>
      cases fuel with
      | nil => exact absurd (Nat.lt_of_lt_of_le hlt hfuel) (Nat.not_lt_zero _)
      | cons b fuel =>
          exact gives_bind.mpr ⟨_, _, hstep, ih (Nat.le_of_lt_succ (Nat.lt_of_lt_of_le hlt hfuel))⟩

/-- **A loop gives what its steps led to.** -/
theorem gives_of_descends {s : σ} {input rest : Bytes} {a : α} (h : Descends step s input a rest) :
    Gives (repeated step s) input a rest :=
  loop_of_descends h (Nat.le_refl _)

end Loops

end Reader

open Reader

/-! ## Parts of a text -/

namespace Follows

variable {input mid after more last rest key : Bytes} {first : Bool} {d : Draft}

theorem length_lt_of_dropWhile {b : UInt8} {tail : Bytes}
    (h : input.dropWhile isBlank = b :: tail) : tail.length < input.length := by
  have hle := length_dropWhile_le input
  rw [h] at hle
  exact hle

/-- A value begins with an octet that begins one. -/
theorem head (h : Follows input (.value d) rest) :
    ∃ b tail, input.dropWhile isBlank = b :: tail ∧ b ≠ 0x5D := by
  cases hinput : input.dropWhile isBlank with
  | nil =>
      cases h with
      | token hw htoken _ =>
          obtain ⟨b, _, _, rfl, _⟩ := hw.head
          cases hinput.symm.trans htoken
      | list hlist _ => cases hinput.symm.trans hlist
      | object hobject _ => cases hinput.symm.trans hobject
  | cons b tail => exact ⟨b, tail, rfl, fun hb => h.ne_close (hb ▸ hinput)⟩

/-- Blanks in front of a value do not count. -/
theorem dropWhile (h : Follows input (.value d) rest) :
    Follows (input.dropWhile isBlank) (.value d) rest := by
  have hidem := List.dropWhile_idempotent (p := isBlank) input
  cases h with
  | token hw hinput hrest => exact .token hw (hidem.trans hinput) hrest
  | list hinput hitems => exact .list (hidem.trans hinput) hitems
  | object hinput hmembers => exact .object (hidem.trans hinput) hmembers

/-- What stands behind a key and its colon is shorter. -/
theorem length_lt_of_key (hsep : Separated first input mid)
    (hmid : mid.dropWhile isBlank = key ++ after)
    (hcolon : after.dropWhile isBlank = 0x3A :: more) : more.length < input.length := by
  have hmore := length_lt_of_dropWhile hcolon
  have hle := length_dropWhile_le mid
  have hseple := hsep.length
  rw [hmid, List.length_append] at hle
  omega

/-- A part makes the text shorter. -/
theorem length_lt {part : Draft.Part} (h : Follows input part rest) :
    rest.length < input.length := by
  induction h with
  | @token input w rest hw hinput _ =>
      obtain ⟨b, tail, _, rfl, _⟩ := hw.head
      have hlt : (tail ++ rest).length < input.length := length_lt_of_dropWhile hinput
      rw [List.length_append] at hlt
      omega
  | list hinput _ ih | object hinput _ ih => exact Nat.lt_trans ih (length_lt_of_dropWhile hinput)
  | endOfList hclose | endOfObject hclose => exact length_lt_of_dropWhile hclose
  | item hsep _ _ ihd ihds => exact Nat.lt_trans ihds (Nat.lt_of_lt_of_le ihd hsep.length)
  | member hsep _ hmid hcolon _ _ ihd ihms =>
      exact Nat.lt_trans ihms (Nat.lt_trans ihd (length_lt_of_key hsep hmid hcolon))

/-- The key is read, and the member by the reader for it. -/
theorem gives_memberStep {σ : Type} {member : String → σ → Reader σ} {name : String} {s t : σ}
    (hsep : Separated first input mid) (hkey : IsString key)
    (hmid : mid.dropWhile isBlank = key ++ after) (hname : Gives string key name [])
    (hmember : Gives (member name s) after t rest) :
    Gives (memberStep member (first, s)) input (.inl (false, t)) rest := by
  have hread : Gives string (key ++ after) name after := (gives_string_iff hkey).mpr ⟨rfl, hname⟩
  have hnext : Gives (nextKey first) input true (key ++ after) :=
    gives_nextKey_true.mpr ⟨mid, hsep, hmid.symm, hkey.head after⟩
  exact gives_memberStep_inl.mpr ⟨_, name, after, hnext, hread, hmember, rfl⟩

end Follows

/-! ## Values -/

section Takes

variable {α : Type} {d : Draft}

/-- The reader takes the draft as `a`, wherever it stands. -/
def Takes (r : Reader α) (d : Draft) (a : α) : Prop :=
  ∀ ⦃input rest : Bytes⦄, Follows input (.value d) rest → Gives r input a rest

/-- **A reader that goes by the tree takes what a draft means.** -/
theorem takes_of_means {r : Reader α} {of? : Value → Option α} {depth : Nat}
    (h : ReadsAs r (raw depth) of?) {v : Value} (hd : d.Means v) (hdepth : v.depth ≤ depth) {a : α}
    (ha : of? v = some a) : Takes r d a := by
  intro input rest hfollows
  have hspells : Spells input (.value v) rest := (hfollows.read v rest).mpr ⟨rfl, hd⟩
  exact h.mpr ⟨v, gives_raw_iff.mpr ⟨hspells, hdepth⟩, ha⟩

theorem takes_text {s : String} (hd : d.Means (.text s)) : Takes text d s :=
  takes_of_means (readsAs_text 0) hd (Nat.le_refl 0) rfl

theorem takes_natural {n : UInt64} (hd : d.Means (.number (.natural n))) : Takes natural d n :=
  takes_of_means (readsAs_natural 0) hd (Nat.le_refl 0) rfl

/-- What a reader takes the draft as is what it reads of a text of the draft. -/
theorem run_of_takes {r : Reader α} {a : α} {input : Bytes} (hr : Takes r d a)
    (h : DraftOf input d) : run r input = .ok a := by
  obtain ⟨rest, hfollows, hrest⟩ := h
  exact run_eq_ok.mpr ⟨rest, hr hfollows, hrest⟩

end Takes

end CrashCourier.Json
