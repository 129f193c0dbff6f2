import CrashCourier.Proofs.Json.Spaced
import CrashCourier.Proofs.Report.Accepted
import CrashCourier.Proofs.Report.Diagnosis
import CrashCourier.Proofs.Report.Times

/-!
# Records with their members in another order

A record whose members come in another order is accepted just in case the record is, and it is the same
report with the same diagnosis (`decode_rearranged`).

Which texts are accepted goes by the values that their tokens mean, and a shape holds the same of values
that are the same but for the order of members. A diagnosis looks at members that the report models, and
at threads and frames in their order; reports that are the same agree on those, one by one.
-/

namespace CrashCourier

open Json

/-! ## Lists and options of what is the same -/

namespace Json

/-- Each of the named members of a record is the same as the other's. -/
def Fields.AllSame : (fields : Fields) → fields.Held → fields.Held → Prop
  | .nil, (), () => True
  | .cons _ presence shape rest, (a, as), (b, bs) =>
    presence.same shape.same a b = true ∧ rest.AllSame as bs

theorem Fields.allSame_of_same :
    ∀ {fields : Fields} {as bs : fields.Held}, fields.same as bs = true → fields.AllSame as bs
  | .nil, _, _, _ => trivial
  | .cons _ _ _ _, (_, _), (_, _), h => by
      obtain ⟨hfirst, hothers⟩ := Bool.and_eq_true_iff.mp h
      exact ⟨hfirst, allSame_of_same hothers⟩

theorem Shape.allSame_of_same {kind : String} {fields : Fields} {a b : (Shape.record kind fields).Held}
    (h : (Shape.record kind fields).same a b = true) : fields.AllSame a.1 b.1 :=
  Fields.allSame_of_same (Bool.and_eq_true_iff.mp h).1

theorem Record.forall₂_of_same {α : Type} [Record α] {as bs : List α}
    (h : sameList (shape α).same (as.map held) (bs.map held) = true) :
    List.Forall₂ (fun a b => same a b = true) as bs := by
  induction as generalizing bs with
  | nil =>
      cases bs with
      | nil => exact .nil
      | cons => exact absurd h Bool.false_ne_true
  | cons a as ih =>
      cases bs with
      | nil => exact absurd h Bool.false_ne_true
      | cons b bs =>
          obtain ⟨hfirst, hothers⟩ := Bool.and_eq_true_iff.mp h
          exact .cons hfirst (ih hothers)

theorem Presence.rel_of_same {α : Type} {same : α → α → Bool} {a b : Option α}
    (h : Presence.same same .optional a b = true) : Option.Rel (fun a b => same a b = true) a b := by
  cases a with
  | none =>
      cases b with
      | none => exact .none
      | some => exact absurd h Bool.false_ne_true
  | some a =>
      cases b with
      | none => exact absurd h Bool.false_ne_true
      | some b => exact .some h

theorem Record.rel_of_same {α : Type} [Record α] {a b : Option α}
    (h : Presence.same (shape α).same .optional (a.map held) (b.map held) = true) :
    Option.Rel (fun a b => same a b = true) a b := by
  have hheld := Presence.rel_of_same h
  cases a with
  | none =>
      cases b with
      | none => exact .none
      | some => cases hheld
  | some a =>
      cases b with
      | none => cases hheld
      | some b =>
          cases hheld with
          | some hab => exact .some hab

theorem eq_of_same_text {a b : Option String}
    (h : Presence.same Shape.text.same .optional a b = true) : a = b := by
  cases Presence.rel_of_same h with
  | none => rfl
  | some hab => exact congrArg some (eq_of_beq (α := String) hab)

end Json

section Rel

variable {α β : Type} {r : α → α → Prop}

theorem bind_eq_of_rel {a b : Option α} (h : Option.Rel r a b) {f : α → Option β}
    (hf : ∀ x y, r x y → f x = f y) : a.bind f = b.bind f := by
  cases h with
  | none => rfl
  | some hxy => exact hf _ _ hxy

theorem any_eq_of_rel {a b : Option α} (h : Option.Rel r a b) {p : α → Bool}
    (hp : ∀ x y, r x y → p x = p y) : a.any p = b.any p := by
  cases h with
  | none => rfl
  | some hxy => exact hp _ _ hxy

theorem rel_bind {s : β → β → Prop} {a b : Option α} (h : Option.Rel r a b) {f g : α → Option β}
    (hfg : ∀ x y, r x y → Option.Rel s (f x) (g y)) : Option.Rel s (a.bind f) (b.bind g) := by
  cases h with
  | none => exact .none
  | some hxy => exact hfg _ _ hxy

/-- The first members that have a property are found beside each other. -/
theorem rel_find? {p q : α → Bool} {as bs : List α} (h : List.Forall₂ r as bs)
    (hpq : ∀ a b, r a b → p a = q b) : Option.Rel r (as.find? p) (bs.find? q) := by
  induction h with
  | nil => exact .none
  | @cons a b _ _ hab _ ih =>
      rw [List.find?_cons, List.find?_cons, ← hpq a b hab]
      cases p a with
      | true => exact .some hab
      | false => exact ih

end Rel

/-! ## Parts of a report that are the same -/

theorem Frame.same_names {f g : Frame} (h : Record.same f g = true) :
    f.objectName = g.objectName ∧ f.symbolName = g.symbolName := by
  obtain ⟨_, _, hobject, _, hsymbol, _⟩ := Shape.allSame_of_same h
  exact ⟨eq_of_same_text hobject, eq_of_same_text hsymbol⟩

theorem Backtrace.same_contents {b c : Backtrace} (h : Record.same b c = true) :
    List.Forall₂ (fun f g => Record.same f g = true) b.contents c.contents := by
  obtain ⟨hcontents, _⟩ := Shape.allSame_of_same h
  exact Record.forall₂_of_same hcontents

theorem Stack.same_overflow {s t : Stack} (h : Record.same s t = true) : s.overflow = t.overflow := by
  obtain ⟨_, _, _, _, hoverflow, _⟩ := Shape.allSame_of_same h
  exact eq_of_beq (α := Bool) hoverflow

theorem Thread.same_parts {t u : Thread} (h : Record.same t u = true) :
    t.crashed = u.crashed ∧ Record.same t.backtrace u.backtrace = true ∧
      Option.Rel (fun s s' => Record.same s s' = true) t.stack u.stack := by
  obtain ⟨hbacktrace, hcrashed, _, _, _, hstack, _⟩ := Shape.allSame_of_same h
  exact ⟨eq_of_beq (α := Bool) hcrashed, hbacktrace, Record.rel_of_same hstack⟩

theorem Mach.same_exceptionName {m n : Mach} (h : Record.same m n = true) :
    m.exceptionName = n.exceptionName := by
  obtain ⟨_, _, _, hname, _⟩ := Shape.allSame_of_same h
  exact eq_of_same_text hname

theorem Signal.same_name {s t : Signal} (h : Record.same s t = true) : s.name = t.name := by
  obtain ⟨_, _, hname, _⟩ := Shape.allSame_of_same h
  exact eq_of_same_text hname

theorem CrashError.same_parts {e f : CrashError} (h : Record.same e f = true) :
    e.kind = f.kind ∧ e.address = f.address ∧ e.called = f.called := by
  obtain ⟨haddress, hmach, hsignal, hkind, _⟩ := Shape.allSame_of_same h
  have hmachs : Option.Rel (fun m n => Record.same m n = true) e.mach f.mach :=
    Record.rel_of_same hmach
  have hexception : e.machExceptionName = f.machExceptionName :=
    bind_eq_of_rel hmachs fun _ _ => Mach.same_exceptionName
  have hname : e.signalName = f.signalName := Signal.same_name hsignal
  refine ⟨eq_of_beq (α := String) hkind, eq_of_beq (α := UInt64) haddress, ?_⟩
  rw [called, called, hexception, hname]

namespace CrashReport

theorem same_parts {r r' : CrashReport} (h : r.same r' = true) :
    Record.same r.crash.error r'.crash.error = true ∧
      List.Forall₂ (fun t u => Record.same t u = true) r.crash.threads r'.crash.threads ∧
      r.processName = r'.processName := by
  have hsame : Record.same r r' = true := h
  obtain ⟨_, hcrash, _, _, hidentity, _⟩ := Shape.allSame_of_same hsame
  have hsameCrash : Record.same r.crash r'.crash = true := hcrash
  obtain ⟨herror, hthreads, _⟩ := Shape.allSame_of_same hsameCrash
  have hsameIdentity : Record.same r.report r'.report = true := hidentity
  obtain ⟨_, hprocess, _⟩ := Shape.allSame_of_same hsameIdentity
  exact ⟨herror, Record.forall₂_of_same hthreads, eq_of_beq (α := String) hprocess⟩

/-- **Reports that are the same show the same symptoms.** -/
theorem symptoms_of_same {r r' : CrashReport} (h : r.same r' = true) : r.symptoms = r'.symptoms := by
  obtain ⟨herror, hthreads, hprocess⟩ := same_parts h
  obtain ⟨hkind, haddress, hcalled⟩ := CrashError.same_parts herror
  have hthread : Option.Rel (fun t u => Record.same t u = true) r.crashedThread r'.crashedThread :=
    rel_find? hthreads fun t u htu => (Thread.same_parts htu).1
  -- a diagnosis looks at the thread that crashed, its stack and its first frame in the application
  have hoverflow : r.crashedThread.any (·.isStackOverflow) =
      r'.crashedThread.any (·.isStackOverflow) := by
    refine any_eq_of_rel hthread fun t u htu => ?_
    obtain ⟨_, _, hstack⟩ := Thread.same_parts htu
    exact any_eq_of_rel hstack fun _ _ => Stack.same_overflow
  have hframe : Option.Rel (fun f g => Record.same f g = true) r.firstAppFrame r'.firstAppFrame := by
    refine rel_bind hthread fun t u htu => ?_
    obtain ⟨_, hbacktrace, _⟩ := Thread.same_parts htu
    refine rel_find? (Backtrace.same_contents hbacktrace) fun f g hfg => ?_
    rw [(Frame.same_names hfg).1, hprocess]
  have hname := bind_eq_of_rel hframe fun f g hfg => (Frame.same_names hfg).2
  have hsymbol : r.symbol = r'.symbol := congrArg (Option.getD · unknownSymbol) hname
  exact Symptoms.ext hkind hoverflow hcalled haddress hsymbol

/-- Reports that are the same have the same diagnosis. -/
theorem diagnose_of_same {r r' : CrashReport} (h : r.same r' = true) : diagnose r = diagnose r' := by
  have hindicates := r'.indicates_diagnose
  rw [← symptoms_of_same h] at hindicates
  exact r.indicates_diagnose.unique hindicates

/-! ## Another order of members -/

variable {a b : Bytes} {d e : Draft}

/-- What is read of a record is read of the other as well. -/
theorem exists_decode_of_rearranged (ha : DraftOf a d) (hb : DraftOf b e) (h : d.Rearranged e)
    (hkeys : d.KeysDiffer) {r : CrashReport} (hr : decode a = .ok r) :
    ∃ r', decode b = .ok r' ∧ r.same r' = true := by
  obtain ⟨v, hv, hdepth, hholds⟩ := (Record.ofBytes_iff_holds shape_distinct).mp hr
  have hmeans := (textOf_iff_means ha).mp hv
  obtain ⟨w, hw, halike⟩ := h.exists_means hmeans
  obtain ⟨held, hheld, hsame⟩ :=
    Shape.Holds.exists_alike shape halike (hkeys.settled hmeans) hholds
  refine ⟨ofHeld held, (Record.ofBytes_iff_holds shape_distinct).mpr ⟨w, ?_, ?_, ?_⟩, ?_⟩
  · exact (textOf_iff_means hb).mpr hw
  · exact Nat.le_trans halike.depth_le hdepth
  · show shape.Holds w (ofHeld held).held
    rw [held_ofHeld]
    exact hheld
  · show shape.same r.held (ofHeld held).held = true
    rw [held_ofHeld]
    exact hsame

/-- **The order of members does not count.** Of two texts without repeated keys that differ in the order
of members, at any depth, and in the blanks between their tokens, both are accepted or neither is, and
the reports are the same and have the same diagnosis. -/
theorem decode_rearranged (ha : DraftOf a d) (hb : DraftOf b e) (h : d.Rearranged e)
    (hkeys : d.KeysDiffer) :
    ((∃ r, decode a = .ok r) ↔ ∃ r, decode b = .ok r) ∧
      ∀ r r', decode a = .ok r → decode b = .ok r' →
        r.same r' = true ∧ diagnose r = diagnose r' := by
  refine ⟨⟨?_, ?_⟩, ?_⟩
  · rintro ⟨r, hr⟩
    obtain ⟨r', hr', _⟩ := exists_decode_of_rearranged ha hb h hkeys hr
    exact ⟨r', hr'⟩
  · rintro ⟨r, hr⟩
    obtain ⟨r', hr', _⟩ := exists_decode_of_rearranged hb ha h.symm (h.keysDiffer hkeys) hr
    exact ⟨r', hr'⟩
  · intro r r' hr hr'
    obtain ⟨s, hs, hsame⟩ := exists_decode_of_rearranged ha hb h hkeys hr
    obtain rfl : s = r' := Except.ok.inj (hs.symm.trans hr')
    exact ⟨hsame, diagnose_of_same hsame⟩

/-- A report with its members in reverse, at all depths, and on lines of their own. -/
theorem decode_reversed :
    ∃ r, decode ((wholeTime 60).draft.reversed.text [0x0A, 0x20]) = .ok r ∧
      (timed (Number.natural 60).nearest).same r = true ∧ diagnose r = none := by
  have hsettled : (wholeTime 60).settled = wholeTime 60 := by rfl
  have hrearranged := (wholeTime 60).draft.rearranged_reversed
  have hformed := hrearranged.formed (wholeTime 60).formed_draft
  have hblank : Blank [0x0A, 0x20] := by rfl
  obtain ⟨haccepted, hsame⟩ := decode_rearranged (draftOf_write (wholeTime 60))
    (draftOf_text hformed hblank) hrearranged (Value.keysDiffer_draft hsettled)
  obtain ⟨r, hr⟩ := haccepted.mp ⟨_, decode_wholeTime 60⟩
  obtain ⟨hreports, hdiagnosis⟩ := hsame _ r (decode_wholeTime 60) hr
  exact ⟨r, hr, hreports, hdiagnosis.symm.trans (by decide)⟩

end CrashReport

end CrashCourier
