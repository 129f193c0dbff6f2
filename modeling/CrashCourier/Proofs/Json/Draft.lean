import CrashCourier.Proofs.Json.Alike
import CrashCourier.Proofs.Json.Token
import Mathlib.Data.List.Perm.Basic

/-!
# Documents before they are read

A draft is a document as a tree of tokens, with its strings and numerals as they are written. Every
well-formed text is that of a draft (`DraftOf`), also if the reader does not take it: because a number is
out of range, a string holds half a character, or it is nested too deep. Blanks between the tokens are no
part of a draft.

What a text is read as is what its draft means, token by token, and each text that is read has a draft
(`textOf_iff_exists_draftOf`). So it does not depend on the blanks, and drafts that differ in the order
of members mean values that do (`Draft.Rearranged.exists_means`).
-/

namespace CrashCourier.Json

open Reader

/-- A document as a tree of tokens. -/
inductive Draft where
  /-- A word, a string or a numeral. -/
  | token (w : Bytes)
  | list (items : List Draft)
  | object (members : List (Bytes × Draft))

/-- Induction on a draft, with the items of an array and the members of an object at hand. -/
@[elab_as_elim]
theorem Draft.memRec {motive : Draft → Prop} (token : ∀ w, motive (.token w))
    (list : ∀ ds, (∀ d ∈ ds, motive d) → motive (.list ds))
    (object : ∀ ms : List (Bytes × Draft), (∀ m ∈ ms, motive m.2) → motive (.object ms))
    (d : Draft) : motive d :=
  match d with
  | .token w => token w
  | .list ds => list ds (items ds)
  | .object ms => object ms (members ms)
where
  items : ∀ ds : List Draft, ∀ d ∈ ds, motive d
    | [] => List.forall_mem_nil _
    | d :: ds => List.forall_mem_cons.mpr ⟨memRec token list object d, items ds⟩
  members : ∀ ms : List (Bytes × Draft), ∀ m ∈ ms, motive m.2
    | [] => List.forall_mem_nil _
    | (_, d) :: ms => List.forall_mem_cons.mpr ⟨memRec token list object d, members ms⟩

/-- A part of a draft. -/
inductive Draft.Part where
  | value (d : Draft)
  /-- What is left of an array, its closing bracket included; `first` says that no item came yet. -/
  | items (first : Bool) (ds : List Draft)
  /-- What is left of an object, its closing brace included. -/
  | members (first : Bool) (ms : List (Bytes × Draft))

/-- The octets begin with the part, and `rest` is left of them. Blanks may stand before each token, and
a numeral ends where it could not go on. -/
inductive Follows : (input : Bytes) → Draft.Part → (rest : Bytes) → Prop where
  | token {input w rest : Bytes} :
      IsToken w → input.dropWhile isBlank = w ++ rest → (IsNumeral w → Ends rest) →
      Follows input (.value (.token w)) rest
  | list {input tail rest : Bytes} {ds : List Draft} :
      input.dropWhile isBlank = 0x5B :: tail → Follows tail (.items true ds) rest →
      Follows input (.value (.list ds)) rest
  | object {input tail rest : Bytes} {ms : List (Bytes × Draft)} :
      input.dropWhile isBlank = 0x7B :: tail → Follows tail (.members true ms) rest →
      Follows input (.value (.object ms)) rest
  | endOfList {input rest : Bytes} {first : Bool} :
      input.dropWhile isBlank = 0x5D :: rest → Follows input (.items first []) rest
  | item {input mid after rest : Bytes} {first : Bool} {d : Draft} {ds : List Draft} :
      Separated first input mid → Follows mid (.value d) after →
      Follows after (.items false ds) rest → Follows input (.items first (d :: ds)) rest
  | endOfObject {input rest : Bytes} {first : Bool} :
      input.dropWhile isBlank = 0x7D :: rest → Follows input (.members first []) rest
  | member {input mid after more last rest key : Bytes} {first : Bool} {d : Draft}
      {ms : List (Bytes × Draft)} :
      Separated first input mid → IsString key → mid.dropWhile isBlank = key ++ after →
      after.dropWhile isBlank = 0x3A :: more → Follows more (.value d) last →
      Follows last (.members false ms) rest → Follows input (.members first ((key, d) :: ms)) rest

/-- The text is that of the draft, and nothing else but blanks. -/
def DraftOf (input : Bytes) (d : Draft) : Prop :=
  ∃ rest, Follows input (.value d) rest ∧ rest.dropWhile isBlank = []

/-! ## What a draft means -/

mutual

/-- The value that the tokens of a draft are read as, each by itself. -/
inductive Draft.Means : Draft → Value → Prop
  | token {w : Bytes} {v : Value} : IsToken w → Spells w (.value v) [] → Draft.Means (.token w) v
  | list {ds : List Draft} {vs : List Value} :
    List.Forall₂ Draft.Means ds vs → Draft.Means (.list ds) (.list vs)
  | object {ms : List (Bytes × Draft)} {vs : List (String × Value)} :
    MeansMembers ms vs → Draft.Means (.object ms) (.object vs)

/-- The members that keys and values are read as. -/
inductive MeansMembers : List (Bytes × Draft) → List (String × Value) → Prop
  | nil : MeansMembers [] []
  | cons {key : Bytes} {s : String} {d : Draft} {v : Value} {ms : List (Bytes × Draft)}
    {vs : List (String × Value)} : Gives string key s [] → Draft.Means d v → MeansMembers ms vs →
    MeansMembers ((key, d) :: ms) ((s, v) :: vs)

end

namespace Follows

/-- What the octets are read as is what the part means. -/
def Read (input rest : Bytes) : Draft.Part → Prop
  | .value d => ∀ v rest', Spells input (.value v) rest' ↔ rest' = rest ∧ d.Means v
  | .items first ds => ∀ vs rest',
      Spells input (.items first vs) rest' ↔ rest' = rest ∧ List.Forall₂ Draft.Means ds vs
  | .members first ms => ∀ vs rest',
      Spells input (.members first vs) rest' ↔ rest' = rest ∧ MeansMembers ms vs

/-- A value does not begin as the end of a list. -/
theorem ne_close {input rest tail : Bytes} {d : Draft} (h : Follows input (.value d) rest) :
    input.dropWhile isBlank ≠ 0x5D :: tail := by
  intro hclose
  cases h with
  | token hw hinput _ =>
      obtain ⟨b, _, _, rfl, hb⟩ := hw.head
      rw [hclose] at hinput
      cases hinput
      cases hb
  | list hinput _ | object hinput _ => cases hclose.symm.trans hinput

theorem read {input rest : Bytes} {part : Draft.Part} (h : Follows input part rest) :
    Read input rest part := by
  -- each form of a part rules out the other forms of what is read, by the octet that is ahead
  induction h with
  | token hw hinput hrest =>
      intro v rest'
      rw [spells_token hw hinput hrest]
      refine and_congr_right' ⟨.token hw, ?_⟩
      rintro ⟨⟩
      assumption
  | list hinput _ ih =>
      intro v rest'
      constructor
      · intro h
        obtain ⟨vs, rfl, hvs⟩ := h.list_of_cons hinput
        obtain ⟨hrest, hmeans⟩ := (ih vs rest').mp hvs
        exact ⟨hrest, .list hmeans⟩
      · rintro ⟨hrest, hmeans⟩
        cases hmeans with
        | list hmeans => exact .list hinput ((ih _ rest').mpr ⟨hrest, hmeans⟩)
  | object hinput _ ih =>
      intro v rest'
      constructor
      · intro h
        obtain ⟨vs, rfl, hvs⟩ := h.object_of_cons hinput
        obtain ⟨hrest, hmeans⟩ := (ih vs rest').mp hvs
        exact ⟨hrest, .object hmeans⟩
      · rintro ⟨hrest, hmeans⟩
        cases hmeans with
        | object hmeans => exact .object hinput ((ih _ rest').mpr ⟨hrest, hmeans⟩)
  | endOfList hclose =>
      intro vs rest'
      constructor
      · intro h
        obtain ⟨rfl, hrest⟩ := h.items_of_close hclose
        exact ⟨hrest, .nil⟩
      · rintro ⟨rfl, hmeans⟩
        cases hmeans
        exact .endOfList hclose
  | item hsep hd _ ihd ihds =>
      intro vs rest'
      constructor
      · intro h
        cases h with
        | endOfList hclose => exact absurd hclose (hsep.ne_close (by decide) hd.ne_close)
        | item hsep' hv hvs =>
            obtain rfl := hsep.eq hsep'
            obtain ⟨rfl, hmeans⟩ := (ihd _ _).mp hv
            obtain ⟨hrest, hothers⟩ := (ihds _ _).mp hvs
            exact ⟨hrest, .cons hmeans hothers⟩
      · rintro ⟨hrest, hmeans⟩
        cases hmeans with
        | cons hmeans hothers =>
            exact .item hsep ((ihd _ _).mpr ⟨rfl, hmeans⟩) ((ihds _ _).mpr ⟨hrest, hothers⟩)
  | endOfObject hclose =>
      intro vs rest'
      constructor
      · intro h
        obtain ⟨rfl, hrest⟩ := h.members_of_close hclose
        exact ⟨hrest, .nil⟩
      · rintro ⟨rfl, hmeans⟩
        cases hmeans
        exact .endOfObject hclose
  | @member input mid after more last rest key first d ms hsep hkey hmid hcolon hd _ ihd ihms =>
      intro vs rest'
      obtain ⟨tail, htail⟩ := hkey.head after
      constructor
      · intro h
        cases h with
        | endOfObject hclose =>
            -- a key begins with a quote
            refine absurd hclose (hsep.ne_close (by decide) ?_)
            rw [hmid, htail]
            exact nofun
        | member hsep' hquote' hread hcolon' hv hms =>
            obtain rfl := hsep.eq hsep'
            rw [← hquote', hmid] at hread
            obtain ⟨rfl, hs⟩ := (gives_string_iff hkey).mp hread
            cases hcolon.symm.trans hcolon'
            obtain ⟨rfl, hmeans⟩ := (ihd _ _).mp hv
            obtain ⟨hrest, hothers⟩ := (ihms _ _).mp hms
            exact ⟨hrest, .cons hs hmeans hothers⟩
      · rintro ⟨hrest, hmeans⟩
        cases hmeans with
        | cons hs hmeans hothers =>
            have hread : Gives string (key ++ after) _ after := (gives_string_iff hkey).mpr ⟨rfl, hs⟩
            rw [htail] at hread
            exact .member hsep (hmid.trans htail) hread hcolon ((ihd _ _).mpr ⟨rfl, hmeans⟩)
              ((ihms _ _).mpr ⟨hrest, hothers⟩)

end Follows

/-- **A text of a draft is the text of what the draft means.** -/
theorem textOf_iff_means {input : Bytes} {d : Draft} (h : DraftOf input d) {v : Value} :
    TextOf input v ↔ d.Means v := by
  obtain ⟨rest, hfollows, hrest⟩ := h
  have hread : ∀ v rest', Spells input (.value v) rest' ↔ rest' = rest ∧ d.Means v := hfollows.read
  constructor
  · rintro ⟨rest', hspells, _⟩
    exact ((hread v rest').mp hspells).2
  · exact fun hmeans => ⟨rest, (hread v rest).mpr ⟨rfl, hmeans⟩, hrest⟩

/-! ### Each text that is read has a draft -/

/-- Blanks end a numeral. -/
theorem ends_of_dropWhile {input : Bytes} (h : Ends (input.dropWhile isBlank)) : Ends input := by
  cases input with
  | nil => exact ends_nil
  | cons b tail =>
      cases hb : isBlank b with
      | true =>
          unfold isBlank at hb
          simp only [Bool.or_eq_true, beq_iff_eq] at hb
          intro c hc
          obtain rfl : b = c := Option.some.inj hc
          rcases hb with ((rfl | rfl) | rfl) | rfl <;> decide
      | false => rwa [List.dropWhile_cons, hb] at h

/-- What goes on behind an item ends a numeral. -/
theorem Spells.ends_of_items {input rest : Bytes} {vs : List Value}
    (h : Spells input (.items false vs) rest) : Ends input := by
  refine ends_of_dropWhile ?_
  cases h with
  | endOfList hclose => exact hclose ▸ ends_cons (.inr (.inl rfl))
  | item hsep _ _ =>
      have hcomma : input.dropWhile isBlank = 0x2C :: _ := hsep
      exact hcomma ▸ ends_cons (.inl rfl)

theorem Spells.ends_of_members {input rest : Bytes} {vs : List (String × Value)}
    (h : Spells input (.members false vs) rest) : Ends input := by
  refine ends_of_dropWhile ?_
  cases h with
  | endOfObject hclose => exact hclose ▸ ends_cons (.inr (.inr rfl))
  | member hsep _ _ _ _ _ =>
      have hcomma : input.dropWhile isBlank = 0x2C :: _ := hsep
      exact hcomma ▸ ends_cons (.inl rfl)

/-- The octets are those of a part of a draft. -/
def Part.Drafted (input rest : Bytes) : Part → Prop
  | .value _ => Ends rest → ∃ d, Follows input (.value d) rest
  | .items first _ => ∃ ds, Follows input (.items first ds) rest
  | .members first _ => ∃ ms, Follows input (.members first ms) rest

theorem Spells.drafted {input rest : Bytes} {part : Part} (h : Spells input part rest) :
    part.Drafted input rest := by
  -- only a value by itself may go on as a numeral would; in an array or object it cannot
  induction h with
  | null hinput => exact fun hrest => ⟨_, .token .null hinput fun _ => hrest⟩
  | truth hinput => exact fun hrest => ⟨_, .token (.truth _) hinput fun _ => hrest⟩
  | text hinput hs =>
      obtain ⟨w, hw, htail⟩ := exists_isString hs
      exact fun hrest => ⟨_, .token (.text hw) (hinput.trans htail) fun _ => hrest⟩
  | number hn _ =>
      obtain ⟨w, hw, hinput⟩ := exists_isNumeral hn
      exact fun hrest => ⟨_, .token (.number hw) hinput fun _ => hrest⟩
  | list hinput _ ih =>
      obtain ⟨ds, hds⟩ := ih
      exact fun _ => ⟨_, .list hinput hds⟩
  | object hinput _ ih =>
      obtain ⟨ms, hms⟩ := ih
      exact fun _ => ⟨_, .object hinput hms⟩
  | endOfList hclose => exact ⟨[], .endOfList hclose⟩
  | item hsep _ hvs ihv ihvs =>
      obtain ⟨d, hd⟩ := ihv hvs.ends_of_items
      obtain ⟨ds, hds⟩ := ihvs
      exact ⟨d :: ds, .item hsep hd hds⟩
  | endOfObject hclose => exact ⟨[], .endOfObject hclose⟩
  | member hsep hmid hkey hcolon _ hms ihv ihms =>
      obtain ⟨key, hw, htail⟩ := exists_isString hkey
      obtain ⟨d, hd⟩ := ihv hms.ends_of_members
      obtain ⟨ds, hds⟩ := ihms
      exact ⟨(key, d) :: ds, .member hsep hw (hmid.trans htail) hcolon hd hds⟩

/-- **The texts of a value are those of the drafts that mean it.** -/
theorem textOf_iff_exists_draftOf {input : Bytes} {v : Value} :
    TextOf input v ↔ ∃ d, DraftOf input d ∧ d.Means v := by
  constructor
  · intro h
    obtain ⟨rest, hspells, hrest⟩ := h
    have hdrafted : Ends rest → ∃ d, Follows input (.value d) rest := hspells.drafted
    obtain ⟨d, hd⟩ := hdrafted (ends_of_dropWhile (hrest ▸ ends_nil))
    have hdraft : DraftOf input d := ⟨rest, hd, hrest⟩
    exact ⟨d, hdraft, (textOf_iff_means hdraft).mp ⟨rest, hspells, hrest⟩⟩
  · rintro ⟨d, hdraft, hmeans⟩
    exact (textOf_iff_means hdraft).mpr hmeans

/-! ## Keys that differ -/

theorem meansMembers_iff {ms : List (Bytes × Draft)} {vs : List (String × Value)} :
    MeansMembers ms vs ↔
      List.Forall₂ (fun m n => Gives string m.1 n.1 [] ∧ m.2.Means n.2) ms vs := by
  constructor
  · intro h
    induction ms generalizing vs with
    | nil =>
        cases h
        exact .nil
    | cons m ms ih =>
        cases h with
        | cons hs hmeans hothers => exact .cons ⟨hs, hmeans⟩ (ih hothers)
  · intro h
    induction h with
    | nil => exact .nil
    | cons hmember _ ih => exact .cons hmember.1 hmember.2 ih

/-- The keys are not read as one string. -/
def ReadApart (key key' : Bytes) : Prop :=
  ∀ s, Gives string key s [] → ¬ Gives string key' s []

theorem ReadApart.symm {key key' : Bytes} (h : ReadApart key key') : ReadApart key' key :=
  fun s hs hs' => h s hs' hs

/-- No object of the draft repeats a key. -/
inductive Draft.KeysDiffer : Draft → Prop
  | token (w : Bytes) : Draft.KeysDiffer (.token w)
  | list {ds : List Draft} : (∀ d ∈ ds, Draft.KeysDiffer d) → Draft.KeysDiffer (.list ds)
  | object {ms : List (Bytes × Draft)} :
    (ms.map (·.1)).Pairwise ReadApart → (∀ m ∈ ms, Draft.KeysDiffer m.2) →
    Draft.KeysDiffer (.object ms)

/-- Keys that are read apart differ. -/
theorem MeansMembers.nodup_keys {ms : List (Bytes × Draft)} {vs : List (String × Value)}
    (h : MeansMembers ms vs) (hkeys : (ms.map (·.1)).Pairwise ReadApart) :
    (Members.keys vs).Nodup := by
  induction ms generalizing vs with
  | nil =>
      cases h
      exact List.nodup_nil
  | cons m ms ih =>
      cases h with
      | cons hs _ hothers =>
          rw [List.map_cons, List.pairwise_cons] at hkeys
          refine List.nodup_cons.mpr ⟨fun hmem => ?_, ih hothers hkeys.2⟩
          obtain ⟨n, hn, rfl⟩ := List.mem_map.mp hmem
          obtain ⟨m', hm', hs', _⟩ := exists_mem_of_forall₂ (meansMembers_iff.mp hothers).flip hn
          exact hkeys.1 m'.1 (List.mem_map_of_mem hm') n.1 hs hs'

/-- What is meant without repeated keys is settled. -/
theorem Draft.KeysDiffer.settled {d : Draft} (hd : d.KeysDiffer) {v : Value} (h : d.Means v) :
    v.settled = v := by
  induction d using Draft.memRec generalizing v with
  | token w =>
      cases h with
      | token hw hv => exact (hw.settled hv).1
  | list ds ih =>
      cases h with
      | @list _ vs hmeans =>
          cases hd with
          | list hds =>
              have hmap : vs.map Value.settled = vs := by
                refine (List.map_congr_left fun v hv => ?_).trans (List.map_id vs)
                obtain ⟨d, hmem, hread⟩ := exists_mem_of_forall₂ hmeans.flip hv
                exact ih d hmem (hds d hmem) hread
              rw [Value.settled, settledItems_eq_map, hmap]
  | object ms ih =>
      cases h with
      | object hmeans =>
          cases hd with
          | object hkeys hms =>
              refine settled_object.mpr ⟨hmeans.nodup_keys hkeys, fun n hn => ?_⟩
              obtain ⟨m, hm, _, hread⟩ := exists_mem_of_forall₂ (meansMembers_iff.mp hmeans).flip hn
              exact ih m hm (hms m hm) hread

/-! ## Another order of members -/

mutual

/-- The drafts are the same but for the order of the members in their objects. -/
inductive Draft.Rearranged : Draft → Draft → Prop
  | token (w : Bytes) : Draft.Rearranged (.token w) (.token w)
  | list {ds es : List Draft} :
    List.Forall₂ Draft.Rearranged ds es → Draft.Rearranged (.list ds) (.list es)
  | object {ms ns ns' : List (Bytes × Draft)} :
    RearrangedMembers ms ns → ns.Perm ns' → Draft.Rearranged (.object ms) (.object ns')

/-- The members have the same keys, and drafts that are the same but for the order of members. -/
inductive RearrangedMembers : List (Bytes × Draft) → List (Bytes × Draft) → Prop
  | nil : RearrangedMembers [] []
  | cons {key : Bytes} {d e : Draft} {ms ns : List (Bytes × Draft)} :
    Draft.Rearranged d e → RearrangedMembers ms ns →
    RearrangedMembers ((key, d) :: ms) ((key, e) :: ns)

end

theorem rearrangedMembers_iff {ms ns : List (Bytes × Draft)} : RearrangedMembers ms ns ↔
    List.Forall₂ (fun m n => m.1 = n.1 ∧ m.2.Rearranged n.2) ms ns := by
  constructor
  · intro h
    induction ms generalizing ns with
    | nil =>
        cases h
        exact .nil
    | cons m ms ih =>
        cases h with
        | cons hd hothers => exact .cons ⟨rfl, hd⟩ (ih hothers)
  · intro h
    induction h with
    | nil => exact .nil
    | @cons m n _ _ hmember _ ih =>
        obtain ⟨key, d⟩ := m
        obtain ⟨_, e⟩ := n
        obtain ⟨rfl, hd⟩ := hmember
        exact .cons hd ih

theorem Draft.Rearranged.symm {d e : Draft} (h : d.Rearranged e) : e.Rearranged d := by
  induction d using Draft.memRec generalizing e with
  | token w =>
      cases h
      exact .token w
  | list ds ih =>
      cases h with
      | list hes =>
          have hback := ((List.forall₂_and_left ds _).mpr ⟨fun d hd e => @ih d hd e, hes⟩).imp
            fun _ _ hde => hde.1 _ hde.2
          exact .list hback.flip
  | object ms ih =>
      cases h with
      | object hns hperm =>
          have hms := (List.forall₂_and_left ms _).mpr
            ⟨fun m hm n => @ih m hm n, rearrangedMembers_iff.mp hns⟩
          have hback := (hms.imp fun _ _ hmn => And.intro hmn.2.1.symm (hmn.1 _ hmn.2.2)).flip
          -- the order is changed before the members, and then behind them
          obtain ⟨ks, hks, hkperm⟩ := List.perm_comp_forall₂ hperm.symm hback
          exact .object (rearrangedMembers_iff.mpr hks) hkperm

/-- Another order repeats no key either. -/
theorem Draft.Rearranged.keysDiffer {d e : Draft} (h : d.Rearranged e) (hd : d.KeysDiffer) :
    e.KeysDiffer := by
  induction d using Draft.memRec generalizing e with
  | token w =>
      cases h
      exact hd
  | list ds ih =>
      cases h with
      | list hes =>
          cases hd with
          | list hds =>
              refine .list fun e he => ?_
              obtain ⟨d, hd, hde⟩ := exists_mem_of_forall₂ hes.flip he
              exact ih d hd hde (hds d hd)
  | object ms ih =>
      cases h with
      | @object _ ns _ hns hperm =>
          cases hd with
          | object hkeys hms =>
              have hmembers := rearrangedMembers_iff.mp hns
              have hnkeys : ms.map (·.1) = ns.map (·.1) := by
                rw [← List.forall₂_eq_eq_eq, List.forall₂_map_left_iff, List.forall₂_map_right_iff]
                exact hmembers.imp fun _ _ hmn => hmn.1
              rw [hnkeys] at hkeys
              refine .object ((hperm.map _).pairwise hkeys ReadApart.symm) fun n hn => ?_
              obtain ⟨m, hm, _, hmn⟩ := exists_mem_of_forall₂ hmembers.flip (hperm.mem_iff.mpr hn)
              exact ih m hm hmn (hms m hm)

/-- Two rows beside one row have a fourth beside them. -/
theorem exists_forall₂ {α β γ δ : Type} {r : α → β → Prop} {s : α → γ → Prop} {t : β → δ → Prop}
    {u : γ → δ → Prop} {as : List α} {bs : List β} {cs : List γ}
    (h : ∀ a ∈ as, ∀ b c, r a b → s a c → ∃ d, t b d ∧ u c d) (hbs : List.Forall₂ r as bs)
    (hcs : List.Forall₂ s as cs) : ∃ ds, List.Forall₂ t bs ds ∧ List.Forall₂ u cs ds := by
  induction hbs generalizing cs with
  | nil =>
      cases hcs
      exact ⟨[], .nil, .nil⟩
  | cons hb _ ih =>
      cases hcs with
      | cons hc hcs =>
          obtain ⟨hfirst, hothers⟩ := List.forall_mem_cons.mp h
          obtain ⟨d, htd, hud⟩ := hfirst _ _ hb hc
          obtain ⟨ds, htds, huds⟩ := ih hothers hcs
          exact ⟨d :: ds, .cons htd htds, .cons hud huds⟩

/-- **Rearranged drafts mean values that are the same but for the order of members.** -/
theorem Draft.Rearranged.exists_means {d e : Draft} (h : d.Rearranged e) {v : Value}
    (hv : d.Means v) : ∃ w, e.Means w ∧ v.Alike w := by
  induction d using Draft.memRec generalizing e v with
  | token _ =>
      cases h
      exact ⟨v, hv, .same v⟩
  | list ds ih =>
      cases h with
      | list hes =>
          cases hv with
          | list hvs =>
              have hitem : ∀ d ∈ ds, ∀ e v, d.Rearranged e → d.Means v →
                  ∃ w, e.Means w ∧ v.Alike w := fun d hd _ _ hde hdv => ih d hd hde hdv
              obtain ⟨ws, hws, halike⟩ := exists_forall₂ hitem hes hvs
              exact ⟨_, .list hws, .list halike⟩
  | object ms ih =>
      cases h with
      | object hns hperm =>
          cases hv with
          | object hvs =>
              have hmember : ∀ m ∈ ms, ∀ (n : Bytes × Draft) (k : String × Value),
                  m.1 = n.1 ∧ m.2.Rearranged n.2 → Gives string m.1 k.1 [] ∧ m.2.Means k.2 →
                  ∃ l : String × Value, (Gives string n.1 l.1 [] ∧ n.2.Means l.2) ∧
                    k.1 = l.1 ∧ k.2.Alike l.2 := by
                rintro m hm n k ⟨hkey, hd⟩ ⟨hs, hmeans⟩
                obtain ⟨w, hw, halike⟩ := ih m hm hd hmeans
                exact ⟨(k.1, w), ⟨hkey ▸ hs, hw⟩, rfl, halike⟩
              obtain ⟨ws, hws, halike⟩ := exists_forall₂ hmember (rearrangedMembers_iff.mp hns)
                (meansMembers_iff.mp hvs)
              -- the values go along with their members
              obtain ⟨ws', hws', hback⟩ := List.perm_comp_forall₂ hperm.symm hws
              exact ⟨_, .object (meansMembers_iff.mpr hws'),
                .object (alikeMembers_iff.mpr halike) hback.symm⟩

end CrashCourier.Json
