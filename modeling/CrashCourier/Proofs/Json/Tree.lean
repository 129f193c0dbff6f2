import CrashCourier.Json.Document
import CrashCourier.Proofs.Json.Members
import CrashCourier.Proofs.Json.Numeral

/-!
# Documents as trees

`raw` takes a value as it is written. An object keeps all its members in order, those of a repeated
key too, and nothing is converted. Every other reader of values is `raw` with something done to the
tree afterwards: `ReadsAs` says so of one reader, and says that it takes the same octets.

What one reader makes of an item or a member settles what it makes of an array or an object
(`gives_items_as`, `gives_members_as`). So to know a reader it is enough to know what it does to a tree,
and no later proof has to look at octets again.
-/

namespace CrashCourier.Json

variable {α σ : Type}

namespace Reader

/-! ## The forms of a value -/

/-- The forms of a value, its first character ahead. What stands between brackets or braces is up to
`list` and `object`. -/
inductive TakesValue (list : Bytes → List Value → Bytes → Prop)
    (object : Bytes → List (String × Value) → Bytes → Prop) : Bytes → Value → Bytes → Prop where
  | null {input rest : Bytes} :
      input = octets "null" ++ rest → TakesValue list object input .null rest
  | truth {input rest : Bytes} {b : Bool} :
      input = writeTruth b ++ rest → TakesValue list object input (.truth b) rest
  | text {input tail rest : Bytes} {s : String} :
      input = 0x22 :: tail → Gives string input s rest →
      TakesValue list object input (.text s) rest
  | number {input rest : Bytes} {n : Number} :
      Gives number input n rest → TakesValue list object input (.number n) rest
  | list {input tail rest : Bytes} {vs : List Value} :
      input = 0x5B :: tail → list tail vs rest → TakesValue list object input (.list vs) rest
  | object {input tail rest : Bytes} {ms : List (String × Value)} :
      input = 0x7B :: tail → object tail ms rest → TakesValue list object input (.object ms) rest

section ValueWith

variable {list object : Reader Value} {takesList : Bytes → List Value → Bytes → Prop}
  {takesObject : Bytes → List (String × Value) → Bytes → Prop}

theorem takesValue_of_gives
    (hlist : ∀ {tail v rest}, Gives list (0x5B :: tail) v rest →
      ∃ vs, v = .list vs ∧ takesList tail vs rest)
    (hobject : ∀ {tail v rest}, Gives object (0x7B :: tail) v rest →
      ∃ ms, v = .object ms ∧ takesObject tail ms rest)
    {input rest : Bytes} {v : Value} (h : Gives (valueWith list object) input v rest) :
    TakesValue takesList takesObject (input.dropWhile isBlank) v rest := by
  unfold valueWith at h
  obtain ⟨c, mid, hahead, h⟩ := gives_bind.mp h
  obtain ⟨hc, hmid⟩ := gives_ahead.mp hahead
  rw [← hmid]
  -- one case for each octet that can be ahead, in the order of the reader
  split at h
  · exact absurd h gives_throw
  · obtain ⟨_, after, hword, h⟩ := gives_bind.mp h
    obtain ⟨rfl, rfl⟩ := gives_pure.mp h
    exact .null (gives_word.mp hword)
  · obtain ⟨_, after, hword, h⟩ := gives_bind.mp h
    obtain ⟨rfl, rfl⟩ := gives_pure.mp h
    exact .truth (b := true) (gives_word.mp hword)
  · obtain ⟨_, after, hword, h⟩ := gives_bind.mp h
    obtain ⟨rfl, rfl⟩ := gives_pure.mp h
    exact .truth (b := false) (gives_word.mp hword)
  · obtain ⟨tail, rfl⟩ := (head_eq_some (b := 0x22)).mp hc.symm
    obtain ⟨s, after, hs, h⟩ := gives_bind.mp h
    obtain ⟨rfl, rfl⟩ := gives_pure.mp h
    exact .text rfl hs
  · obtain ⟨tail, rfl⟩ := (head_eq_some (b := 0x5B)).mp hc.symm
    obtain ⟨vs, rfl, hvs⟩ := hlist h
    exact .list rfl hvs
  · obtain ⟨tail, rfl⟩ := (head_eq_some (b := 0x7B)).mp hc.symm
    obtain ⟨ms, rfl, hms⟩ := hobject h
    exact .object rfl hms
  · split at h
    · obtain ⟨n, after, hn, h⟩ := gives_bind.mp h
      obtain ⟨rfl, rfl⟩ := gives_pure.mp h
      exact .number hn
    · exact absurd h gives_throw

/-- A character that begins a number is none of those that begin anything else. -/
theorem gives_valueWith_number {b : UInt8} {input tail rest : Bytes} {n : Number}
    (hinput : input.dropWhile isBlank = b :: tail) (hb : startsNumber (Char.ofUInt8 b) = true)
    (hn : Gives number (b :: tail) n rest) :
    Gives (valueWith list object) input (.number n) rest := by
  unfold valueWith
  refine gives_bind.mpr ⟨_, _, gives_ahead.mpr ⟨rfl, hinput.symm⟩, ?_⟩
  simp only [List.head?_cons, Option.map_some]
  -- six characters begin something else, and none of them begins a number
  generalize Char.ofUInt8 b = c at hb
  split
  · contradiction
  all_goals rename_i heq
  · rw [Option.some.inj heq] at hb
    exact absurd hb (by decide)
  · rw [Option.some.inj heq] at hb
    exact absurd hb (by decide)
  · rw [Option.some.inj heq] at hb
    exact absurd hb (by decide)
  · rw [Option.some.inj heq] at hb
    exact absurd hb (by decide)
  · rw [Option.some.inj heq] at hb
    exact absurd hb (by decide)
  · rw [Option.some.inj heq] at hb
    exact absurd hb (by decide)
  · rw [← Option.some.inj heq, if_pos hb]
    exact gives_bind.mpr ⟨n, rest, hn, gives_pure.mpr ⟨rfl, rfl⟩⟩

theorem gives_of_takesValue
    (hlist : ∀ {tail vs rest}, takesList tail vs rest → Gives list (0x5B :: tail) (.list vs) rest)
    (hobject : ∀ {tail ms rest}, takesObject tail ms rest →
      Gives object (0x7B :: tail) (.object ms) rest)
    {input mid rest : Bytes} {v : Value} (hinput : input.dropWhile isBlank = mid)
    (h : TakesValue takesList takesObject mid v rest) :
    Gives (valueWith list object) input v rest := by
  cases h with
  | null hmid =>
      subst hmid
      refine gives_bind.mpr ⟨_, _, gives_ahead.mpr ⟨rfl, hinput.symm⟩, ?_⟩
      exact gives_bind.mpr ⟨(), rest, gives_word.mpr rfl, gives_pure.mpr ⟨rfl, rfl⟩⟩
  | @truth _ b hmid =>
      subst hmid
      refine gives_bind.mpr ⟨_, _, gives_ahead.mpr ⟨rfl, hinput.symm⟩, ?_⟩
      cases b with
      | true => exact gives_bind.mpr ⟨(), rest, gives_word.mpr rfl, gives_pure.mpr ⟨rfl, rfl⟩⟩
      | false => exact gives_bind.mpr ⟨(), rest, gives_word.mpr rfl, gives_pure.mpr ⟨rfl, rfl⟩⟩
  | text hmid hs =>
      subst hmid
      refine gives_bind.mpr ⟨_, _, gives_ahead.mpr ⟨rfl, hinput.symm⟩, ?_⟩
      exact gives_bind.mpr ⟨_, rest, hs, gives_pure.mpr ⟨rfl, rfl⟩⟩
  | number hn =>
      obtain ⟨b, tail, rfl, hb⟩ := number_head hn
      exact gives_valueWith_number hinput (startsNumber_of_head hb).2 hn
  | list hmid hvs =>
      subst hmid
      exact gives_bind.mpr ⟨_, _, gives_ahead.mpr ⟨rfl, hinput.symm⟩, hlist hvs⟩
  | object hmid hms =>
      subst hmid
      exact gives_bind.mpr ⟨_, _, gives_ahead.mpr ⟨rfl, hinput.symm⟩, hobject hms⟩

end ValueWith

/-- What is taken one level deeper. -/
def Within (inside : Nat → Reader α) (depth : Nat) (tail : Bytes) (a : α) (rest : Bytes) : Prop :=
  ∃ inner, depth = inner + 1 ∧ Gives (inside inner) tail a rest

theorem not_within_zero {inside : Nat → Reader α} {tail rest : Bytes} {a : α} :
    ¬ Within inside 0 tail a rest := by
  intro h
  obtain ⟨_, hdepth, _⟩ := h
  cases hdepth

theorem within_succ {inside : Nat → Reader α} {depth : Nat} {tail rest : Bytes} {a : α} :
    Within inside (depth + 1) tail a rest ↔ Gives (inside depth) tail a rest := by
  refine ⟨?_, ?_⟩
  · intro h
    obtain ⟨inner, hdepth, h⟩ := h
    rw [Nat.succ.inj hdepth]
    exact h
  · intro h
    exact ⟨depth, rfl, h⟩

/-- Takes a value whose arrays and objects are read by `list` and `object`, one level deeper. -/
def nested (list : Nat → Reader (List Value)) (object : Nat → Reader (List (String × Value))) :
    (depth : Nat) → Reader Value
  | 0 => valueWith (throw .tooDeep) (throw .tooDeep)
  | depth + 1 =>
    valueWith
      (do
        skip
        return .list (← list depth))
      (do
        skip
        return .object (← object depth))

/-- **The forms of a value.** -/
theorem gives_nested {list : Nat → Reader (List Value)}
    {object : Nat → Reader (List (String × Value))} {depth : Nat} {input rest : Bytes} {v : Value} :
    Gives (nested list object depth) input v rest ↔
      TakesValue (Within list depth) (Within object depth) (input.dropWhile isBlank) v rest := by
  cases depth with
  | zero =>
      refine ⟨?_, ?_⟩
      · intro h
        exact takesValue_of_gives (fun h => absurd h gives_throw) (fun h => absurd h gives_throw) h
      · intro h
        exact gives_of_takesValue (fun h => absurd h not_within_zero)
          (fun h => absurd h not_within_zero) rfl h
  | succ depth =>
      refine ⟨?_, ?_⟩
      · intro h
        refine takesValue_of_gives ?_ ?_ h
        · intro tail v rest h
          simp only [gives_bind, gives_skip, gives_pure, List.tail_cons] at h
          obtain ⟨_, _, rfl, vs, _, hvs, rfl, rfl⟩ := h
          exact ⟨vs, rfl, within_succ.mpr hvs⟩
        · intro tail v rest h
          simp only [gives_bind, gives_skip, gives_pure, List.tail_cons] at h
          obtain ⟨_, _, rfl, ms, _, hms, rfl, rfl⟩ := h
          exact ⟨ms, rfl, within_succ.mpr hms⟩
      · intro h
        refine gives_of_takesValue ?_ ?_ rfl h
        · intro tail vs rest h
          exact gives_bind.mpr ⟨(), tail, gives_skip.mpr rfl,
            gives_bind.mpr ⟨vs, rest, within_succ.mp h, gives_pure.mpr ⟨rfl, rfl⟩⟩⟩
        · intro tail ms rest h
          exact gives_bind.mpr ⟨(), tail, gives_skip.mpr rfl,
            gives_bind.mpr ⟨ms, rest, within_succ.mp h, gives_pure.mpr ⟨rfl, rfl⟩⟩⟩

/-! ## Trees -/

/-- Adds a member behind the others, whether its key is new or not. -/
def rawMember (tree : Reader Value) (key : String) (taken : List (String × Value)) :
    Reader (List (String × Value)) := do
  colon
  return taken ++ [(key, ← tree)]

/-- Takes a value as it is written, nested at most `depth` deep. -/
def raw : (depth : Nat) → Reader Value
  | 0 => valueWith (throw .tooDeep) (throw .tooDeep)
  | depth + 1 =>
    valueWith
      (do
        skip
        return .list (← items (raw depth)))
      (do
        skip
        return .object (← members (rawMember (raw depth)) []))

/-- What stands between the brackets of an array. -/
def RawItems : (depth : Nat) → Bytes → List Value → Bytes → Prop :=
  Within fun inner => items (raw inner)

/-- What stands between the braces of an object. -/
def RawMembers : (depth : Nat) → Bytes → List (String × Value) → Bytes → Prop :=
  Within fun inner => members (rawMember (raw inner)) []

theorem rawItems_succ {depth : Nat} {tail rest : Bytes} {vs : List Value} :
    RawItems (depth + 1) tail vs rest ↔ Gives (items (raw depth)) tail vs rest :=
  within_succ

theorem rawMembers_succ {depth : Nat} {tail rest : Bytes} {ms : List (String × Value)} :
    RawMembers (depth + 1) tail ms rest ↔ Gives (members (rawMember (raw depth)) []) tail ms rest :=
  within_succ

/-- The forms of a tree. -/
theorem gives_raw {depth : Nat} {input rest : Bytes} {v : Value} :
    Gives (raw depth) input v rest ↔
      TakesValue (RawItems depth) (RawMembers depth) (input.dropWhile isBlank) v rest := by
  have hraw : raw depth = nested (fun inner => items (raw inner))
      (fun inner => members (rawMember (raw inner)) []) depth := by
    cases depth with
    | zero => rfl
    | succ depth => rfl
  rw [hraw, gives_nested]
  rfl

/-! ## How much is taken -/

theorem leaves_rawMember {tree : Reader Value} (htree : Leaves tree) (key : String)
    (taken : List (String × Value)) : Leaves (rawMember tree key taken) :=
  leaves_colon.bind fun _ => htree.bind fun _ => leaves_pure

theorem TakesValue.length {list : Bytes → List Value → Bytes → Prop}
    {object : Bytes → List (String × Value) → Bytes → Prop}
    (hlist : ∀ {tail vs rest}, list tail vs rest → rest.length < tail.length)
    (hobject : ∀ {tail ms rest}, object tail ms rest → rest.length < tail.length)
    {input rest : Bytes} {v : Value} (h : TakesValue list object input v rest) :
    rest.length < input.length := by
  cases h with
  | null hinput =>
      rw [hinput, List.length_append]
      exact Nat.lt_add_of_pos_left (by decide)
  | @truth _ b hinput =>
      rw [hinput, List.length_append]
      cases b with
      | true => exact Nat.lt_add_of_pos_left (by decide)
      | false => exact Nat.lt_add_of_pos_left (by decide)
  | text _ hs => exact shortens_string hs
  | number hn => exact shortens_number hn
  | list hinput hvs =>
      rw [hinput]
      exact Nat.lt_succ_of_lt (hlist hvs)
  | object hinput hms =>
      rw [hinput]
      exact Nat.lt_succ_of_lt (hobject hms)

theorem shortens_raw (depth : Nat) : Shortens (raw depth) := by
  induction depth with
  | zero =>
      intro input rest v h
      exact Nat.lt_of_lt_of_le ((gives_raw.mp h).length (fun h => absurd h not_within_zero)
        (fun h => absurd h not_within_zero)) (length_dropWhile_le input)
  | succ depth ih =>
      intro input rest v h
      refine Nat.lt_of_lt_of_le ((gives_raw.mp h).length ?_ ?_) (length_dropWhile_le input)
      · intro tail vs rest h
        exact ((gives_items ih).mp (rawItems_succ.mp h)).length ih.leaves
      · intro tail ms rest h
        have hmember : ∀ key taken, Leaves (rawMember (raw depth) key taken) :=
          leaves_rawMember ih.leaves
        exact ((gives_members hmember).mp (rawMembers_succ.mp h)).length hmember

theorem leaves_raw (depth : Nat) : Leaves (raw depth) :=
  (shortens_raw depth).leaves

/-! ## Readers that go by the tree -/

/-- The reader takes what `tree` takes and makes of the value what `of?` makes of it. -/
def ReadsAs (r : Reader α) (tree : Reader Value) (of? : Value → Option α) : Prop :=
  ∀ {input rest : Bytes} {a : α},
    Gives r input a rest ↔ ∃ v, Gives tree input v rest ∧ of? v = some a

theorem ReadsAs.shortens {r : Reader α} {tree : Reader Value} {of? : Value → Option α}
    (h : ReadsAs r tree of?) (htree : Shortens tree) : Shortens r := by
  intro input rest a ha
  obtain ⟨v, hv, _⟩ := h.mp ha
  exact htree hv

/-! ### Arrays -/

theorem takesItems_as {item : Reader α} {tree : Reader Value} {of? : Value → Option α}
    (h : ReadsAs item tree of?) {first : Bool} {as : List α} {input rest : Bytes} :
    TakesItems item first input as rest ↔
      ∃ vs, TakesItems tree first input vs rest ∧ vs.mapM of? = some as := by
  refine ⟨?_, ?_⟩
  · intro hitems
    induction hitems with
    | close hclose => exact ⟨[], .close hclose, rfl⟩
    | @next first input mid tail after rest b a as hsep hmid hb ha _ ih =>
        obtain ⟨v, hv, hof⟩ := h.mp ha
        obtain ⟨vs, hvs, has⟩ := ih
        refine ⟨v :: vs, .next hsep hmid hb hv hvs, ?_⟩
        rw [List.mapM_cons, hof, has]
        rfl
  · intro hitems
    obtain ⟨vs, hvs, has⟩ := hitems
    induction hvs generalizing as with
    | close hclose =>
        obtain rfl : as = [] := (Option.some.inj has).symm
        exact .close hclose
    | @next first input mid tail after rest b v vs hsep hmid hb hv _ ih =>
        rw [List.mapM_cons] at has
        obtain ⟨a, hof, has⟩ := Option.bind_eq_some_iff.mp has
        obtain ⟨as', has', heq⟩ := Option.bind_eq_some_iff.mp has
        obtain rfl := (Option.some.inj heq).symm
        exact .next hsep hmid hb (h.mpr ⟨v, hv, hof⟩) (ih has')

/-- **An array is read as the tree of an array.** -/
theorem gives_items_as {item : Reader α} {tree : Reader Value} {of? : Value → Option α}
    (h : ReadsAs item tree of?) (htree : Shortens tree) {as : List α} {input rest : Bytes} :
    Gives (items item) input as rest ↔
      ∃ vs, Gives (items tree) input vs rest ∧ vs.mapM of? = some as := by
  rw [gives_items (h.shortens htree), takesItems_as h]
  refine exists_congr fun vs => ?_
  rw [gives_items htree]

/-! ### Objects -/

/-- The members of an object are taken one after the other, as pairs. -/
inductive TakesPairs (tree : Reader Value) :
    (first : Bool) → Bytes → List (String × Value) → Bytes → Prop where
  | close {first : Bool} {input rest : Bytes} :
      input.dropWhile isBlank = 0x7D :: rest → TakesPairs tree first input [] rest
  | next {first : Bool} {input mid tail after more last rest : Bytes} {key : String} {v : Value}
      {ms : List (String × Value)} :
      Separated first input mid → mid.dropWhile isBlank = 0x22 :: tail →
      Gives string (0x22 :: tail) key after → after.dropWhile isBlank = 0x3A :: more →
      Gives tree more v last → TakesPairs tree false last ms rest →
      TakesPairs tree first input ((key, v) :: ms) rest

/-- Puts members in, one after the other. -/
def putAll (put : String → Value → σ → Option σ) : List (String × Value) → σ → Option σ
  | [], s => some s
  | (key, v) :: ms, s => (put key v s).bind (putAll put ms)

/-- The reader of a member takes the colon and the value, and puts the value in. -/
def MemberAs (member : String → σ → Reader σ) (tree : Reader Value)
    (put : String → Value → σ → Option σ) : Prop :=
  ∀ {key : String} {s t : σ} {input rest : Bytes},
    Gives (member key s) input t rest ↔
      ∃ more v, input.dropWhile isBlank = 0x3A :: more ∧ Gives tree more v rest ∧
        put key v s = some t

section Members

variable {member : String → σ → Reader σ} {tree : Reader Value}
  {put : String → Value → σ → Option σ}

theorem MemberAs.leaves (h : MemberAs member tree put) (htree : Leaves tree) (key : String)
    (s : σ) : Leaves (member key s) := by
  intro input rest t ht
  obtain ⟨more, v, hmore, hv, _⟩ := h.mp ht
  have hle := length_dropWhile_le input
  rw [hmore, List.length_cons] at hle
  have hleaves := htree hv
  omega

theorem takesMembers_as (h : MemberAs member tree put) {first : Bool} {s t : σ}
    {input rest : Bytes} :
    TakesMembers member first s input t rest ↔
      ∃ ms, TakesPairs tree first input ms rest ∧ putAll put ms s = some t := by
  refine ⟨?_, ?_⟩
  · intro hmembers
    induction hmembers with
    | close hclose => exact ⟨[], .close hclose, rfl⟩
    | @next first s s' t input mid tail after last rest key hsep hmid hkey hm _ ih =>
        obtain ⟨more, v, hcolon, hv, hput⟩ := h.mp hm
        obtain ⟨ms, hms, hall⟩ := ih
        refine ⟨(key, v) :: ms, .next hsep hmid hkey hcolon hv hms, ?_⟩
        rw [putAll, hput]
        exact hall
  · intro hmembers
    obtain ⟨ms, hms, hall⟩ := hmembers
    induction hms generalizing s with
    | close hclose =>
        obtain rfl : s = t := Option.some.inj hall
        exact .close hclose
    | @next first input mid tail after more last rest key v ms hsep hmid hkey hcolon hv _ ih =>
        obtain ⟨s', hput, hall⟩ := Option.bind_eq_some_iff.mp hall
        exact .next hsep hmid hkey (h.mpr ⟨more, v, hcolon, hv, hput⟩) (ih hall)

end Members

theorem memberAs_rawMember (tree : Reader Value) :
    MemberAs (rawMember tree) tree fun key v taken => some (taken ++ [(key, v)]) := by
  intro key taken taken' input rest
  unfold rawMember
  simp only [gives_bind, gives_colon, gives_pure]
  refine ⟨?_, ?_⟩
  · intro h
    obtain ⟨_, more, hcolon, v, _, hv, rfl, rfl⟩ := h
    exact ⟨more, v, hcolon, hv, rfl⟩
  · intro h
    obtain ⟨more, v, hcolon, hv, hput⟩ := h
    exact ⟨(), more, hcolon, v, rest, hv, (Option.some.inj hput).symm, rfl⟩

theorem putAll_append (ms taken : List (String × Value)) :
    putAll (fun key v taken => some (taken ++ [(key, v)])) ms taken = some (taken ++ ms) := by
  induction ms generalizing taken with
  | nil => rw [List.append_nil]; rfl
  | cons m ms ih =>
      rw [putAll, Option.bind_some, ih, List.append_assoc]
      rfl

/-- What an object is as a tree. -/
theorem gives_rawMembers {tree : Reader Value} (htree : Leaves tree) {ms : List (String × Value)}
    {input rest : Bytes} :
    Gives (members (rawMember tree) []) input ms rest ↔ TakesPairs tree true input ms rest := by
  rw [gives_members (leaves_rawMember htree), takesMembers_as (memberAs_rawMember tree)]
  refine ⟨?_, ?_⟩
  · intro h
    obtain ⟨ms', hms, hall⟩ := h
    rw [putAll_append] at hall
    obtain rfl : ms' = ms := Option.some.inj hall
    exact hms
  · intro h
    exact ⟨ms, h, putAll_append ms []⟩

/-- **An object is read as the tree of an object.** -/
theorem gives_members_as {member : String → σ → Reader σ} {tree : Reader Value}
    {put : String → Value → σ → Option σ} (h : MemberAs member tree put) (htree : Leaves tree)
    {s t : σ} {input rest : Bytes} :
    Gives (members member s) input t rest ↔
      ∃ ms, Gives (members (rawMember tree) []) input ms rest ∧ putAll put ms s = some t := by
  rw [gives_members (h.leaves htree), takesMembers_as h]
  refine exists_congr fun ms => ?_
  rw [gives_rawMembers htree]

end Reader

end CrashCourier.Json
