import CrashCourier.Proofs.Json.Ignored
import CrashCourier.Proofs.Json.Spaced
import CrashCourier.Settings.Json

/-!
# Collector settings written and read

A setting that is given is laid over the default ones. `Setting` is one of the five, `Setting.Spelled` says
which values give it, and `Sets` which members do: each setting once at the most, in any order, with any
other members between them. Such an object is read as its settings over the defaults, and an array as the
settings whose values it gives (`ofBytes_overlaid`).

The reader never has the members as a list. It keeps the settings that have come, and what is laid over the
defaults in the end is the same as laying each of them over when it comes (`collector_foldl_put`).
-/

namespace CrashCourier

open Json Reader

namespace Collector

/-! ## Settings -/

/-- One setting. -/
inductive Setting where
  | url (s : String)
  | method (m : Http.Method)
  | headers (t : Table String)
  | timeoutSecs (n : UInt64)
  | attachmentKey (s : String)

namespace Setting

/-- The name of its member. -/
def name : Setting → String
  | .url _ => "url"
  | .method _ => "method"
  | .headers _ => "headers"
  | .timeoutSecs _ => "timeout_secs"
  | .attachmentKey _ => "attachment_key"

/-- The settings with this one in place of theirs. -/
def applyTo : Setting → Collector → Collector
  | .url s, c => { c with url := s }
  | .method m, c => { c with method := m }
  | .headers t, c => { c with headers := t }
  | .timeoutSecs n, c => { c with timeoutSecs := n }
  | .attachmentKey s, c => { c with attachmentKey := s }

/-- The values that give a setting. A method is named, or the only key of an object. Of the values of one
header the last counts. -/
inductive Spelled : Value → Setting → Prop
  | url (s : String) : Spelled (.text s) (.url s)
  | method (m : Http.Method) : Spelled (.text m.name) (.method m)
  | methodKey (m : Http.Method) : Spelled (.object [(m.name, .null)]) (.method m)
  | headers (entries : List (String × String)) :
    Spelled (.object (entries.map fun e => (e.1, .text e.2))) (.headers (.ofList entries))
  | timeoutSecs (n : UInt64) : Spelled (.number (.natural n)) (.timeoutSecs n)
  | attachmentKey (s : String) : Spelled (.text s) (.attachmentKey s)

/-- The draft gives the setting. -/
def Written (d : Draft) (set : Setting) : Prop :=
  ∃ v, d.Means v ∧ Spelled v set

end Setting

/-- The names of the five settings. -/
def names : List String := ["url", "method", "headers", "timeout_secs", "attachment_key"]

/-- The five settings of a collector, in their order. -/
def settings (c : Collector) : List Setting :=
  [.url c.url, .method c.method, .headers c.headers, .timeoutSecs c.timeoutSecs,
    .attachmentKey c.attachmentKey]

/-- The default settings with these in place of theirs. -/
def overlaid (sets : List Setting) : Collector :=
  sets.foldl (fun c set => set.applyTo c) standard

/-- The members give the settings, each once, and whatever else they are is none of the five. -/
inductive Sets : List (Bytes × Draft) → List Setting → Prop
  | nil : Sets [] []
  | given {key : Bytes} {d : Draft} {ms : List (Bytes × Draft)} {set : Setting} {sets : List Setting} :
    Gives string key set.name [] → set.Written d → (∀ other ∈ sets, other.name ≠ set.name) →
    Sets ms sets → Sets ((key, d) :: ms) (set :: sets)
  | other {key : Bytes} {name : String} {d : Draft} {ms : List (Bytes × Draft)} {sets : List Setting} :
    Gives string key name [] → name ∉ names → Sets ms sets → Sets ((key, d) :: ms) sets

theorem overlaid_settings (c : Collector) : overlaid c.settings = c :=
  rfl

theorem mem_settings_applyTo {set s : Setting} {c : Collector} (h : set ∈ (s.applyTo c).settings) :
    set = s ∨ s.name ≠ set.name ∧ set ∈ c.settings := by
  cases s <;> simp only [Setting.applyTo, settings, List.mem_cons, List.not_mem_nil, or_false] at h ⊢ <;>
    rcases h with rfl | rfl | rfl | rfl | rfl <;> simp [Setting.name]

/-- **Each setting is given, or it is the default one and none of its name is given.** -/
theorem mem_settings_overlaid {sets : List Setting} {set : Setting}
    (h : set ∈ (overlaid sets).settings) :
    set ∈ sets ∨ (∀ other ∈ sets, other.name ≠ set.name) ∧ set ∈ standard.settings := by
  unfold overlaid at h
  generalize standard = c at h ⊢
  induction sets generalizing c with
  | nil => exact .inr ⟨List.forall_mem_nil _, h⟩
  | cons s sets ih =>
      obtain hmem | ⟨hothers, hmem⟩ := ih (s.applyTo c) h
      · exact .inl (List.mem_cons_of_mem s hmem)
      · obtain rfl | ⟨hne, hmem⟩ := mem_settings_applyTo hmem
        · exact .inl List.mem_cons_self
        · exact .inr ⟨List.forall_mem_cons.mpr ⟨hne, hothers⟩, hmem⟩

/-! ## What has been given -/

/-- The settings that have been given, with one more. -/
def Given.put (g : Given) : Setting → Given
  | .url s => { g with url := some s }
  | .method m => { g with method := some m }
  | .headers t => { g with headers := some t }
  | .timeoutSecs n => { g with timeoutSecs := some n }
  | .attachmentKey s => { g with attachmentKey := some s }

/-- The setting of a name has not been given. -/
def Given.Lacks (g : Given) (name : String) : Prop :=
  (name = "url" → g.url = .none) ∧ (name = "method" → g.method = .none) ∧
    (name = "headers" → g.headers = .none) ∧ (name = "timeout_secs" → g.timeoutSecs = .none) ∧
    (name = "attachment_key" → g.attachmentKey = .none)

theorem collector_put (g : Given) (set : Setting) : (g.put set).collector = set.applyTo g.collector := by
  cases set <;> rfl

/-- Settings are laid over the defaults when they come or in the end. -/
theorem collector_foldl_put (sets : List Setting) (g : Given) :
    (sets.foldl Given.put g).collector = sets.foldl (fun c set => set.applyTo c) g.collector := by
  induction sets generalizing g with
  | nil => rfl
  | cons set sets ih =>
      rw [List.foldl_cons, List.foldl_cons, ih, collector_put]

theorem lacks_none (name : String) : Given.none.Lacks name :=
  ⟨fun _ => rfl, fun _ => rfl, fun _ => rfl, fun _ => rfl, fun _ => rfl⟩

theorem Given.Lacks.put {g : Given} {name : String} (h : g.Lacks name) {set : Setting}
    (hne : name ≠ set.name) : (g.put set).Lacks name := by
  obtain ⟨hurl, hmethod, hheaders, htimeout, hkey⟩ := h
  cases set with
  | url s => exact ⟨fun heq => absurd heq hne, hmethod, hheaders, htimeout, hkey⟩
  | method m => exact ⟨hurl, fun heq => absurd heq hne, hheaders, htimeout, hkey⟩
  | headers t => exact ⟨hurl, hmethod, fun heq => absurd heq hne, htimeout, hkey⟩
  | timeoutSecs n => exact ⟨hurl, hmethod, hheaders, fun heq => absurd heq hne, hkey⟩
  | attachmentKey s => exact ⟨hurl, hmethod, hheaders, htimeout, fun heq => absurd heq hne⟩

/-! ## Values -/

/-- Puts a header in. -/
def putHeader (key : String) (v : Value) (t : Table String) : Option (Table String) :=
  v.text?.map fun s => t.insert key s

theorem memberAs_header (depth : Nat) :
    MemberAs (fun key taken => do
      colon
      return Table.insert key (← Reader.text) taken) (raw depth) putHeader := by
  intro key t t' input rest
  simp only [gives_bind, gives_colon, gives_pure]
  constructor
  · rintro ⟨_, more, hcolon, s, _, hs, rfl, rfl⟩
    obtain ⟨v, hv, hof⟩ := (readsAs_text depth).mp hs
    exact ⟨more, v, hcolon, hv, congrArg (Option.map _) hof⟩
  · rintro ⟨more, v, hcolon, hv, hput⟩
    obtain ⟨s, hof, rfl⟩ := Option.map_eq_some_iff.mp hput
    exact ⟨(), more, hcolon, s, rest, (readsAs_text depth).mpr ⟨v, hv, hof⟩, rfl, rfl⟩

theorem readsAs_headers : ReadsAs headersReader (raw greatestDepth)
    fun v => v.members?.bind fun ms => putAll putHeader ms Table.empty := by
  refine @readsAs_object _ _ _ _ ?_ greatestDepth
  intro inner tail rest t
  exact gives_members_as (memberAs_header inner) (leaves_raw inner)

theorem takes_headers_object {d : Draft} {entries : List (String × String)}
    (hd : d.Means (.object (entries.map fun e => (e.1, .text e.2)))) :
    Takes headersReader d (.ofList entries) := by
  have hflat : depthMembers (entries.map fun e => (e.1, .text e.2)) ≤ 0 := by
    refine depthMembers_le.mpr fun m hm => ?_
    obtain ⟨e, _, rfl⟩ := List.mem_map.mp hm
    exact Nat.le_refl 0
  have hdepth : depthMembers (entries.map fun e => (e.1, .text e.2)) + 1 ≤ greatestDepth :=
    Nat.le_trans (Nat.succ_le_succ hflat) (by decide)
  have hput : ∀ key s t, putHeader key (.text s) t = some (t.insert key s) := fun _ _ _ => rfl
  exact takes_of_means readsAs_headers hd hdepth (putAll_insert .text hput entries .empty)

/-- The method of a name is found. -/
theorem named_name (m : Http.Method) : Http.Method.named m.name = .ok m := by
  rw [Http.Method.named, Http.Method.ofName?_name]
  rfl

theorem takes_method_name {d : Draft} {m : Http.Method} (hd : d.Means (.text m.name)) :
    Takes Http.Method.reader d m := by
  intro input rest hfollows
  have hspells : Spells input (.value (.text m.name)) rest := (hfollows.read _ rest).mpr ⟨rfl, hd⟩
  cases hspells with
  | text hinput hname =>
      refine (gives_bind_ahead hinput).mpr ?_
      exact gives_bind.mpr ⟨m.name, rest, hname, gives_liftM.mpr ⟨named_name m, rfl⟩⟩

theorem takes_method_key {d : Draft} {m : Http.Method} (hd : d.Means (.object [(m.name, .null)])) :
    Takes Http.Method.reader d m := by
  intro input rest hfollows
  have hspells : Spells input (.value (.object [(m.name, .null)])) rest :=
    (hfollows.read _ rest).mpr ⟨rfl, hd⟩
  cases hspells with
  | object hinput hmembers =>
      cases hmembers with
      | member hsep hmid hname hcolon hnull hend =>
          cases hsep
          cases hnull with
          | null hnull =>
              cases hend with
              | endOfObject hclose =>
                  refine (gives_bind_ahead hinput).mpr ?_
                  refine gives_bind_skip.mpr ?_
                  refine (gives_bind_ahead hmid).mpr ?_
                  refine gives_bind.mpr ⟨m.name, _, hname, ?_⟩
                  refine gives_bind.mpr ⟨m, _, gives_liftM.mpr ⟨named_name m, rfl⟩, ?_⟩
                  refine gives_bind.mpr ⟨(), _, gives_colon.mpr hcolon, ?_⟩
                  refine (gives_bind_ahead hnull).mpr ?_
                  refine gives_bind.mpr ⟨(), _, gives_word.mpr rfl, ?_⟩
                  refine (gives_bind_ahead hclose).mpr ?_
                  exact gives_bind_skip.mpr (gives_pure.mpr ⟨rfl, rfl⟩)

namespace Setting.Written

variable {d : Draft}

theorem takes_url {s : String} (h : (Setting.url s).Written d) : Takes Reader.text d s := by
  obtain ⟨v, hv, hspelled⟩ := h
  cases hspelled
  exact takes_text hv

theorem takes_method {m : Http.Method} (h : (Setting.method m).Written d) :
    Takes Http.Method.reader d m := by
  obtain ⟨v, hv, hspelled⟩ := h
  cases hspelled with
  | method => exact takes_method_name hv
  | methodKey => exact takes_method_key hv

theorem takes_headers {t : Table String} (h : (Setting.headers t).Written d) :
    Takes headersReader d t := by
  obtain ⟨v, hv, hspelled⟩ := h
  cases hspelled
  exact takes_headers_object hv

theorem takes_timeoutSecs {n : UInt64} (h : (Setting.timeoutSecs n).Written d) :
    Takes Reader.natural d n := by
  obtain ⟨v, hv, hspelled⟩ := h
  cases hspelled
  exact takes_natural hv

theorem takes_attachmentKey {s : String} (h : (Setting.attachmentKey s).Written d) :
    Takes Reader.text d s := by
  obtain ⟨v, hv, hspelled⟩ := h
  cases hspelled
  exact takes_text hv

end Setting.Written

/-! ## Objects -/

section Members

variable {g : Given} {set : Setting} {d : Draft} {input more rest : Bytes}

theorem gives_once {α : Type} (name : String) {before : Option α} {r : Reader α} {a : α}
    (hbefore : before = none) (hcolon : input.dropWhile isBlank = 0x3A :: more)
    (hr : Takes r d a) (hd : Follows more (.value d) rest) :
    Gives (once name before r) input (some a) rest := by
  subst hbefore
  exact gives_bind.mpr ⟨(), more, gives_colon.mpr hcolon,
    gives_bind.mpr ⟨a, rest, hr hd, gives_pure.mpr ⟨rfl, rfl⟩⟩⟩

/-- The member of a setting puts the setting in. -/
theorem gives_memberReader (hset : set.Written d) (hlacks : g.Lacks set.name)
    (hcolon : input.dropWhile isBlank = 0x3A :: more) (hd : Follows more (.value d) rest) :
    Gives (memberReader set.name g) input (g.put set) rest := by
  obtain ⟨hurl, hmethod, hheaders, htimeout, hkey⟩ := hlacks
  cases set with
  | url s =>
      have hgiven := gives_once "url" (hurl rfl) hcolon hset.takes_url hd
      exact gives_bind.mpr ⟨_, rest, hgiven, gives_pure.mpr ⟨rfl, rfl⟩⟩
  | method m =>
      have hgiven := gives_once "method" (hmethod rfl) hcolon hset.takes_method hd
      exact gives_bind.mpr ⟨_, rest, hgiven, gives_pure.mpr ⟨rfl, rfl⟩⟩
  | headers t =>
      have hgiven := gives_once "headers" (hheaders rfl) hcolon hset.takes_headers hd
      exact gives_bind.mpr ⟨_, rest, hgiven, gives_pure.mpr ⟨rfl, rfl⟩⟩
  | timeoutSecs n =>
      have hgiven := gives_once "timeout_secs" (htimeout rfl) hcolon
        hset.takes_timeoutSecs hd
      exact gives_bind.mpr ⟨_, rest, hgiven, gives_pure.mpr ⟨rfl, rfl⟩⟩
  | attachmentKey s =>
      have hgiven := gives_once "attachment_key" (hkey rfl) hcolon
        hset.takes_attachmentKey hd
      exact gives_bind.mpr ⟨_, rest, hgiven, gives_pure.mpr ⟨rfl, rfl⟩⟩

/-- The member of another name is skipped. -/
theorem gives_memberReader_other {name : String} (hname : name ∉ names)
    (hcolon : input.dropWhile isBlank = 0x3A :: more) (hd : Follows more (.value d) rest) :
    Gives (memberReader name g) input g rest := by
  have hskip : Gives (do colon; ignored; return g : Reader Given) input g rest :=
    gives_bind.mpr ⟨(), more, gives_colon.mpr hcolon,
      gives_bind.mpr ⟨(), rest, takes_ignored d hd, gives_pure.mpr ⟨rfl, rfl⟩⟩⟩
  unfold memberReader
  split
  case h_6 => exact hskip
  all_goals exact absurd (by decide) hname

end Members

section Objects

variable {first : Bool} {input rest : Bytes}

/-- **The members of an object put their settings in**, one after the other. -/
theorem descends_of_sets {ms : List (Bytes × Draft)} {sets : List Setting} (hsets : Sets ms sets)
    {g : Given} (h : Follows input (.members first ms) rest)
    (hlacks : ∀ set ∈ sets, g.Lacks set.name) :
    Descends (memberStep memberReader) (first, g) input (sets.foldl Given.put g) rest := by
  -- what has been given grows by a step, and what is to come is not among it
  induction hsets generalizing first input g with
  | nil =>
      cases h with
      | endOfObject hclose => exact .done (gives_memberStep_inr.mpr ⟨hclose, rfl⟩)
  | given hname hset hothers _ ih =>
      cases h with
      | member hsep hkey hmid hcolon hd hms =>
          obtain ⟨hfirst, hlacks⟩ := List.forall_mem_cons.mp hlacks
          have hmember := gives_memberReader hset hfirst hcolon hd
          have hstep := Follows.gives_memberStep hsep hkey hmid hname hmember
          have hlt := Nat.lt_trans hd.length_lt (Follows.length_lt_of_key hsep hmid hcolon)
          refine .more hstep hlt (ih hms fun other hother => ?_)
          exact (hlacks other hother).put (hothers other hother)
  | other hname hunknown _ ih =>
      cases h with
      | member hsep hkey hmid hcolon hd hms =>
          have hmember := gives_memberReader_other (g := g) hunknown hcolon hd
          have hstep := Follows.gives_memberStep hsep hkey hmid hname hmember
          have hlt := Nat.lt_trans hd.length_lt (Follows.length_lt_of_key hsep hmid hcolon)
          exact .more hstep hlt (ih hms hlacks)

/-- **An object is taken as its settings over the defaults.** -/
theorem takes_object {ms : List (Bytes × Draft)} {sets : List Setting} (hsets : Sets ms sets) :
    Takes reader (.object ms) (overlaid sets) := by
  intro input rest h
  cases h with
  | object hinput hms =>
      have hread := gives_of_descends (descends_of_sets hsets hms fun set _ => lacks_none set.name)
      refine (gives_bind_ahead hinput).mpr ?_
      refine gives_bind_skip.mpr ?_
      refine gives_bind.mpr ⟨_, rest, hread, gives_pure.mpr ⟨?_, rfl⟩⟩
      rw [collector_foldl_put]
      rfl

end Objects

/-! ## Arrays -/

section Items

variable {first : Bool} {ds : List Draft} {input rest : Bytes}

/-- The next item gives a setting if there is one, and otherwise none. -/
theorem gives_itemReader {α : Type} {r : Reader α} {set : Setting} {a : α}
    (hr : ∀ {d}, set.Written d → Takes r d a) {more : List Setting} {k : Nat}
    (hds : List.Forall₂ (fun d set => set.Written d) ds ((set :: more).take k))
    (h : Follows input (.items first ds) rest) :
    ∃ after ds', Gives (itemReader first r) input (if 0 < k then some a else none) after ∧
      List.Forall₂ (fun d set => set.Written d) ds' (more.take (k - 1)) ∧
      Follows after (.items false ds') rest := by
  cases k with
  | zero =>
      cases hds
      cases h with
      | endOfList hclose =>
          refine ⟨0x5D :: rest, [], ?_, .nil, .endOfList rfl⟩
          have hnone : Gives (nextItem first) input false (0x5D :: rest) :=
            gives_nextItem_false.mpr ⟨hclose.symm, rest, rfl⟩
          exact gives_bind.mpr ⟨false, _, hnone, gives_pure.mpr ⟨rfl, rfl⟩⟩
  | succ k =>
      cases hds with
      | cons hd hothers =>
          cases h with
          | item hsep hitem hitems =>
              obtain ⟨b, tail, hmid, hb⟩ := hitem.head
              have hnext := gives_nextItem_true.mpr ⟨_, hsep, rfl, b, tail, hmid, hb⟩
              refine ⟨_, _, ?_, hothers, hitems⟩
              exact gives_bind.mpr ⟨true, _, hnext,
                gives_bind.mpr ⟨a, _, hr hd hitem.dropWhile, gives_pure.mpr ⟨rfl, rfl⟩⟩⟩

/-- The first settings of a collector have been given. -/
def givenFirst (c : Collector) (k : Nat) : Given where
  url := if 0 < k then some c.url else none
  method := if 0 < k - 1 then some c.method else none
  headers := if 0 < k - 1 - 1 then some c.headers else none
  timeoutSecs := if 0 < k - 1 - 1 - 1 then some c.timeoutSecs else none
  attachmentKey := if 0 < k - 1 - 1 - 1 - 1 then some c.attachmentKey else none

theorem collector_givenFirst (c : Collector) (k : Nat) :
    (c.givenFirst k).collector = overlaid (c.settings.take k) :=
  match k with
  | 0 | 1 | 2 | 3 | 4 => rfl
  | k + 5 => by
      have hall : c.settings.take (k + 5) = c.settings :=
        List.take_of_length_le (Nat.le_add_left 5 k)
      simp only [hall, givenFirst, Nat.add_one_sub_one, Nat.zero_lt_succ, if_true]
      rfl

/-- **The items of an array are the first settings.** -/
theorem gives_itemsReader {c : Collector} {k : Nat}
    (hds : List.Forall₂ (fun d set => set.Written d) ds (c.settings.take k))
    (h : Follows input (.items true ds) rest) : Gives itemsReader input (c.givenFirst k) rest := by
  -- one item after the other, until none is left
  obtain ⟨_, ds, hurl, hds, h⟩ := gives_itemReader Setting.Written.takes_url hds h
  obtain ⟨_, ds, hmethod, hds, h⟩ := gives_itemReader Setting.Written.takes_method hds h
  obtain ⟨_, ds, hheaders, hds, h⟩ := gives_itemReader Setting.Written.takes_headers hds h
  obtain ⟨_, ds, htimeout, hds, h⟩ := gives_itemReader Setting.Written.takes_timeoutSecs hds h
  obtain ⟨_, ds, hkey, hds, h⟩ := gives_itemReader Setting.Written.takes_attachmentKey hds h
  rw [List.take_nil] at hds
  cases hds
  cases h with
  | endOfList hclose =>
      refine gives_bind.mpr ⟨_, _, hurl, gives_bind.mpr ⟨_, _, hmethod, gives_bind.mpr
        ⟨_, _, hheaders, gives_bind.mpr ⟨_, _, htimeout, gives_bind.mpr ⟨_, _, hkey, ?_⟩⟩⟩⟩⟩
      refine (gives_bind_ahead hclose).mpr ?_
      exact gives_bind_skip.mpr (gives_pure.mpr ⟨rfl, rfl⟩)

/-- **An array is taken as the first settings over the defaults.** -/
theorem takes_list {c : Collector} {k : Nat}
    (hds : List.Forall₂ (fun d set => set.Written d) ds (c.settings.take k)) :
    Takes reader (.list ds) (overlaid (c.settings.take k)) := by
  intro input rest h
  cases h with
  | list hinput hitems =>
      refine (gives_bind_ahead hinput).mpr ?_
      refine gives_bind_skip.mpr ?_
      refine gives_bind.mpr ⟨_, rest, gives_itemsReader hds hitems, ?_⟩
      exact gives_pure.mpr ⟨(c.collector_givenFirst k).symm, rfl⟩

end Items

/-! ## All settings -/

/-- What is written of a collector. -/
def content (c : Collector) : Members :=
  [("url", .text c.url), ("method", .text c.method.name),
    ("headers", .object (c.headers.entries.map fun e => (e.1, .text e.2))),
    ("timeout_secs", .number (.natural c.timeoutSecs)), ("attachment_key", .text c.attachmentKey)]

theorem toBytes_eq (c : Collector) : c.toBytes = (Value.object c.content).write := by
  have hheaders : writeMembers (c.headers.entries.map fun e => (e.1, .text e.2)) =
      c.headers.entries.map fun e => writeMember e.1 (writeString e.2) := by
    rw [writeMembers_eq_map, List.map_map]
    rfl
  unfold toBytes
  rw [← hheaders]
  rfl

theorem reals_content (c : Collector) : (Value.object c.content).reals = [] := by
  have hheaders : ∀ entries : List (String × String),
      realsOfMembers (entries.map fun e => (e.1, .text e.2)) = [] := by
    intro entries
    induction entries with
    | nil => rfl
    | cons e entries ih => exact ih
  show [] ++ ([] ++ (realsOfMembers _ ++ ([] ++ ([] ++ [])))) = []
  rw [hheaders]
  rfl

theorem sets_of_means {ms : List (Bytes × Draft)} {vs : Members} {sets : List Setting}
    (h : MeansMembers ms vs)
    (hsets : List.Forall₂ (fun v set => v.1 = set.name ∧ Setting.Spelled v.2 set) vs sets)
    (hnames : (sets.map Setting.name).Nodup) : Sets ms sets := by
  induction hsets generalizing ms with
  | nil =>
      cases h
      exact .nil
  | @cons v set vs sets hset _ ih =>
      cases h with
      | cons hkey hd hothers =>
          obtain ⟨hname, hspelled⟩ := hset
          obtain ⟨hnew, hnames⟩ := List.nodup_cons.mp hnames
          refine .given (hname ▸ hkey) ⟨_, hd, hspelled⟩ (fun other hother heq => hnew ?_)
            (ih hothers hnames)
          exact heq ▸ List.mem_map_of_mem hother

/-- **Settings that were written are read back.** -/
theorem ofBytes_toBytes (c : Collector) : ofBytes c.toBytes = .ok c := by
  have hmeans := Value.means_draft c.reals_content
  have hheaders := Setting.Spelled.headers c.headers.entries
  rw [Table.ofList_entries] at hheaders
  have hspelled : List.Forall₂ (fun v set => v.1 = Setting.name set ∧ Setting.Spelled v.2 set)
      c.content c.settings :=
    .cons ⟨rfl, .url c.url⟩ <| .cons ⟨rfl, .method c.method⟩ <| .cons ⟨rfl, hheaders⟩ <|
      .cons ⟨rfl, .timeoutSecs c.timeoutSecs⟩ <| .cons ⟨rfl, .attachmentKey c.attachmentKey⟩ .nil
  have hsets : Sets (draftMembers c.content) c.settings := by
    cases hmeans with
    | object hmembers => exact sets_of_means hmembers hspelled (show names.Nodup by decide)
  have hread : ofBytes (Value.object c.content).write = .ok (overlaid c.settings) :=
    run_of_takes (takes_object hsets) (draftOf_write (.object c.content))
  rw [toBytes_eq, hread, overlaid_settings]

/-- **Settings survive being written, and the ones that are given are laid over the defaults.** -/
theorem ofBytes_overlaid :
    (∀ c : Collector, ofBytes c.toBytes = .ok c) ∧
    (∀ {input ms sets}, DraftOf input (.object ms) → Sets ms sets →
      ofBytes input = .ok (overlaid sets) ∧ ∀ set ∈ (overlaid sets).settings,
        set ∈ sets ∨ (∀ other ∈ sets, other.name ≠ set.name) ∧ set ∈ standard.settings) ∧
    ∀ {a b ds ms} (c : Collector) (k : Nat), DraftOf a (.list ds) →
      List.Forall₂ (fun d set => set.Written d) ds (c.settings.take k) →
      DraftOf b (.object ms) → Sets ms (c.settings.take k) →
        ofBytes a = ofBytes b ∧ ofBytes a = .ok (overlaid (c.settings.take k)) := by
  refine ⟨ofBytes_toBytes, ?_, ?_⟩
  · intro input ms sets h hsets
    exact ⟨run_of_takes (takes_object hsets) h, fun _ => mem_settings_overlaid⟩
  · intro a b ds ms c k ha hds hb hsets
    have hlist : ofBytes a = .ok (overlaid (c.settings.take k)) := run_of_takes (takes_list hds) ha
    have hobject : ofBytes b = .ok (overlaid (c.settings.take k)) :=
      run_of_takes (takes_object hsets) hb
    exact ⟨hlist.trans hobject.symm, hlist⟩

/-- Members with a time limit and an address, and between them one that is unknown and holds a number that
is out of range. -/
def partialMembers : List (Bytes × Draft) :=
  [(writeString "timeout_secs", (Value.number (.natural 60)).draft),
    (writeString "retries", .list [.token (octets "1e999")]),
    (writeString "url", (Value.text "http://localhost").draft)]

/-- Two settings are given and three stay, and an array of an address is read as an object of it. -/
theorem ofBytes_partial :
    ofBytes ((Draft.object partialMembers).text [0x20]) =
        .ok { standard with timeoutSecs := 60, url := "http://localhost" } ∧
      ofBytes (Value.list [.text "http://localhost"]).write =
        ofBytes (Value.object [("url", .text "http://localhost")]).write := by
  have hnumeral : IsNumeral (octets "1e999") := ⟨⟨false, [1], none, some (false, [9, 9, 9])⟩, rfl⟩
  have hformed : (Draft.object partialMembers).Formed := by
    refine .object ?_ ?_
    · exact List.forall_mem_cons.mpr ⟨isString_writeString _, List.forall_mem_cons.mpr
        ⟨isString_writeString _, List.forall_mem_singleton.mpr (isString_writeString _)⟩⟩
    · have hlist : (Draft.list [.token (octets "1e999")]).Formed :=
        .list (List.forall_mem_singleton.mpr (.token (.number hnumeral)))
      exact List.forall_mem_cons.mpr ⟨Value.formed_draft _, List.forall_mem_cons.mpr
        ⟨hlist, List.forall_mem_singleton.mpr (Value.formed_draft _)⟩⟩
  have htimeout : (Setting.timeoutSecs 60).Written (Value.number (.natural 60)).draft :=
    ⟨_, Value.means_draft rfl, .timeoutSecs 60⟩
  have hurl : (Setting.url "http://localhost").Written (Value.text "http://localhost").draft :=
    ⟨_, Value.means_draft rfl, .url _⟩
  have hsets : Sets partialMembers [.timeoutSecs 60, .url "http://localhost"] :=
    .given (gives_writeString _) htimeout (by decide) <|
      .other (gives_writeString "retries") (by decide) <|
      .given (gives_writeString _) hurl (List.forall_mem_nil _) .nil
  obtain ⟨_, hobject, hlist⟩ := ofBytes_overlaid
  have hblank : Blank [0x20] := by rfl
  obtain ⟨hread, _⟩ := hobject (draftOf_text hformed hblank) hsets
  have hone : Sets [(writeString "url", (Value.text "http://localhost").draft)]
      (settings { standard with url := "http://localhost" } |>.take 1) :=
    .given (gives_writeString _) hurl (List.forall_mem_nil _) .nil
  exact ⟨hread, (hlist { standard with url := "http://localhost" } 1 (draftOf_write _)
    (.cons hurl .nil) (draftOf_write _) hone).1⟩

end Collector

end CrashCourier
