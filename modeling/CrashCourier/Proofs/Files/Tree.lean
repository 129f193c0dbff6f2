import CrashCourier.Proofs.Files.Disk

/-!
# Disks as trees

A list of places makes up a tree if no place comes twice and every place stands in a directory.
Nothing that is done to files and directories breaks this.

A path that leads somewhere leads to the place that its names spell, for which no disk has to be asked
(`follow_eq_resolve`), and it still leads there when directories are added or files come and go
(`follow_of_directories`). So once the directory of a path is made, the path is settled for good. What
making it may add is said by `Grown`: empty directories, at places where the path comes through and
where nothing stood.
-/

namespace CrashCourier.Files

/-- The place that names spell, from a place on. -/
def resolve (place : Place) (names : List String) : Place :=
  names.foldl (fun place name => if name = ".." then place.dropLast else place ++ [name]) place

theorem resolve_eq_append {names : List String} (h : ".." ∉ names) (place : Place) :
    resolve place names = place ++ names := by
  induction names generalizing place with
  | nil => exact (List.append_nil place).symm
  | cons name rest ih =>
      have hname : name ≠ ".." := fun heq => h (heq ▸ List.mem_cons_self)
      have hrest := ih (fun hmem => h (List.mem_cons_of_mem _ hmem)) (place ++ [name])
      unfold resolve at hrest ⊢
      rw [List.foldl_cons, if_neg hname, hrest, List.append_assoc, List.singleton_append]

namespace Disk

variable {disk disk' : Disk} {place q : Place} {entry : Entry}

/-- Every place comes once and stands in a directory, under a name that is not too long, and there is
a directory to begin in. -/
structure Tree (disk : Disk) : Prop where
  nodup : (disk.entries.map Prod.fst).Nodup
  parent : ∀ e ∈ disk.entries, disk.get? e.1.dropLast = some .directory
  name : ∀ e ∈ disk.entries, ∀ name ∈ e.1.getLast?, name.utf8ByteSize ≤ greatestName
  working : disk.get? disk.working = some .directory

instance (disk : Disk) : Decidable disk.Tree :=
  decidable_of_iff ((disk.entries.map Prod.fst).Nodup ∧
      (∀ e ∈ disk.entries, disk.get? e.1.dropLast = some .directory) ∧
      (∀ e ∈ disk.entries, ∀ name ∈ e.1.getLast?, name.utf8ByteSize ≤ greatestName) ∧
      disk.get? disk.working = some .directory)
    ⟨fun h => ⟨h.1, h.2.1, h.2.2.1, h.2.2.2⟩, fun h => ⟨h.nodup, h.parent, h.name, h.working⟩⟩

/-! ## What stands where -/

theorem mem_of_get? (h : disk.get? place = some entry) (hne : place ≠ []) :
    (place, entry) ∈ disk.entries := by
  unfold get? at h
  rw [if_neg hne] at h
  obtain ⟨before, after, heq, _⟩ := List.lookup_eq_some_iff.mp h
  rw [heq]
  simp

theorem Tree.get?_of_mem (h : disk.Tree) (hmem : (place, entry) ∈ disk.entries) (hne : place ≠ []) :
    disk.get? place = some entry := by
  obtain ⟨before, after, heq⟩ := List.append_of_mem hmem
  have hnodup := h.nodup
  rw [heq, List.map_append, List.nodup_append] at hnodup
  unfold get?
  rw [if_neg hne]
  refine List.lookup_eq_some_iff.mpr ⟨before, after, heq, fun e he => ?_⟩
  rw [bne_iff_ne]
  exact fun hplace => hnodup.2.2 e.1 (List.mem_map_of_mem he) place List.mem_cons_self hplace.symm

/-- What stands somewhere stands in a directory. -/
theorem Tree.get?_dropLast (h : disk.Tree) (hget : disk.get? place = some entry) :
    disk.get? place.dropLast = some .directory := by
  by_cases hne : place = []
  · rw [hne]
    rfl
  · exact h.parent _ (mem_of_get? hget hne)

theorem get?_set_self (hne : place ≠ []) : (disk.set place entry).get? place = some entry := by
  unfold get? set
  rw [if_neg hne, List.lookup_cons_self]

theorem get?_set_of_ne (h : q ≠ place) : (disk.set place entry).get? q = disk.get? q := by
  unfold get? set
  rw [lookup_cons_eq_ite, if_neg h, lookup_filter_ne, if_neg h]

/-- An entry is put where no directory is, and into a directory. -/
theorem Tree.set (h : disk.Tree) (hne : place ≠ [])
    (hparent : disk.get? place.dropLast = some .directory)
    (hname : ∀ name ∈ place.getLast?, name.utf8ByteSize ≤ greatestName)
    (hfree : disk.get? place ≠ some .directory) : (disk.set place entry).Tree := by
  have hkeep {q : Place} (hq : disk.get? q = some .directory) :
      (disk.set place entry).get? q = some .directory := by
    rw [get?_set_of_ne (by rintro rfl; exact hfree hq)]
    exact hq
  refine ⟨?_, ?_, ?_, hkeep h.working⟩
  · refine List.nodup_cons.mpr ⟨fun hmem => ?_, (List.filter_sublist.map _).nodup h.nodup⟩
    obtain ⟨e, he, heq⟩ := List.mem_map.mp hmem
    exact of_decide_eq_true (List.mem_filter.mp he).2 heq
  · intro e he
    rcases List.mem_cons.mp he with rfl | he
    · exact hkeep hparent
    · exact hkeep (h.parent e (List.mem_filter.mp he).1)
  · intro e he
    rcases List.mem_cons.mp he with rfl | he
    · exact hname
    · exact h.name e (List.mem_filter.mp he).1

/-- A file is taken away. -/
theorem Tree.erase (h : disk.Tree) {content : Bytes} (hq : disk.get? q = some (.file content)) :
    (disk.erase q).Tree :=
  ⟨(List.filter_sublist.map _).nodup h.nodup,
    fun e he => get?_erase_of_directory hq (h.parent e (List.mem_filter.mp he).1),
    fun e he => h.name e (List.mem_filter.mp he).1,
    get?_erase_of_directory hq h.working⟩

/-! ## Where paths lead -/

/-- A path that leads somewhere leads to the place that its names spell. -/
theorem follow_eq_resolve {names : List String} {d : Place}
    (h : disk.follow place names = .ok d) : d = resolve place names := by
  induction names generalizing place with
  | nil => exact (Except.ok.inj h).symm
  | cons name rest ih =>
      rw [follow_cons (directory_of_follow_cons h)] at h
      by_cases hup : name = ".."
      · rw [if_pos hup] at h
        rw [ih h, resolve, resolve, List.foldl_cons, if_pos hup]
      · by_cases hlong : greatestName < name.utf8ByteSize
        · rw [if_neg hup, if_pos hlong] at h
          cases h
        · rw [if_neg hup, if_neg hlong] at h
          rw [ih h, resolve, resolve, List.foldl_cons, if_neg hup]

/-- A path leads where it led if no directory has gone. -/
theorem follow_of_directories
    (hdirs : ∀ place, disk.get? place = some .directory → disk'.get? place = some .directory)
    {names : List String} {d : Place} (h : disk.follow place names = .ok d) :
    disk'.follow place names = .ok d := by
  induction names generalizing place with
  | nil => exact h
  | cons name rest ih =>
      have hdir := directory_of_follow_cons h
      rw [follow_cons hdir] at h
      rw [follow_cons (hdirs _ hdir)]
      by_cases hup : name = ".."
      · rw [if_pos hup] at h ⊢
        exact ih h
      · rw [if_neg hup] at h ⊢
        by_cases hlong : greatestName < name.utf8ByteSize
        · rw [if_pos hlong] at h
          cases h
        · rw [if_neg hlong] at h ⊢
          exact ih h

/-- The place that a path spells on a disk. -/
def placeOf (disk : Disk) (path : Path) : Place :=
  resolve (if path.absolute then [] else disk.working) path.names

theorem placeOf_congr (h : disk'.working = disk.working) (path : Path) :
    disk'.placeOf path = disk.placeOf path := by
  unfold placeOf
  rw [h]

theorem locatePath_eq_placeOf {path : Path} (h : disk.locatePath path = .ok place) :
    place = disk.placeOf path :=
  follow_eq_resolve h

/-- The same for what a text leads to. The text is no longer asked about. -/
theorem locate_of_directories (hworking : disk'.working = disk.working)
    (hdirs : ∀ place, disk.get? place = some .directory → disk'.get? place = some .directory)
    {text : String} (h : disk.locate text = .ok place) : disk'.locate text = .ok place := by
  have hpath := locatePath_of_locate h
  have hpath' : disk'.locatePath (.ofText text) = .ok place := by
    unfold locatePath at hpath ⊢
    rw [hworking]
    exact follow_of_directories hdirs hpath
  rw [locate_congr (hpath'.trans hpath.symm), h]

/-- Where nothing stands, a path that leads there has come through a directory, by a name that is not
too long. -/
theorem Tree.of_follow_none (h : disk.Tree) {start : Place} (hstart : disk.get? start ≠ none)
    {names : List String} (hfollow : disk.follow start names = .ok place)
    (hnone : disk.get? place = none) :
    place ≠ [] ∧ disk.get? place.dropLast = some .directory ∧
      ∀ name ∈ place.getLast?, name.utf8ByteSize ≤ greatestName := by
  have hne : place ≠ [] := by
    intro hnil
    rw [hnil] at hnone
    cases hnone
  refine ⟨hne, ?_⟩
  rcases List.eq_nil_or_concat names with rfl | ⟨init, last, rfl⟩
  · obtain rfl := Except.ok.inj hfollow
    exact absurd hnone hstart
  · rw [List.concat_eq_append, follow_concat] at hfollow
    obtain ⟨d, _, hlast⟩ : ∃ d, disk.follow start init = .ok d ∧ disk.follow d [last] = .ok place := by
      cases hd : disk.follow start init with
      | error fault =>
          rw [hd] at hfollow
          cases hfollow
      | ok d =>
          rw [hd] at hfollow
          exact ⟨d, rfl, hfollow⟩
    have hdir := directory_of_follow_cons hlast
    by_cases hup : last = ".."
    · -- the way up leads to a directory
      rw [follow_cons hdir, if_pos hup] at hlast
      obtain rfl := Except.ok.inj hlast
      rw [h.get?_dropLast hdir] at hnone
      cases hnone
    · rw [follow_singleton hup hdir] at hlast
      by_cases hlong : greatestName < last.utf8ByteSize
      · rw [if_pos hlong] at hlast
        cases hlast
      · rw [if_neg hlong] at hlast
        obtain rfl := Except.ok.inj hlast
        rw [List.dropLast_concat, List.getLast?_concat]
        refine ⟨hdir, fun name hname => ?_⟩
        rw [← Option.some.inj hname]
        exact Nat.not_lt.mp hlong

/-! ## Listing a directory -/

/-- The names of a directory. -/
def namesIn (disk : Disk) (place : Place) : List String :=
  disk.entries.filterMap fun (there, _) => if there.dropLast = place then there.getLast? else none

theorem list_of_locate {text : String} (h : disk.locate text = .ok place) :
    disk.list text = match disk.get? place with
      | none => .error .notFound
      | some (.file _) => .error .notDirectory
      | some .directory => .ok (disk.namesIn place) := by
  unfold list
  rw [h]
  rfl

theorem getLast?_eq_some_iff {there place : Place} {name : String} :
    (if there.dropLast = place then there.getLast? else none) = some name ↔
      there = place ++ [name] := by
  refine ⟨fun h => ?_, fun h => ?_⟩
  · by_cases hplace : there.dropLast = place
    · rw [if_pos hplace] at h
      obtain ⟨init, rfl⟩ := List.getLast?_eq_some_iff.mp h
      rw [← hplace, List.dropLast_concat]
    · rw [if_neg hplace] at h
      cases h
  · rw [h, List.dropLast_concat, if_pos rfl, List.getLast?_concat]

/-- A name is listed if something stands there. -/
theorem Tree.mem_namesIn (h : disk.Tree) {name : String} :
    name ∈ disk.namesIn place ↔ ∃ entry, disk.get? (place ++ [name]) = some entry := by
  unfold namesIn
  rw [List.mem_filterMap]
  refine ⟨?_, ?_⟩
  · rintro ⟨⟨there, entry⟩, hmem, hname⟩
    obtain rfl := getLast?_eq_some_iff.mp hname
    exact ⟨entry, h.get?_of_mem hmem (by simp)⟩
  · rintro ⟨entry, hget⟩
    exact ⟨(place ++ [name], entry), mem_of_get? hget (by simp), getLast?_eq_some_iff.mpr rfl⟩

/-- What holds of all names in a directory can be seen from the entries. -/
theorem Tree.forall_named_iff (h : disk.Tree) (P : String → Entry → Prop) :
    (∀ name entry, disk.get? (place ++ [name]) = some entry → P name entry) ↔
      ∀ e ∈ disk.entries, e.1.dropLast = place → ∀ name ∈ e.1.getLast?, P name e.2 := by
  refine ⟨?_, ?_⟩
  · rintro hall ⟨there, entry⟩ hmem hdir name hname
    obtain rfl : there = place ++ [name] :=
      getLast?_eq_some_iff.mp (by rw [if_pos hdir]; exact hname)
    exact hall name entry (h.get?_of_mem hmem (by simp))
  · intro hall name entry hget
    exact hall _ (mem_of_get? hget (by simp)) List.dropLast_concat name (by simp)

/-- No name is listed twice. -/
theorem Tree.nodup_namesIn (h : disk.Tree) (place : Place) : (disk.namesIn place).Nodup := by
  have hnodup := h.nodup
  rw [List.Nodup, List.pairwise_map] at hnodup
  refine List.Pairwise.filterMap _ ?_ hnodup
  intro e e' hne name hname name' hname' heq
  rw [getLast?_eq_some_iff.mp hname, getLast?_eq_some_iff.mp hname', heq] at hne
  exact hne rfl

/-! ## Directories that are made -/

/-- The disk with empty directories added, at places of a kind where nothing stood. -/
inductive Grown (disk : Disk) (made : Place → Prop) : Disk → Prop where
  | refl : Grown disk made disk
  | step {disk' : Disk} {place : Place} : Grown disk made disk' → disk'.get? place = none →
      place ≠ [] → disk'.get? place.dropLast = some .directory →
      (∀ name ∈ place.getLast?, name.utf8ByteSize ≤ greatestName) → made place →
      Grown disk made (disk'.set place .directory)

section Growth

variable {made made' : Place → Prop}

theorem Grown.trans {disk'' : Disk} (h : Grown disk made disk') (h' : Grown disk' made disk'') :
    Grown disk made disk'' := by
  induction h' with
  | refl => exact h
  | step _ hnone hne hparent hname hmade ih => exact ih.step hnone hne hparent hname hmade

theorem Grown.working_eq (h : Grown disk made disk') : disk'.working = disk.working := by
  induction h with
  | refl => rfl
  | step _ _ _ _ _ _ ih => exact ih

theorem Grown.tree (h : Grown disk made disk') (htree : disk.Tree) : disk'.Tree := by
  induction h with
  | refl => exact htree
  | step _ hnone hne hparent hname _ ih =>
      refine ih.set hne hparent hname ?_
      rw [hnone]
      exact fun heq => nomatch heq

/-- What stood somewhere stands there still. -/
theorem Grown.get?_of_some (h : Grown disk made disk') (hget : disk.get? place = some entry) :
    disk'.get? place = some entry := by
  induction h with
  | refl => exact hget
  | @step disk' made' _ hnone _ _ _ _ ih =>
      rw [get?_set_of_ne]
      · exact ih
      · rintro rfl
        rw [ih] at hnone
        cases hnone

/-- At other places nothing changes. -/
theorem Grown.get?_of_not_made (h : Grown disk made disk') (hplace : ¬ made place) :
    disk'.get? place = disk.get? place := by
  induction h with
  | refl => rfl
  | step _ _ _ _ _ hmade ih =>
      rw [get?_set_of_ne]
      · exact ih
      · rintro rfl
        exact hplace hmade

/-- What has come is directories. -/
theorem Grown.get?_cases (h : Grown disk made disk') (place : Place) :
    disk'.get? place = disk.get? place ∨
      disk.get? place = none ∧ disk'.get? place = some .directory := by
  induction h with
  | refl => exact .inl rfl
  | @step disk' there hgrown hnone hne _ _ _ ih =>
      by_cases hplace : place = there
      · subst hplace
        rcases ih with heq | ⟨hfree, _⟩
        · exact .inr ⟨heq ▸ hnone, get?_set_self hne⟩
        · exact .inr ⟨hfree, get?_set_self hne⟩
      · rw [get?_set_of_ne hplace]
        exact ih

/-- The directory that a path leads to is there. -/
def Leads (disk : Disk) (path : Path) : Prop :=
  disk.locatePath path = .ok (disk.placeOf path) ∧
    disk.get? (disk.placeOf path) = some .directory

theorem Leads.grown {path : Path} (h : disk.Leads path) (hgrown : Grown disk made disk') :
    disk'.Leads path := by
  have hplace := placeOf_congr hgrown.working_eq path
  have hfollow := h.1
  unfold locatePath at hfollow
  refine ⟨?_, ?_⟩
  · unfold locatePath
    rw [hplace, hgrown.working_eq]
    exact follow_of_directories (fun _ hdir => hgrown.get?_of_some hdir) hfollow
  · rw [hplace]
    exact hgrown.get?_of_some h.2

theorem ensureDirectory_of_locate {path : Path} (h : disk.locatePath path = .ok place) :
    disk.ensureDirectory path = match disk.get? place with
      | some .directory => .ok disk
      | some (.file _) => .error .exists
      | none => .ok (disk.set place .directory) := by
  unfold ensureDirectory
  rw [h]
  rfl

/-- One directory is made, unless it is there. -/
theorem Tree.ensureDirectory_ok (h : disk.Tree) {path : Path}
    (hmade : disk.ensureDirectory path = .ok disk') :
    Grown disk (· = disk.placeOf path) disk' ∧ disk'.Leads path := by
  cases hlocate : disk.locatePath path with
  | error fault =>
      unfold ensureDirectory at hmade
      rw [hlocate] at hmade
      cases hmade
  | ok place =>
      rw [ensureDirectory_of_locate hlocate] at hmade
      have hplace := locatePath_eq_placeOf hlocate
      cases hget : disk.get? place with
      | none =>
          rw [hget] at hmade
          obtain rfl := Except.ok.inj hmade
          have hstart : disk.get? (if path.absolute then [] else disk.working) ≠ none := by
            split
            · exact fun hnone => nomatch hnone
            · rw [h.working]
              exact fun hnone => nomatch hnone
          obtain ⟨hne, hparent, hname⟩ := h.of_follow_none hstart hlocate hget
          have hgrown : Grown disk (· = disk.placeOf path) (disk.set place .directory) :=
            .step .refl hget hne hparent hname hplace
          refine ⟨hgrown, ?_, ?_⟩
          · have hfollow := hlocate
            unfold locatePath at hfollow ⊢
            show _ = Except.ok (disk.placeOf path)
            rw [← hplace]
            exact follow_of_directories (fun _ hdir => hgrown.get?_of_some hdir) hfollow
          · show (disk.set place .directory).get? (disk.placeOf path) = _
            rw [← hplace]
            exact get?_set_self hne
      | some entry =>
          rw [hget] at hmade
          cases entry with
          | file content => cases hmade
          | directory =>
              obtain rfl := Except.ok.inj hmade
              exact ⟨.refl, hplace ▸ hlocate, hplace ▸ hget⟩

theorem Grown.mono (h : Grown disk made disk') (hsub : ∀ place, made place → made' place) :
    Grown disk made' disk' := by
  induction h with
  | refl => exact .refl
  | step _ hnone hne hparent hname hmade ih => exact ih.step hnone hne hparent hname (hsub _ hmade)

/-- Directories are made up to the first that fails. -/
theorem Tree.ensureEach_grown (h : disk.Tree) {paths : List Path} {r : Except Fault Unit}
    (hmade : disk.ensureEach paths = (r, disk')) :
    Grown disk (fun place => ∃ path ∈ paths, place = disk.placeOf path) disk' ∧
      (r = .ok () → ∀ path ∈ paths, disk'.Leads path) := by
  induction paths generalizing disk with
  | nil =>
      obtain ⟨rfl, rfl⟩ := Prod.mk.inj hmade
      exact ⟨.refl, fun _ path hpath => absurd hpath List.not_mem_nil⟩
  | cons path rest ih =>
      rw [ensureEach] at hmade
      cases hfirst : disk.ensureDirectory path with
      | error fault =>
          rw [hfirst] at hmade
          obtain ⟨rfl, rfl⟩ := Prod.mk.inj hmade
          exact ⟨.refl, fun hr => nomatch hr⟩
      | ok disk₁ =>
          rw [hfirst] at hmade
          obtain ⟨hgrown, hleads⟩ := h.ensureDirectory_ok hfirst
          obtain ⟨hrest, hall⟩ := ih (hgrown.tree h) hmade
          have hplaces := placeOf_congr hgrown.working_eq
          refine ⟨(hgrown.mono ?_).trans (hrest.mono ?_), fun hr => ?_⟩
          · exact fun place hplace => ⟨path, List.mem_cons_self, hplace⟩
          · rintro place ⟨path', hpath', hplace⟩
            exact ⟨path', List.mem_cons_of_mem _ hpath', hplace.trans (hplaces path')⟩
          · exact List.forall_mem_cons.mpr ⟨hleads.grown hrest, hall hr⟩

/-! ### Making the directory of a text -/

/-- What a text leads to is what its path leads to, if the text is one of a path at all. -/
theorem locate_eq_locatePath {text : String} (hnul : '\x00' ∉ text.toList)
    (hlong : text.utf8ByteSize ≤ greatestPath) (hne : text ≠ "") :
    disk.locate text = disk.locatePath (.ofText text) := by
  unfold locate
  rw [if_neg (by simpa using hnul), if_neg (Nat.not_lt.mpr hlong), if_neg hne]

theorem nul_not_mem_of_locate {text : String} (h : disk.locate text = .ok place) :
    '\x00' ∉ text.toList := by
  intro hnul
  unfold locate at h
  rw [if_pos (by simpa using hnul)] at h
  cases h

/-- A text is refused for what it is on every disk or on none. -/
theorem locate_eq_locatePath_of_locate {text : String} (hne : text ≠ "")
    (h : (∃ place, disk.locate text = .ok place) ∨ disk.locate text = .error .notFound) :
    disk'.locate text = disk'.locatePath (.ofText text) := by
  unfold locate at h
  by_cases hnul : text.toList.contains '\x00'
  · rw [if_pos hnul] at h
    rcases h with ⟨place, h⟩ | h <;> cases h
  · by_cases hlong : greatestPath < text.utf8ByteSize
    · rw [if_neg hnul, if_pos hlong] at h
      rcases h with ⟨place, h⟩ | h <;> cases h
    · exact locate_eq_locatePath (by simpa using hnul) (Nat.not_lt.mp hlong) hne

/-- The directory that a text leads to is there. -/
def LeadsText (disk : Disk) (text : String) : Prop :=
  disk.locate text = .ok (disk.placeOf (.ofText text)) ∧
    disk.get? (disk.placeOf (.ofText text)) = some .directory

/-- The places that a path comes through, and its own. -/
def Way (disk : Disk) (path : Path) (place : Place) : Prop :=
  ∃ names, names <+: path.names ∧ place = disk.placeOf { path with names }

/-- Making directories on the way of a text, and the last of them in particular. -/
theorem Tree.ensureEach_way (h : disk.Tree) {text : String} (hne : text ≠ "") {paths : List Path}
    (hway : ∀ path ∈ paths, ∃ names, names <+: (Path.ofText text).names ∧
      path = { Path.ofText text with names })
    (hlast : Path.ofText text ∈ paths)
    (hlocate : (∃ place, disk.locate text = .ok place) ∨ disk.locate text = .error .notFound)
    {r : Except Fault Unit} (hmade : disk.ensureEach paths = (r, disk')) :
    Grown disk (disk.Way (.ofText text)) disk' ∧ (r = .ok () → disk'.LeadsText text) := by
  obtain ⟨hgrown, hleads⟩ := h.ensureEach_grown hmade
  refine ⟨hgrown.mono ?_, fun hr => ?_⟩
  · rintro place ⟨path, hpath, rfl⟩
    obtain ⟨names, hnames, rfl⟩ := hway path hpath
    exact ⟨names, hnames, rfl⟩
  · obtain ⟨hplace, hdir⟩ := hleads hr _ hlast
    exact ⟨(locate_eq_locatePath_of_locate hne hlocate).trans hplace, hdir⟩

/-- Making a directory makes directories on the way to it, and if nothing fails it is there. -/
theorem Tree.makeDirectories_grown (h : disk.Tree) {text : String} (hne : text ≠ "")
    {r : Except Fault Unit} (hmade : disk.makeDirectories text = (r, disk')) :
    Grown disk (disk.Way (.ofText text)) disk' ∧ (r = .ok () → disk'.LeadsText text) := by
  unfold makeDirectories at hmade
  dsimp only at hmade
  rw [if_neg hne] at hmade
  cases hlocate : disk.locate text with
  | ok place =>
      rw [hlocate] at hmade
      refine h.ensureEach_way hne ?_ (List.mem_singleton.mpr rfl) (.inl ⟨place, hlocate⟩) hmade
      intro path hpath
      obtain rfl := List.mem_singleton.mp hpath
      exact ⟨_, List.prefix_refl _, rfl⟩
  | error fault =>
      rw [hlocate] at hmade
      by_cases hfault : fault = .notFound
      · subst hfault
        refine h.ensureEach_way hne ?_ ?_ (.inr hlocate) hmade
        · intro path hpath
          obtain ⟨n, _, rfl⟩ := List.mem_map.mp hpath
          exact ⟨_, List.take_prefix _ _, rfl⟩
        · refine List.mem_map.mpr ⟨(Path.ofText text).names.length, ?_, ?_⟩
          · exact List.mem_range.mpr (Nat.lt_succ_self _)
          · rw [List.take_length]
      · -- the text is refused before anything is made
        have hrefused : disk' = disk ∧ r ≠ .ok () := by
          cases fault with
          | notFound => exact absurd rfl hfault
          | _ =>
            obtain ⟨rfl, rfl⟩ := Prod.mk.inj hmade
            exact ⟨rfl, fun hr => nomatch hr⟩
        obtain ⟨rfl, hr⟩ := hrefused
        exact ⟨.refl, fun hok => absurd hok hr⟩

/-- Where the directory is, nothing is made. -/
theorem LeadsText.makeDirectories_eq {text : String} (h : disk.LeadsText text) :
    disk.makeDirectories text = (.ok (), disk) := by
  obtain ⟨hlocate, hdir⟩ := h
  have hpath := locatePath_of_locate hlocate
  unfold makeDirectories
  dsimp only
  by_cases hne : text = ""
  · rw [if_pos hne]
    rfl
  · rw [if_neg hne, hlocate]
    dsimp only
    rw [ensureEach, ensureDirectory_of_locate hpath, hdir]
    rfl

/-- The directory is there still if none has gone. -/
theorem LeadsText.of_directories {text : String} (h : disk.LeadsText text)
    (hworking : disk'.working = disk.working)
    (hdirs : ∀ place, disk.get? place = some .directory → disk'.get? place = some .directory) :
    disk'.LeadsText text := by
  have hplace := placeOf_congr hworking (.ofText text)
  refine ⟨?_, ?_⟩
  · rw [hplace]
    exact locate_of_directories hworking hdirs h.1
  · rw [hplace]
    exact hdirs _ h.2

end Growth

end Disk

end CrashCourier.Files
