import CrashCourier.Proofs.Files.Tree
import CrashCourier.Proofs.Store.Files

/-!
# The directory of reports

For a plain layout the path of a report is its name in the directory of reports, so that a number has
one place on the disk (`Layout.place`), which does not change as long as the working directory does
not. What stands at these places is what the directory holds (`Layout.records`).

The directory may hold anything else as well. It is orderly if a name that is read as a number is the
name of that number, and a file stands there. Then what is listed are the numbers of the records, each
once (`mem_idsOf`, `pairwise_idsOf`), and reading, removing and writing work on the records as on a
map and on nothing else.
-/

namespace CrashCourier

open Files

/-! ## The path of a report -/

/-- The layout of a bundle under a directory. -/
def Layout.under (bundleId basePath : String) : Layout :=
  ⟨bundleId, FileStore.reportsDirectory basePath⟩

/-- The reports are names in the directory of reports, and a file system takes them. -/
structure Layout.Plain (l : Layout) : Prop where
  slash : '/' ∉ l.bundleId.toList
  nul : '\x00' ∉ l.bundleId.toList
  name : l.bundleId.utf8ByteSize + 29 ≤ Disk.greatestName
  path : l.directory.utf8ByteSize + l.bundleId.utf8ByteSize + 30 ≤ Disk.greatestPath
  directory : ∃ c ≠ '/', l.directory.toList.getLast? = some c

theorem FileStore.getLast?_reportsDirectory (basePath : String) :
    (reportsDirectory basePath).toList.getLast? = some 's' := by
  unfold reportsDirectory join
  have hlast : "Reports".toList.getLast? = some 's' := by decide
  split
  · exact hlast
  · split <;> rw [String.toList_append, List.getLast?_append, hlast, Option.some_or]

theorem FileStore.reportsDirectory_ne_empty (basePath : String) : reportsDirectory basePath ≠ "" := by
  intro hempty
  have hlast := getLast?_reportsDirectory basePath
  rw [hempty] at hlast
  cases hlast

/-- The path of the directory ends in its name. -/
theorem Layout.directory_under (bundleId basePath : String) :
    ∃ c ≠ '/', (Layout.under bundleId basePath).directory.toList.getLast? = some c :=
  ⟨'s', by decide, FileStore.getLast?_reportsDirectory basePath⟩

theorem Layout.plain_under {bundleId basePath : String} (hslash : '/' ∉ bundleId.toList)
    (hnul : '\x00' ∉ bundleId.toList) (hname : bundleId.utf8ByteSize + 29 ≤ Disk.greatestName)
    (hpath : (FileStore.reportsDirectory basePath).utf8ByteSize + bundleId.utf8ByteSize + 30 ≤
      Disk.greatestPath) : (Layout.under bundleId basePath).Plain :=
  ⟨hslash, hnul, hname, hpath, Layout.directory_under bundleId basePath⟩

namespace Layout

variable {l : Layout} {disk disk' : Disk} {id : Int64} {content : Bytes}

theorem Plain.directory_ne (h : l.Plain) : l.directory ≠ "" := by
  obtain ⟨c, _, hlast⟩ := h.directory
  intro hempty
  rw [hempty] at hlast
  cases hlast

theorem slash_not_mem_format (h : '/' ∉ l.bundleId.toList) (id : Int64) :
    '/' ∉ (ReportName.format l.bundleId id).toList := by
  rw [ReportName.format_toList, List.mem_append, not_or]
  exact ⟨h, ReportName.slash_not_mem_behind id⟩

theorem reportPath_eq (hslash : '/' ∉ l.bundleId.toList)
    (hdirectory : ∃ c ≠ '/', l.directory.toList.getLast? = some c) (id : Int64) :
    l.reportPath id = l.directory ++ "/" ++ ReportName.format l.bundleId id := by
  obtain ⟨c, hc, hlast⟩ := hdirectory
  have hrelative : isAbsolute (ReportName.format l.bundleId id) = false := by
    unfold isAbsolute
    rw [beq_eq_false_iff_ne]
    exact fun hhead => slash_not_mem_format hslash id (List.mem_of_mem_head? hhead)
  have hopen : l.directory.toList.getLast? ≠ some '/' := by
    rw [hlast]
    exact fun heq => hc (Option.some.inj heq)
  unfold reportPath join
  rw [hrelative, if_neg, if_neg hopen]
  rintro (hfalse | hempty)
  · cases hfalse
  · rw [String.isEmpty_iff.mp hempty] at hlast
    cases hlast

/-- Taken apart, the path of a report is that of the directory and the name. -/
theorem splitOn_reportPath (hslash : '/' ∉ l.bundleId.toList)
    (hdirectory : ∃ c ≠ '/', l.directory.toList.getLast? = some c) (id : Int64) :
    (l.reportPath id).toList.splitOn '/' =
      l.directory.toList.splitOn '/' ++ [(ReportName.format l.bundleId id).toList] := by
  have hcons : (l.reportPath id).toList =
      l.directory.toList ++ '/' :: (ReportName.format l.bundleId id).toList := by
    rw [reportPath_eq hslash hdirectory, String.toList_append, String.toList_append,
      List.append_assoc]
    rfl
  rw [hcons, List.splitOn_append_cons_self,
    List.splitOn_eq_singleton (slash_not_mem_format hslash id)]

/-- A name with a dash in it is none of those that lead nowhere or up. -/
theorem toList_format_ne {bundleId : String} {text : List Char} (h : '-' ∉ text) (id : Int64) :
    (ReportName.format bundleId id).toList ≠ text := by
  rintro rfl
  obtain ⟨rest, hrest⟩ := ReportName.behind_eq_cons id
  rw [ReportName.format_toList, hrest] at h
  exact h (List.mem_append_right _ List.mem_cons_self)

theorem format_ne {bundleId text : String} (h : '-' ∉ text.toList) (id : Int64) :
    ReportName.format bundleId id ≠ text :=
  fun heq => toList_format_ne h id (congrArg String.toList heq)

theorem ofText_reportPath (hslash : '/' ∉ l.bundleId.toList)
    (hdirectory : ∃ c ≠ '/', l.directory.toList.getLast? = some c) (id : Int64) :
    Path.ofText (l.reportPath id) =
      ⟨(Path.ofText l.directory).absolute,
        (Path.ofText l.directory).names ++ [ReportName.format l.bundleId id]⟩ := by
  have hempty : ReportName.format l.bundleId id ≠ "" := format_ne (by decide) id
  have hdot : ReportName.format l.bundleId id ≠ "." := format_ne (by decide) id
  -- the directory is not empty, so it is what the path begins with
  have habs : isAbsolute (l.reportPath id) = isAbsolute l.directory := by
    unfold isAbsolute
    rw [reportPath_eq hslash hdirectory, String.toList_append, String.toList_append]
    obtain ⟨c, _, hlast⟩ := hdirectory
    cases htext : l.directory.toList with
    | nil =>
        rw [htext] at hlast
        cases hlast
    | cons first rest => rfl
  unfold Path.ofText
  rw [habs, splitOn_reportPath hslash hdirectory, List.map_append, List.filter_append,
    List.map_singleton, String.ofList_toList,
    List.filter_cons_of_pos (by simp only [ne_eq, hempty, hdot]; decide), List.filter_nil]

theorem saysDirectory_reportPath (hslash : '/' ∉ l.bundleId.toList)
    (hdirectory : ∃ c ≠ '/', l.directory.toList.getLast? = some c) (id : Int64) :
    saysDirectory (l.reportPath id) = false := by
  unfold saysDirectory
  rw [splitOn_reportPath hslash hdirectory, List.getLast?_concat]
  dsimp only
  rw [beq_eq_false_iff_ne.mpr (toList_format_ne (by decide) id),
    beq_eq_false_iff_ne.mpr (toList_format_ne (by decide) id),
    beq_eq_false_iff_ne.mpr (toList_format_ne (by decide) id)]
  rfl

theorem utf8ByteSize_reportPath (hslash : '/' ∉ l.bundleId.toList)
    (hdirectory : ∃ c ≠ '/', l.directory.toList.getLast? = some c) (id : Int64) :
    (l.reportPath id).utf8ByteSize =
      l.directory.utf8ByteSize + l.bundleId.utf8ByteSize + 30 := by
  have hone : "/".utf8ByteSize = 1 := by decide
  rw [reportPath_eq hslash hdirectory, String.utf8ByteSize_append, String.utf8ByteSize_append,
    ReportName.utf8ByteSize_format]
  omega

theorem nul_mem_reportPath (hslash : '/' ∉ l.bundleId.toList)
    (hdirectory : ∃ c ≠ '/', l.directory.toList.getLast? = some c)
    (hnul : '\x00' ∉ l.directory.toList) (id : Int64) :
    '\x00' ∈ (l.reportPath id).toList ↔ '\x00' ∈ l.bundleId.toList := by
  have hbehind := ReportName.nul_not_mem_behind id
  have hone : '\x00' ∉ "/".toList := by decide
  rw [reportPath_eq hslash hdirectory, String.toList_append, String.toList_append,
    ReportName.format_toList]
  simp only [List.mem_append, hnul, hone, hbehind, false_or, or_false]

/-! ## The place of a report -/

/-- The place of the directory of reports. -/
def home (l : Layout) (disk : Disk) : Place := disk.placeOf (.ofText l.directory)

/-- The place of a report. -/
def place (l : Layout) (disk : Disk) (id : Int64) : Place :=
  l.home disk ++ [ReportName.format l.bundleId id]

theorem home_congr (l : Layout) (h : disk'.working = disk.working) : l.home disk' = l.home disk :=
  Disk.placeOf_congr h _

theorem place_congr (l : Layout) (h : disk'.working = disk.working) (id : Int64) :
    l.place disk' id = l.place disk id := by
  unfold place
  rw [l.home_congr h]

theorem place_injective {id' : Int64} (h : l.place disk id = l.place disk id') : id = id' :=
  ReportName.format_injective (List.singleton_inj.mp (List.append_cancel_left h))

theorem place_ne_nil (l : Layout) (disk : Disk) (id : Int64) : l.place disk id ≠ [] := by
  unfold place
  simp

theorem dropLast_place (l : Layout) (disk : Disk) (id : Int64) :
    (l.place disk id).dropLast = l.home disk :=
  List.dropLast_concat

/-- The path of a report leads to its place, unless it is refused for what it is made of. -/
theorem locate_reportPath_eq (hslash : '/' ∉ l.bundleId.toList)
    (hdirectory : ∃ c ≠ '/', l.directory.toList.getLast? = some c)
    (hleads : disk.LeadsText l.directory) (id : Int64) :
    disk.locate (l.reportPath id) =
      if '\x00' ∈ l.bundleId.toList then .error .holdsNul
      else if Disk.greatestPath < l.directory.utf8ByteSize + l.bundleId.utf8ByteSize + 30 then
        .error .nameTooLong
      else if Disk.greatestName < l.bundleId.utf8ByteSize + 29 then .error .nameTooLong
      else .ok (l.place disk id) := by
  obtain ⟨hlocate, hdir⟩ := hleads
  have hpath := Disk.locatePath_of_locate hlocate
  have hup : ReportName.format l.bundleId id ≠ ".." := format_ne (by decide) id
  have hsize := utf8ByteSize_reportPath hslash hdirectory id
  have hne : l.reportPath id ≠ "" := by
    intro hempty
    have hzero : "".utf8ByteSize = 0 := rfl
    rw [hempty] at hsize
    omega
  have hfollow : disk.locatePath (.ofText (l.reportPath id)) =
      if Disk.greatestName < l.bundleId.utf8ByteSize + 29 then .error .nameTooLong
      else .ok (l.place disk id) := by
    rw [ofText_reportPath hslash hdirectory]
    unfold Disk.locatePath at hpath ⊢
    dsimp only
    rw [Disk.follow_concat, hpath]
    show disk.follow (disk.placeOf (.ofText l.directory)) [ReportName.format l.bundleId id] = _
    rw [Disk.follow_singleton hup hdir, ReportName.utf8ByteSize_format]
    rfl
  have hnul : (l.reportPath id).toList.contains '\x00' = true ↔ '\x00' ∈ l.bundleId.toList := by
    rw [List.contains_iff_mem]
    exact nul_mem_reportPath hslash hdirectory (Disk.nul_not_mem_of_locate hlocate) id
  unfold Disk.locate
  rw [if_neg hne, hfollow, hsize]
  simp only [hnul]
  rfl

/-- If the path of a report leads anywhere, a file system takes the name. -/
theorem name_le_of_locate (hslash : '/' ∉ l.bundleId.toList)
    (hdirectory : ∃ c ≠ '/', l.directory.toList.getLast? = some c)
    (hleads : disk.LeadsText l.directory) {q : Place} (hl : disk.locate (l.reportPath id) = .ok q) :
    l.bundleId.utf8ByteSize + 29 ≤ Disk.greatestName := by
  by_contra hlong
  rw [locate_reportPath_eq hslash hdirectory hleads, if_pos (Nat.not_le.mp hlong)] at hl
  split at hl
  · cases hl
  · split at hl <;> cases hl

/-- Where the directory is there, nothing of the path of a report is missing. -/
theorem locate_reportPath_ne_notFound (hslash : '/' ∉ l.bundleId.toList)
    (hdirectory : ∃ c ≠ '/', l.directory.toList.getLast? = some c)
    (hleads : disk.LeadsText l.directory) (id : Int64) :
    disk.locate (l.reportPath id) ≠ .error .notFound := by
  rw [locate_reportPath_eq hslash hdirectory hleads]
  split
  · exact fun h => nomatch h
  · split
    · exact fun h => nomatch h
    · split
      · exact fun h => nomatch h
      · exact fun h => nomatch h

theorem Plain.locate_reportPath (h : l.Plain) (hleads : disk.LeadsText l.directory) (id : Int64) :
    disk.locate (l.reportPath id) = .ok (l.place disk id) := by
  rw [locate_reportPath_eq h.slash h.directory hleads, if_neg h.nul, if_neg (Nat.not_lt.mpr h.path),
    if_neg (Nat.not_lt.mpr h.name)]

/-- If the path of a report leads anywhere, it leads to its place, and the directory is there. -/
theorem place_of_locate (hslash : '/' ∉ l.bundleId.toList)
    (hdirectory : ∃ c ≠ '/', l.directory.toList.getLast? = some c) {q : Place}
    (hl : disk.locate (l.reportPath id) = .ok q) :
    q = l.place disk id ∧ disk.get? (l.home disk) = some .directory := by
  have hpath := Disk.locatePath_of_locate hl
  rw [ofText_reportPath hslash hdirectory] at hpath
  obtain ⟨d, hd, hdir, rfl⟩ := Disk.locatePath_concat (format_ne (by decide) id) hpath
  have hhome : d = l.home disk := Disk.locatePath_eq_placeOf hd
  rw [hhome] at hdir ⊢
  exact ⟨rfl, hdir⟩

/-! ## What the directory holds -/

/-- The records in the directory of reports. -/
def records (l : Layout) (disk : Disk) : Records := fun id =>
  match disk.get? (l.place disk id) with
  | some (.file content) => some content
  | _ => none

theorem records_eq_some_iff :
    l.records disk id = some content ↔ disk.get? (l.place disk id) = some (.file content) := by
  unfold records
  cases disk.get? (l.place disk id) with
  | none => simp
  | some entry =>
      cases entry with
      | directory => simp
      | file _ => simp

/-- What is named as a report is a report, and named as it should be. -/
structure Orderly (l : Layout) (disk : Disk) : Prop where
  tree : disk.Tree
  canonical : ∀ {name entry id}, disk.get? (l.home disk ++ [name]) = some entry →
    ReportName.parse? name l.bundleId = some id →
    name = ReportName.format l.bundleId id ∧ ∃ content, entry = .file content

/-- Whether a directory is orderly can be seen from its entries. -/
theorem orderly_iff : l.Orderly disk ↔ disk.Tree ∧ ∀ e ∈ disk.entries,
    e.1.dropLast = l.home disk → ∀ name ∈ e.1.getLast?,
      (ReportName.parse? name l.bundleId).all fun id =>
        name = ReportName.format l.bundleId id ∧ e.2 ≠ .directory := by
  let P (name : String) (entry : Entry) : Prop := ∀ id,
    ReportName.parse? name l.bundleId = some id →
      name = ReportName.format l.bundleId id ∧ ∃ content, entry = .file content
  have hentry : ∀ name entry, ((ReportName.parse? name l.bundleId).all fun id =>
      name = ReportName.format l.bundleId id ∧ entry ≠ .directory) = true ↔ P name entry := by
    intro name entry
    rw [Option.all_eq_true]
    cases entry with
    | directory => simp [P]
    | file content => simp [P]
  simp only [hentry]
  refine ⟨fun h => ⟨h.tree, ?_⟩, fun ⟨htree, h⟩ => ⟨htree, fun {name entry id} hget => ?_⟩⟩
  · exact (h.tree.forall_named_iff P).mp fun name entry hget id => h.canonical hget
  · exact (htree.forall_named_iff P).mpr h name entry hget id

instance (l : Layout) (disk : Disk) : Decidable (l.Orderly disk) :=
  decidable_of_iff _ orderly_iff.symm

theorem Orderly.get?_place (h : l.Orderly disk) (id : Int64) :
    disk.get? (l.place disk id) = (l.records disk id).map .file := by
  unfold records
  cases hget : disk.get? (l.place disk id) with
  | none => rfl
  | some entry =>
      obtain ⟨_, content, rfl⟩ := h.canonical hget (ReportName.parse?_format l.bundleId id)
      rfl

theorem Orderly.not_directory (h : l.Orderly disk) (id : Int64) :
    disk.get? (l.place disk id) ≠ some .directory := by
  rw [h.get?_place]
  cases l.records disk id with
  | none => exact fun heq => nomatch heq
  | some content => exact fun heq => nomatch heq

/-! ## Removing and writing -/

/-- Only reports have changed. -/
structure Kept (l : Layout) (disk disk' : Disk) : Prop where
  working : disk'.working = disk.working
  others : ∀ place, (∀ id, place ≠ l.place disk id) → disk'.get? place = disk.get? place

theorem Kept.refl (l : Layout) (disk : Disk) : l.Kept disk disk := ⟨rfl, fun _ _ => rfl⟩

theorem Kept.trans {disk'' : Disk} (h : l.Kept disk disk') (h' : l.Kept disk' disk'') :
    l.Kept disk disk'' := by
  refine ⟨h'.working.trans h.working, fun place hplace => ?_⟩
  have hplace' : ∀ id, place ≠ l.place disk' id := by
    intro id
    rw [l.place_congr h.working]
    exact hplace id
  rw [h'.others place hplace', h.others place hplace]

/-- What is named otherwise than a report has not changed. -/
theorem Kept.foreign (h : l.Kept disk disk') {name : String}
    (hname : ReportName.parse? name l.bundleId = none) :
    disk'.get? (l.home disk ++ [name]) = disk.get? (l.home disk ++ [name]) := by
  refine h.others _ fun id heq => ?_
  have hparse := ReportName.parse?_format l.bundleId id
  rw [← List.singleton_inj.mp (List.append_cancel_left heq)] at hparse
  cases hname.symm.trans hparse

/-- A report is taken away. -/
theorem Orderly.erase (h : l.Orderly disk) (hrecord : l.records disk id = some content) :
    l.Orderly (disk.erase (l.place disk id)) ∧
      l.records (disk.erase (l.place disk id)) = (l.records disk).without [id] ∧
      l.Kept disk (disk.erase (l.place disk id)) := by
  have hfile : disk.get? (l.place disk id) = some (.file content) := by
    rw [h.get?_place, hrecord]
    rfl
  refine ⟨⟨h.tree.erase hfile, fun {name entry id'} hget hparse => ?_⟩, ?_, rfl, ?_⟩
  · by_cases hname : l.home disk ++ [name] = l.place disk id
    · change (disk.erase (l.place disk id)).get? (l.home disk ++ [name]) = _ at hget
      rw [hname, Disk.get?_erase_self (l.place_ne_nil disk id)] at hget
      cases hget
    · exact h.canonical ((Disk.get?_erase_of_ne hname).symm.trans hget) hparse
  · funext id'
    rw [Records.without_apply]
    unfold records
    change (match (disk.erase (l.place disk id)).get? (l.place disk id') with
      | some (.file content) => some content
      | _ => none) = _
    by_cases hid : id' = id
    · rw [hid, Disk.get?_erase_self (l.place_ne_nil disk id), if_pos (List.mem_singleton.mpr rfl)]
    · rw [Disk.get?_erase_of_ne fun heq => hid (place_injective heq),
        if_neg (by simpa using hid)]
  · exact fun place hplace => Disk.get?_erase_of_ne (hplace id)

/-- A report is written. -/
theorem Orderly.set (h : l.Orderly disk) (hplain : l.Plain)
    (hdir : disk.get? (l.home disk) = some .directory) (id : Int64) (content : Bytes) :
    l.Orderly (disk.set (l.place disk id) (.file content)) ∧
      l.records (disk.set (l.place disk id) (.file content)) = (l.records disk).put id content ∧
      l.Kept disk (disk.set (l.place disk id) (.file content)) := by
  have hne := l.place_ne_nil disk id
  have hparent : disk.get? (l.place disk id).dropLast = some .directory := by
    rw [dropLast_place]
    exact hdir
  have hfree := h.not_directory id
  have hname : ∀ name ∈ (l.place disk id).getLast?, name.utf8ByteSize ≤ Disk.greatestName := by
    rw [place, List.getLast?_concat]
    rintro _ ⟨⟩
    rw [ReportName.utf8ByteSize_format]
    exact hplain.name
  refine ⟨⟨h.tree.set hne hparent hname hfree, fun {name entry id'} hget hparse => ?_⟩, ?_, rfl, ?_⟩
  · change (disk.set (l.place disk id) (.file content)).get? (l.home disk ++ [name]) = _ at hget
    by_cases hname : l.home disk ++ [name] = l.place disk id
    · -- the name is the one that was written, and it says its number
      rw [hname, Disk.get?_set_self hne] at hget
      have hformat := List.singleton_inj.mp (List.append_cancel_left hname)
      rw [hformat, ReportName.parse?_format] at hparse
      exact ⟨Option.some.inj hparse ▸ hformat, content, (Option.some.inj hget).symm⟩
    · rw [Disk.get?_set_of_ne hname] at hget
      exact h.canonical hget hparse
  · funext id'
    unfold records Records.put
    change (match (disk.set (l.place disk id) (.file content)).get? (l.place disk id') with
      | some (.file content) => some content
      | _ => none) = _
    by_cases hid : id' = id
    · rw [hid, Disk.get?_set_self hne, if_pos rfl]
    · rw [Disk.get?_set_of_ne fun heq => hid (place_injective heq), if_neg hid]
  · exact fun place hplace => Disk.get?_set_of_ne (hplace id)

/-! ## Making the directory -/

/-- On the way to the directory of reports there is no place that is named as a report. -/
def Clear (l : Layout) (disk : Disk) : Prop :=
  ∀ name, disk.Way (.ofText l.directory) (l.home disk ++ [name]) →
    ReportName.parse? name l.bundleId = none

/-- What is no report stands where it stood. Directories may have come on the way. -/
structure Spared (l : Layout) (disk disk' : Disk) : Prop where
  working : disk'.working = disk.working
  others : ∀ place, (∀ id, place ≠ l.place disk id) → disk'.get? place = disk.get? place ∨
    disk.Way (.ofText l.directory) place ∧ disk.get? place = none ∧
      disk'.get? place = some .directory

theorem Kept.spared (h : l.Kept disk disk') : l.Spared disk disk' :=
  ⟨h.working, fun place hplace => .inl (h.others place hplace)⟩

theorem way_congr (h : disk'.working = disk.working) (path : Path) (place : Place) :
    disk'.Way path place ↔ disk.Way path place := by
  unfold Disk.Way
  simp only [Disk.placeOf_congr h]

theorem Spared.trans {disk'' : Disk} (h : l.Spared disk disk') (h' : l.Spared disk' disk'') :
    l.Spared disk disk'' := by
  refine ⟨h'.working.trans h.working, fun place hplace => ?_⟩
  have hplace' : ∀ id, place ≠ l.place disk' id := by
    intro id
    rw [l.place_congr h.working]
    exact hplace id
  rcases h.others place hplace with hsame | ⟨hway, hnone, hdir⟩
  · rcases h'.others place hplace' with hsame' | ⟨hway', hnone', hdir'⟩
    · exact .inl (hsame'.trans hsame)
    · exact .inr ⟨(way_congr h.working _ _).mp hway', hsame ▸ hnone', hdir'⟩
  · rcases h'.others place hplace' with hsame' | ⟨_, hnone', _⟩
    · exact .inr ⟨hway, hnone, hsame'.trans hdir⟩
    · rw [hdir] at hnone'
      cases hnone'

theorem Clear.congr (h : l.Clear disk) (hworking : disk'.working = disk.working) : l.Clear disk' := by
  intro name hway
  rw [l.home_congr hworking] at hway
  exact h name ((way_congr hworking _ _).mp hway)

/-- A path that never goes up is clear. -/
theorem clear_of_names {disk : Disk} (h : ".." ∉ (Path.ofText l.directory).names) : l.Clear disk := by
  rintro name ⟨names, hnames, heq⟩
  have hup : ".." ∉ names := fun hmem => h (hnames.subset hmem)
  unfold home Disk.placeOf at heq
  rw [resolve_eq_append h, resolve_eq_append hup, List.append_assoc] at heq
  -- the place of a report is further down than the path comes
  have hlength := congrArg List.length (List.append_cancel_left heq)
  have hle := hnames.length_le
  rw [List.length_append, List.length_singleton] at hlength
  omega

/-- Directories that are made on the way leave the reports alone. -/
theorem Orderly.grown (h : l.Orderly disk) (hclear : l.Clear disk)
    (hgrown : Disk.Grown disk (disk.Way (.ofText l.directory)) disk') :
    l.Orderly disk' ∧ l.records disk' = l.records disk ∧ l.Spared disk disk' := by
  have hworking := hgrown.working_eq
  refine ⟨⟨hgrown.tree h.tree, fun {name entry id} hget hparse => ?_⟩, ?_, hworking, ?_⟩
  · rw [l.home_congr hworking, hgrown.get?_of_not_made] at hget
    · exact h.canonical hget hparse
    · intro hway
      rw [hclear name hway] at hparse
      cases hparse
  · funext id
    unfold records
    rw [l.place_congr hworking, hgrown.get?_of_not_made]
    intro hway
    have hparse := hclear _ hway
    rw [ReportName.parse?_format] at hparse
    cases hparse
  · intro place _
    by_cases hway : disk.Way (.ofText l.directory) place
    · rcases hgrown.get?_cases place with hsame | ⟨hnone, hdir⟩
      · exact .inl hsame
      · exact .inr ⟨hway, hnone, hdir⟩
    · exact .inl (hgrown.get?_of_not_made hway)

end Layout

/-! ## Listing -/

namespace FileStore

open Layout

variable {l : Layout} {disk : Disk}

theorem mem_idsOf_iff (h : disk.Tree) {bundleId : String} {place : Place} {id : Int64} :
    id ∈ idsOf bundleId (disk.namesIn place) ↔ ∃ name entry,
      disk.get? (place ++ [name]) = some entry ∧ ReportName.parse? name bundleId = some id := by
  unfold idsOf
  rw [List.mem_mergeSort, List.mem_filterMap]
  simp only [h.mem_namesIn]
  exact ⟨fun ⟨name, ⟨entry, hget⟩, hparse⟩ => ⟨name, entry, hget, hparse⟩,
    fun ⟨name, entry, hget, hparse⟩ => ⟨name, ⟨entry, hget⟩, hparse⟩⟩

/-- What is listed is what there is. -/
theorem mem_idsOf (h : l.Orderly disk) {id : Int64} :
    id ∈ idsOf l.bundleId (disk.namesIn (l.home disk)) ↔
      ∃ content, l.records disk id = some content := by
  rw [mem_idsOf_iff h.tree]
  simp only [records_eq_some_iff]
  refine ⟨?_, ?_⟩
  · rintro ⟨name, entry, hget, hparse⟩
    obtain ⟨rfl, content, rfl⟩ := h.canonical hget hparse
    exact ⟨content, hget⟩
  · rintro ⟨content, hget⟩
    exact ⟨_, _, hget, ReportName.parse?_format l.bundleId id⟩

/-- Whatever the names are, what is listed does not descend. -/
theorem sorted_idsOf (bundleId : String) (names : List String) :
    (idsOf bundleId names).Pairwise (· ≤ ·) := by
  have hsorted : (idsOf bundleId names).Pairwise fun a b => decide (a ≤ b) = true :=
    List.pairwise_mergeSort
      (fun a b c hab hbc => by simpa using Int64.le_trans (by simpa using hab) (by simpa using hbc))
      (fun a b => by simpa using Int64.le_total a b) _
  exact hsorted.imp fun {a b} hab => of_decide_eq_true hab

/-- It is listed in ascending order, and nothing twice. -/
theorem pairwise_idsOf (h : l.Orderly disk) :
    (idsOf l.bundleId (disk.namesIn (l.home disk))).Pairwise (· < ·) := by
  -- two names that are read as one number are both the name of that number
  have hnodup : ((disk.namesIn (l.home disk)).filterMap (ReportName.parse? · l.bundleId)).Nodup := by
    have hnames := List.Pairwise.and_mem.mp (h.tree.nodup_namesIn (l.home disk))
    refine List.Pairwise.filterMap _ ?_ hnames
    rintro name name' ⟨hmem, hmem', hne⟩ id hid id' hid' rfl
    obtain ⟨entry, hget⟩ := h.tree.mem_namesIn.mp hmem
    obtain ⟨entry', hget'⟩ := h.tree.mem_namesIn.mp hmem'
    exact hne ((h.canonical hget hid).1.trans (h.canonical hget' hid').1.symm)
  have hsorted := sorted_idsOf l.bundleId (disk.namesIn (l.home disk))
  have hapart := (List.mergeSort_perm _ fun a b : Int64 => decide (a ≤ b)).nodup_iff.mpr hnodup
  refine (hsorted.and hapart).imp fun {a b} hab => ?_
  exact Int64.lt_of_le_of_ne hab.1 hab.2

end FileStore

end CrashCourier
