import CrashCourier.Proofs.Store.Clearing

/-!
# Stores that share a directory

Two bundles may have their reports in one directory. Neither sees what is done with the reports of the
other, and two facts decide it.

* What a store is asked to do is confined to its own reports: it changes what stands under the names of
  its reports, takes no directory away and puts none there (`Layout.Tended`). One request does so
  (`Installed.serve_tended`), and so does any row of them (`Installed.serveEach_tended`).
* What a store answers depends on the names that are read as its numbers and on what stands there, and
  no name belongs to two bundles (`ReportName.bundle_unique`). So a directory that was tended for one
  bundle is listed and read for another as before (`Installed.sameAnswers_of_tended`).

That the bundles differ is all it takes: one may begin with the other, or look like the name of a report
of the other.
-/

namespace CrashCourier

open Files

namespace Layout

variable {l k : Layout} {disk disk' disk'' : Disk} {id : Int64}

/-! ## Confined to the reports of a bundle -/

/-- Only reports have changed, and no directory has gone. -/
structure Tended (l : Layout) (disk disk' : Disk) : Prop where
  kept : l.Kept disk disk'
  tree : disk'.Tree
  directories : ∀ place, disk.get? place = some .directory → disk'.get? place = some .directory

theorem Tended.refl (l : Layout) (h : disk.Tree) : l.Tended disk disk :=
  ⟨.refl l disk, h, fun _ hdir => hdir⟩

theorem Tended.trans (h : l.Tended disk disk') (h' : l.Tended disk' disk'') :
    l.Tended disk disk'' :=
  ⟨h.kept.trans h'.kept, h'.tree, fun place hdir => h'.directories place (h.directories place hdir)⟩

/-- A report is taken away. -/
theorem tended_erase (htree : disk.Tree) {content : Bytes}
    (hget : disk.get? (l.place disk id) = some (.file content)) :
    l.Tended disk (disk.erase (l.place disk id)) :=
  ⟨⟨rfl, fun _ hplace => Disk.get?_erase_of_ne (hplace id)⟩, htree.erase hget,
    fun _ hdir => Disk.get?_erase_of_directory hget hdir⟩

/-- A report is written. -/
theorem tended_set (htree : disk.Tree) (hhome : disk.get? (l.home disk) = some .directory)
    (hname : l.bundleId.utf8ByteSize + 29 ≤ Disk.greatestName)
    (hfree : disk.get? (l.place disk id) ≠ some .directory) (content : Bytes) :
    l.Tended disk (disk.set (l.place disk id) (.file content)) := by
  have hparent : disk.get? (l.place disk id).dropLast = some .directory := by
    rw [dropLast_place]
    exact hhome
  have hsize : ∀ name ∈ (l.place disk id).getLast?, name.utf8ByteSize ≤ Disk.greatestName := by
    rw [place, List.getLast?_concat]
    rintro _ ⟨⟩
    rw [ReportName.utf8ByteSize_format]
    exact hname
  refine ⟨⟨rfl, fun place hplace => Disk.get?_set_of_ne (hplace id)⟩,
    htree.set (l.place_ne_nil disk id) hparent hsize hfree, fun place hdir => ?_⟩
  rw [Disk.get?_set_of_ne (by rintro rfl; exact hfree hdir)]
  exact hdir

/-! ## What another bundle sees -/

/-- Reports of two bundles are never at one place, in whatever directories they are. -/
theorem place_ne_of_bundleId_ne (hne : k.bundleId ≠ l.bundleId) (disk : Disk) (id id' : Int64) :
    k.place disk id' ≠ l.place disk id := by
  intro heq
  have hname := (List.append_inj' heq rfl).2
  have hparse := ReportName.parse?_format_of_ne hne id
  rw [← List.singleton_inj.mp hname, ReportName.parse?_format] at hparse
  cases hparse

/-- A name that another bundle claims shows what it showed. -/
theorem Kept.get?_of_parse? (h : l.Kept disk disk') (hne : k.bundleId ≠ l.bundleId) {place : Place}
    {name : String} (hparse : (ReportName.parse? name k.bundleId).isSome) :
    disk'.get? (place ++ [name]) = disk.get? (place ++ [name]) := by
  refine h.others _ fun id heq => ?_
  have hname := List.singleton_inj.mp (List.append_inj' heq rfl).2
  rw [hname, ReportName.parse?_format_of_ne hne id] at hparse
  cases hparse

/-- Reports of another bundle are read as they were. -/
theorem Tended.read_eq (h : l.Tended disk disk') (hne : k.bundleId ≠ l.bundleId)
    (hslash : '/' ∉ k.bundleId.toList)
    (hdirectory : ∃ c ≠ '/', k.directory.toList.getLast? = some c)
    (hleads : disk.LeadsText k.directory) (id : Int64) :
    disk'.read (k.reportPath id) = disk.read (k.reportPath id) := by
  have hworking := h.kept.working
  have hleads' := hleads.of_directories hworking h.directories
  refine Disk.read_congr ?_ fun place hplace => ?_
  · rw [locate_reportPath_eq hslash hdirectory hleads,
      locate_reportPath_eq hslash hdirectory hleads', k.place_congr hworking]
  · obtain ⟨rfl, _⟩ := place_of_locate hslash hdirectory hplace
    exact h.kept.others _ fun id' => place_ne_of_bundleId_ne hne disk id' id

end Layout

namespace FileStore

open Layout

variable {bundleId bundleId' basePath basePath' : String} {s s' : FileStore} {log log' : Log}

/-! ## What a request does -/

/-- The store is where it was, and has tended its reports. -/
structure TendedBy (bundleId basePath : String) (s s' : FileStore) : Prop where
  layout : s'.layout = s.layout
  disk : (Layout.under bundleId basePath).Tended s.disk s'.disk

theorem TendedBy.trans {s'' : FileStore} (h : TendedBy bundleId basePath s s')
    (h' : TendedBy bundleId basePath s' s'') : TendedBy bundleId basePath s s'' :=
  ⟨h'.layout.trans h.layout, h.disk.trans h'.disk⟩

theorem Installed.tendedBy_refl (h : s.Installed bundleId basePath) :
    TendedBy bundleId basePath s s :=
  ⟨rfl, .refl _ h.tree⟩

/-- A store stays installed on a disk that was tended, for whatever bundle. -/
theorem Installed.of_tended {l : Layout} (h : s.Installed bundleId basePath)
    (hlayout : s'.layout = s.layout) (htended : l.Tended s.disk s'.disk) :
    s'.Installed bundleId basePath :=
  ⟨hlayout.trans h.layout, h.leads.of_directories htended.kept.working htended.directories,
    htended.tree⟩

theorem Installed.of_tendedBy (h : s.Installed bundleId basePath)
    (htended : TendedBy bundleId basePath s s') : s'.Installed bundleId basePath :=
  h.of_tended htended.layout htended.disk

/-- Installing once more makes nothing. -/
theorem Installed.install_tended (h : s.Installed bundleId basePath) {r : Except StoreFault Unit}
    (hinstall : (install bundleId basePath).perform s log = ((r, s'), log')) :
    TendedBy bundleId basePath s s' := by
  obtain ⟨result, hmade, hcases⟩ := perform_install hinstall
  rw [h.leads.makeDirectories_eq] at hmade
  obtain ⟨rfl, hdisk⟩ := Prod.mk.inj hmade
  refine ⟨?_, hdisk ▸ .refl _ h.tree⟩
  rcases hcases with ⟨_, _, hlayout⟩ | ⟨_, _, _, _, hlayout⟩
  · rw [hlayout, h.layout]
  · exact hlayout

section Requests

variable (hslash : '/' ∉ bundleId.toList)

include hslash

/-- Erasing takes one report away, or nothing. -/
theorem Installed.delete_tended (h : s.Installed bundleId basePath) {id : Int64}
    {r : Except StoreFault Unit} (hdelete : (delete id).perform s log = ((r, s'), log')) :
    TendedBy bundleId basePath s s' := by
  rcases perform_delete_cases h.layout hdelete with
    ⟨disk, hremove, _, rfl⟩ | ⟨_, _, rfl⟩ | ⟨_, _, rfl⟩
  · obtain ⟨⟨content, hget⟩, rfl, _⟩ :=
      cleared_of_remove hslash (directory_under bundleId basePath) hremove
    exact ⟨rfl, tended_erase h.tree hget⟩
  · exact h.tendedBy_refl
  · exact h.tendedBy_refl

/-- Erasing one after the other stops where it fails, and has tended the reports up to there. -/
theorem Installed.deleteEach_tended (numbers : List Int64) (h : s.Installed bundleId basePath)
    {r : Except StoreFault Unit} (hdelete : (deleteEach numbers).perform s log = ((r, s'), log')) :
    TendedBy bundleId basePath s s' := by
  induction numbers generalizing s log with
  | nil =>
      obtain rfl : s = s' := (Prod.mk.inj (Prod.mk.inj hdelete).1).2
      exact h.tendedBy_refl
  | cons id rest ih =>
      rw [deleteEach] at hdelete
      rcases Action.perform_bind_cases hdelete with ⟨_, s₁, log₁, hfirst, hrest⟩ | ⟨_, hfirst, _⟩
      · have htended := h.delete_tended hslash hfirst
        exact htended.trans (ih (h.of_tendedBy htended) hrest)
      · exact h.delete_tended hslash hfirst

theorem Installed.deleteAll_tended (h : s.Installed bundleId basePath) {r : Except StoreFault Unit}
    (hdelete : deleteAll.perform s log = ((r, s'), log')) : TendedBy bundleId basePath s s' := by
  rcases Action.perform_bind_cases hdelete with ⟨numbers, s₁, log₁, hids, hrest⟩ | ⟨_, hids, _⟩
  · obtain rfl := FileStore.perform_ids hids
    exact h.deleteEach_tended hslash numbers hrest
  · exact FileStore.perform_ids hids ▸ h.tendedBy_refl

/-- What the monitor writes is a report. -/
theorem Installed.write_tended (h : s.Installed bundleId basePath) {id : Int64} {content : Bytes}
    {disk : Disk} (hwrite :
      s.disk.write ((Layout.under bundleId basePath).reportPath id) content = .ok disk) :
    (Layout.under bundleId basePath).Tended s.disk disk := by
  have hdirectory := directory_under bundleId basePath
  cases hl : s.disk.locate ((Layout.under bundleId basePath).reportPath id) with
  | error fault =>
      rw [Disk.write_of_locate_error hl] at hwrite
      cases hwrite
  | ok q =>
      obtain ⟨rfl, hhome⟩ := place_of_locate hslash hdirectory hl
      have hname := name_le_of_locate hslash hdirectory h.leads hl
      rw [Disk.write_of_locate hl, saysDirectory_reportPath hslash hdirectory] at hwrite
      by_cases hdir : s.disk.get? ((Layout.under bundleId basePath).place s.disk id) =
          some .directory
      · rw [if_pos (.inl hdir)] at hwrite
        cases hwrite
      · rw [if_neg (not_or.mpr ⟨hdir, Bool.false_ne_true⟩)] at hwrite
        obtain rfl := Except.ok.inj hwrite
        exact tended_set h.tree hhome hname hdir content

/-- **A request tends the reports of its bundle** and touches nothing else, whether it fails or
not. -/
theorem Installed.serve_tended (h : s.Installed bundleId basePath) {request : StoreRequest}
    {r : Except StoreFault StoreAnswer}
    (hserve : (serve bundleId basePath request).perform s log = ((r, s'), log')) :
    TendedBy bundleId basePath s s' := by
  cases request with
  | install =>
      obtain ⟨_, hinstall⟩ := Action.exists_perform_of_bind_pure hserve
      exact h.install_tended hinstall
  | count =>
      obtain ⟨_, hcount⟩ := Action.exists_perform_of_bind_pure hserve
      obtain ⟨_, hids⟩ := Action.exists_perform_of_bind_pure hcount
      exact FileStore.perform_ids hids ▸ h.tendedBy_refl
  | ids =>
      obtain ⟨_, hids⟩ := Action.exists_perform_of_bind_pure hserve
      exact FileStore.perform_ids hids ▸ h.tendedBy_refl
  | read id =>
      obtain ⟨_, hread⟩ := Action.exists_perform_of_bind_pure hserve
      exact (perform_read hread).1 ▸ h.tendedBy_refl
  | delete id =>
      obtain ⟨_, hdelete⟩ := Action.exists_perform_of_bind_pure hserve
      exact h.delete_tended hslash hdelete
  | deleteAll =>
      obtain ⟨_, hdelete⟩ := Action.exists_perform_of_bind_pure hserve
      exact h.deleteAll_tended hslash hdelete
  | write id content =>
      rw [perform_serve_write] at hserve
      cases hwrite : s.disk.write ((Layout.under bundleId basePath).reportPath id) content with
      | error fault =>
          rw [hwrite] at hserve
          obtain rfl : s = s' := (Prod.mk.inj (Prod.mk.inj hserve).1).2
          exact h.tendedBy_refl
      | ok disk =>
          rw [hwrite] at hserve
          obtain rfl : { s with disk } = s' := (Prod.mk.inj (Prod.mk.inj hserve).1).2
          exact ⟨rfl, h.write_tended hslash hwrite⟩

/-- So do any number of requests. -/
theorem Installed.serveEach_tended (requests : List StoreRequest)
    (h : s.Installed bundleId basePath) (log : Log) :
    TendedBy bundleId basePath s (serveEach bundleId basePath requests s log).2 := by
  induction requests generalizing s log with
  | nil => exact h.tendedBy_refl
  | cons request rest ih =>
      rcases hserve : (serve bundleId basePath request).perform s log with ⟨⟨r, s₁⟩, log₁⟩
      have htended := h.serve_tended hslash hserve
      rw [serveEach, hserve]
      exact htended.trans (ih (h.of_tendedBy htended) log₁)

end Requests

/-! ## What another store answers -/

/-- The two stores list and count the same reports, and read the same under every number. -/
structure SameAnswers (s s' : FileStore) : Prop where
  ids : ∀ log, ∃ numbers log₁ log₂, ids.perform s log = ((.ok numbers, s), log₁) ∧
    ids.perform s' log = ((.ok numbers, s'), log₂)
  count : ∀ log, ∃ n log₁ log₂, count.perform s log = ((.ok n, s), log₁) ∧
    count.perform s' log = ((.ok n, s'), log₂)
  read : ∀ id log, ∃ r, (read id).perform s log = ((r, s), log) ∧
    (read id).perform s' log = ((r, s'), log)

/-- Reading asks the disk and nothing else. -/
theorem perform_read_congr {l : Layout} {id : Int64} (hl : s.layout = some l)
    (hl' : s'.layout = some l) (h : s'.disk.read (l.reportPath id) = s.disk.read (l.reportPath id))
    (log : Log) :
    ∃ r, (read id).perform s log = ((r, s), log) ∧ (read id).perform s' log = ((r, s'), log) := by
  unfold read
  rw [Action.perform_bind_ok (perform_installed hl log),
    Action.perform_bind_ok (Action.perform_get s log),
    Action.perform_bind_ok (perform_installed hl' log),
    Action.perform_bind_ok (Action.perform_get s' log), h]
  cases s.disk.read (l.reportPath id) with
  | error fault =>
      cases fault with
      | notFound => exact ⟨_, rfl, rfl⟩
      | _ => exact ⟨_, rfl, rfl⟩
  | ok content => exact ⟨_, rfl, rfl⟩

/-- What is listed of names without repetition hangs on those that are read as numbers. -/
theorem idsOf_congr {names names' : List String} (hnodup : names.Nodup) (hnodup' : names'.Nodup)
    (h : ∀ name, (ReportName.parse? name bundleId).isSome → (name ∈ names' ↔ name ∈ names)) :
    idsOf bundleId names' = idsOf bundleId names := by
  let claimed (name : String) : Bool := (ReportName.parse? name bundleId).isSome
  have hclaimed : ∀ names : List String, (names.filter claimed).filterMap
      (ReportName.parse? · bundleId) = names.filterMap (ReportName.parse? · bundleId) := by
    intro names
    rw [List.filterMap_filter]
    congr 1
    funext name
    cases hparse : ReportName.parse? name bundleId <;> simp [claimed, hparse]
  have hperm : (names'.filter claimed).Perm (names.filter claimed) := by
    refine (List.perm_ext_iff_of_nodup (hnodup'.filter _) (hnodup.filter _)).mpr fun name => ?_
    rw [List.mem_filter, List.mem_filter]
    exact and_congr_left (h name)
  have hread := hperm.filterMap (ReportName.parse? · bundleId)
  rw [hclaimed, hclaimed] at hread
  -- sorting forgets the order in which the directory gives the names
  have hlisted : (idsOf bundleId names').Perm (idsOf bundleId names) :=
    ((List.mergeSort_perm _ _).trans hread).trans (List.mergeSort_perm _ _).symm
  exact hlisted.eq_of_pairwise (fun _ _ _ _ => Int64.le_antisymm) (sorted_idsOf bundleId names')
    (sorted_idsOf bundleId names)

/-- The names that another bundle claims are in a directory that was tended as they were. -/
theorem mem_namesIn_of_tended {l : Layout} {disk disk' : Disk} (hne : bundleId ≠ l.bundleId)
    (htree : disk.Tree) (h : l.Tended disk disk') (place : Place) {name : String}
    (hclaimed : (ReportName.parse? name bundleId).isSome) :
    name ∈ disk'.namesIn place ↔ name ∈ disk.namesIn place := by
  rw [h.tree.mem_namesIn, htree.mem_namesIn,
    h.kept.get?_of_parse? (k := ⟨bundleId, ""⟩) hne hclaimed]

/-- **A store of another bundle answers as before.** -/
theorem Installed.sameAnswers_of_tended {l : Layout} (h : s.Installed bundleId basePath)
    (hne : bundleId ≠ l.bundleId) (hslash : '/' ∉ bundleId.toList)
    (hlayout : s'.layout = s.layout) (htended : l.Tended s.disk s'.disk) : SameAnswers s s' := by
  have h' := h.of_tended hlayout htended
  have hhome := (Layout.under bundleId basePath).home_congr htended.kept.working
  have hids : ∀ log, ∃ numbers log₁ log₂, FileStore.ids.perform s log = ((.ok numbers, s), log₁) ∧
      FileStore.ids.perform s' log = ((.ok numbers, s'), log₂) := by
    intro log
    obtain ⟨log₁, hids⟩ := h.perform_ids log
    obtain ⟨log₂, hids'⟩ := h'.perform_ids log
    rw [hhome, idsOf_congr (h.tree.nodup_namesIn _) (h'.tree.nodup_namesIn _) fun name hclaimed =>
      mem_namesIn_of_tended hne h.tree htended _ hclaimed] at hids'
    exact ⟨_, log₁, log₂, hids, hids'⟩
  refine ⟨hids, fun log => ?_, fun id log => ?_⟩
  · obtain ⟨numbers, log₁, log₂, hids, hids'⟩ := hids log
    exact ⟨numbers.length, log₁, log₂, Action.perform_bind_ok hids, Action.perform_bind_ok hids'⟩
  · have hread := htended.read_eq (k := .under bundleId basePath) hne hslash
      (directory_under bundleId basePath) h.leads id
    exact perform_read_congr h.layout h'.layout hread log

/-! ## At the top -/

/-- **Stores of different bundles are apart**, in one directory or in two: what one of them is asked to
do, and however it ends, the other lists, counts and reads as before. A file name is a text here, so
bundles that a directory holds for the same only up to their letter case are not apart. -/
theorem isolated (hne : bundleId' ≠ bundleId) (hslash : '/' ∉ bundleId.toList)
    (hslash' : '/' ∉ bundleId'.toList) (h : s.Installed bundleId basePath)
    (h' : s'.Installed bundleId' basePath') (hshared : s'.disk = s.disk)
    (requests : List StoreRequest) (log : Log) :
    SameAnswers s' { s' with disk := (serveEach bundleId basePath requests s log).2.disk } := by
  have htended := (h.serveEach_tended hslash requests log).disk
  rw [← hshared] at htended
  exact h'.sameAnswers_of_tended hne hslash' rfl htended

/-- A directory of a bundle and of another that bears the name of a report of the first. -/
def nested : Disk :=
  ⟨[(["b", "Reports", "app-report-0000000000000001.json"], .file [1]),
    (["b", "Reports", "app-report-0000000000000001.json-report-0000000000000001.json"], .file [2]),
    (["b", "Reports"], .directory), (["b"], .directory)], []⟩

theorem nested_isolated :
    (mk (some (.under "app" "b")) nested).Installed "app" "b" ∧
      (mk (some (.under "app-report-0000000000000001.json" "b")) nested).Installed
        "app-report-0000000000000001.json" "b" ∧
      SameAnswers (mk (some (.under "app-report-0000000000000001.json" "b")) nested)
        (mk (some (.under "app-report-0000000000000001.json" "b"))
          (serveEach "app" "b" errands (mk (some (.under "app" "b")) nested) []).2.disk) := by
  have htree : nested.Tree := by decide +kernel
  have hinstall : ∀ bundleId, ∃ log, (install bundleId "b").perform ⟨none, nested⟩ [] =
      ((.ok (), ⟨some (.under bundleId "b"), nested⟩), log) := fun _ => ⟨_, rfl⟩
  obtain ⟨_, hours⟩ := hinstall "app"
  obtain ⟨_, htheirs⟩ := hinstall "app-report-0000000000000001.json"
  have h := installed_of_perform htree hours
  have h' := installed_of_perform htree htheirs
  exact ⟨h, h', isolated (by decide) (by decide) (by decide) h h' rfl errands []⟩

end FileStore

end CrashCourier
