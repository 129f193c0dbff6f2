import CrashCourier.Proofs.Store.Refinement
import Mathlib.Data.List.Pairwise

/-!
# Listing and reading

A store lists its reports by reading names: a number is listed if some name in the directory is read
as that number. It reads a report by writing a name. Nothing ties the one to the other, and they agree
on a directory of files if and only if

* every name that is read as a number is the name of that number (`Layout.Orderly`), which is not so
  of all names: the number is read with a plus sign and with digits in upper case as well;
* what is read under a number is what stands at its place (`Layout.Reached`), which is not so for a
  bundle with a slash in it: no name in the directory begins with such a bundle, but there is a path.

One direction reads the two off a store that agrees: a listed number can be read, so its own name is
in the directory, and a second name for it would list it twice. The other is `mem_idsOf`.
-/

namespace CrashCourier

open Files

namespace Layout

variable {l : Layout} {disk : Disk} {id : Int64} {content : Bytes}

/-- The directory of reports holds nothing but files, under names that a file system can give. -/
def Filed (l : Layout) (disk : Disk) : Prop :=
  ∀ name entry, disk.get? (l.home disk ++ [name]) = some entry →
    entry ≠ .directory ∧ '/' ∉ name.toList ∧ '\x00' ∉ name.toList

/-- What is read under a number is what stands at its place. -/
def Reached (l : Layout) (disk : Disk) : Prop :=
  ∀ id content, disk.read (l.reportPath id) = .ok content ↔ l.records disk id = some content

/-- Nothing in the directory is named for a bundle that no name can hold. -/
theorem Filed.of_parse? (h : l.Filed disk) {name : String} {entry : Entry}
    (hget : disk.get? (l.home disk ++ [name]) = some entry)
    (hparse : ReportName.parse? name l.bundleId = some id) :
    '/' ∉ l.bundleId.toList ∧ '\x00' ∉ l.bundleId.toList := by
  obtain ⟨_, hslash, hnul⟩ := h name entry hget
  obtain ⟨rest, hrest⟩ := ReportName.exists_append_of_parse? hparse
  rw [hrest, List.mem_append, not_or] at hslash hnul
  exact ⟨hslash.1, hnul.1⟩

theorem Filed.of_records (h : l.Filed disk) (hrecord : l.records disk id = some content) :
    '/' ∉ l.bundleId.toList ∧ '\x00' ∉ l.bundleId.toList :=
  h.of_parse? (records_eq_some_iff.mp hrecord) (ReportName.parse?_format l.bundleId id)

/-- Whatever can be read of a report is what stands at its place. -/
theorem records_of_read (hslash : '/' ∉ l.bundleId.toList)
    (hdirectory : ∃ c ≠ '/', l.directory.toList.getLast? = some c)
    (h : disk.read (l.reportPath id) = .ok content) : l.records disk id = some content := by
  rw [records_eq_some_iff]
  cases hl : disk.locate (l.reportPath id) with
  | error fault =>
      rw [Disk.read_of_locate_error hl] at h
      cases h
  | ok q =>
      obtain ⟨rfl, _⟩ := place_of_locate hslash hdirectory hl
      rw [Disk.read_of_locate hl, saysDirectory_reportPath hslash hdirectory] at h
      cases hget : disk.get? (l.place disk id) with
      | none =>
          rw [hget] at h
          cases h
      | some entry =>
          rw [hget] at h
          cases entry with
          | directory => cases h
          | file _ => rw [Except.ok.inj h]

/-- The reports of a bundle without a slash are reached, if the file system takes their paths. -/
theorem reached_of_path (hslash : '/' ∉ l.bundleId.toList)
    (hdirectory : ∃ c ≠ '/', l.directory.toList.getLast? = some c)
    (hpath : l.directory.utf8ByteSize + l.bundleId.utf8ByteSize + 30 ≤ Disk.greatestPath)
    (htree : disk.Tree) (hleads : disk.LeadsText l.directory) (hfiled : l.Filed disk) :
    l.Reached disk := by
  refine fun id content => ⟨records_of_read hslash hdirectory, fun hrecord => ?_⟩
  have hget := records_eq_some_iff.mp hrecord
  -- a file is there, so its name is one that the file system takes
  have hnul := (hfiled.of_records hrecord).2
  have hname : l.bundleId.utf8ByteSize + 29 ≤ Disk.greatestName := by
    have hentry := htree.name _ (Disk.mem_of_get? hget (l.place_ne_nil disk id))
    rw [← ReportName.utf8ByteSize_format l.bundleId id]
    exact hentry _ List.getLast?_concat
  have hlocate := locate_reportPath_eq hslash hdirectory hleads id
  rw [if_neg hnul, if_neg (Nat.not_lt.mpr hpath), if_neg (Nat.not_lt.mpr hname)] at hlocate
  rw [Disk.read_of_locate hlocate, hget, saysDirectory_reportPath hslash hdirectory]
  rfl

end Layout

namespace FileStore

open Layout

variable {bundleId basePath : String} {s s' : FileStore} {log log' : Log} {id : Int64}

/-- A store that has been installed, and whose directory is there. -/
structure Installed (bundleId basePath : String) (s : FileStore) : Prop where
  layout : s.layout = some (.under bundleId basePath)
  leads : s.disk.LeadsText (reportsDirectory basePath)
  tree : s.disk.Tree

/-- That is what installing is for. -/
theorem installed_of_perform (htree : s.disk.Tree)
    (h : (install bundleId basePath).perform s log = ((.ok (), s'), log')) :
    s'.Installed bundleId basePath := by
  obtain ⟨result, hmade, ⟨hresult, _, hlayout⟩ | ⟨_, _, _, hr, _⟩⟩ := perform_install h
  · obtain ⟨hgrown, hleads⟩ :=
      htree.makeDirectories_grown (reportsDirectory_ne_empty basePath) hmade
    exact ⟨hlayout, hleads hresult, hgrown.tree htree⟩
  · cases hr

/-- The store lists the numbers under which a report is read, each of them once. -/
def Agrees (s : FileStore) : Prop :=
  ∀ log, ∃ numbers log', ids.perform s log = ((.ok numbers, s), log') ∧ numbers.Nodup ∧
    ∀ id, id ∈ numbers ↔
      ∃ content, (read id).perform s log' = ((.ok (some content), s), log')

theorem perform_read_iff {l : Layout} {content : Bytes} (h : s.layout = some l) :
    (read id).perform s log = ((.ok (some content), s), log) ↔
      s.disk.read (l.reportPath id) = .ok content := by
  unfold read
  rw [Action.perform_bind_ok (perform_installed h log),
    Action.perform_bind_ok (Action.perform_get s log)]
  cases s.disk.read (l.reportPath id) with
  | error fault =>
      refine ⟨fun h => ?_, fun h => nomatch h⟩
      cases fault with
      | notFound => exact nomatch Except.ok.inj (Prod.mk.inj (Prod.mk.inj h).1).1
      | _ => exact nomatch (Prod.mk.inj (Prod.mk.inj h).1).1
  | ok found => simp

theorem Installed.perform_ids (h : s.Installed bundleId basePath) (log : Log) :
    ∃ log', ids.perform s log =
      ((.ok (idsOf bundleId (s.disk.namesIn ((Layout.under bundleId basePath).home s.disk))), s),
        log') := by
  have hlist := Disk.list_of_locate h.leads.1
  rw [h.leads.2] at hlist
  exact perform_ids_of_list h.layout hlist log

/-- If no number is listed twice, no two names are read as one number. -/
theorem name_unique_of_nodup (h : s.disk.Tree) {place : Place}
    (hnodup : (idsOf bundleId (s.disk.namesIn place)).Nodup) {name name' : String}
    {entry entry' : Entry} (hget : s.disk.get? (place ++ [name]) = some entry)
    (hget' : s.disk.get? (place ++ [name']) = some entry')
    (hparse : ReportName.parse? name bundleId = some id)
    (hparse' : ReportName.parse? name' bundleId = some id) : name = name' := by
  unfold idsOf at hnodup
  rw [(List.mergeSort_perm _ _).nodup_iff, List.Nodup, List.pairwise_filterMap] at hnodup
  by_contra hne
  have hsymm : Std.Symm fun name name' => ∀ id, ReportName.parse? name bundleId = some id →
      ∀ id', ReportName.parse? name' bundleId = some id' → id ≠ id' :=
    ⟨fun _ _ hapart id hid id' hid' heq => hapart id' hid' id hid heq.symm⟩
  have hapart := hnodup.forall (h.mem_namesIn.mpr ⟨entry, hget⟩)
    (h.mem_namesIn.mpr ⟨entry', hget'⟩) hne
  exact hapart id hparse id hparse' rfl

/-- A store that agrees has a directory of files in order, and reads what is in it. -/
theorem Installed.orderly_reached_of_agrees (h : s.Installed bundleId basePath)
    (hfiled : (Layout.under bundleId basePath).Filed s.disk) (hagrees : s.Agrees) :
    (Layout.under bundleId basePath).Orderly s.disk ∧
      (Layout.under bundleId basePath).Reached s.disk := by
  have hdirectory := directory_under bundleId basePath
  obtain ⟨numbers, log', hids, hnodup, hiff⟩ := hagrees []
  obtain ⟨log'', hids'⟩ := h.perform_ids []
  rw [hids] at hids'
  obtain rfl := Except.ok.inj (Prod.mk.inj (Prod.mk.inj hids').1).1
  simp only [perform_read_iff h.layout] at hiff
  -- a number that some name is read as has a record
  have hrecords : ∀ name entry id, s.disk.get?
        ((Layout.under bundleId basePath).home s.disk ++ [name]) = some entry →
      ReportName.parse? name bundleId = some id →
      ∃ content, s.disk.read ((Layout.under bundleId basePath).reportPath id) = .ok content ∧
        (Layout.under bundleId basePath).records s.disk id = some content := by
    intro name entry id hget hparse
    obtain ⟨content, hread⟩ := (hiff id).mp ((mem_idsOf_iff h.tree).mpr ⟨_, _, hget, hparse⟩)
    exact ⟨content, hread, records_of_read (hfiled.of_parse? hget hparse).1 hdirectory hread⟩
  refine ⟨⟨h.tree, fun {name entry id} hget hparse => ⟨?_, ?_⟩⟩, fun id content => ⟨?_, ?_⟩⟩
  · obtain ⟨content, _, hrecord⟩ := hrecords name entry id hget hparse
    exact name_unique_of_nodup h.tree hnodup hget (records_eq_some_iff.mp hrecord) hparse
      (ReportName.parse?_format bundleId id)
  · cases entry with
    | file content => exact ⟨content, rfl⟩
    | directory => exact absurd rfl (hfiled name _ hget).1
  · intro hread
    obtain ⟨name, entry, hget, hparse⟩ :=
      (mem_idsOf_iff h.tree).mp ((hiff id).mpr ⟨content, hread⟩)
    exact records_of_read (hfiled.of_parse? hget hparse).1 hdirectory hread
  · intro hrecord
    obtain ⟨found, hread, hfound⟩ := hrecords _ _ id (records_eq_some_iff.mp hrecord)
      (ReportName.parse?_format bundleId id)
    obtain rfl := Option.some.inj (hfound.symm.trans hrecord)
    exact hread

theorem Installed.agrees_of_reached (h : s.Installed bundleId basePath)
    (horderly : (Layout.under bundleId basePath).Orderly s.disk)
    (hreached : (Layout.under bundleId basePath).Reached s.disk) : s.Agrees := by
  intro log
  obtain ⟨numbers, log', hids, hascending, hmem⟩ :=
    perform_ids_of_orderly h.layout h.leads horderly log
  refine ⟨numbers, log', hids, hascending.imp fun {a b} hlt => ?_, fun id => ?_⟩
  · exact Int64.ne_of_lt hlt
  · simp only [hmem, perform_read_iff h.layout]
    exact exists_congr fun content => (hreached id content).symm

/-- **Listing and reading agree** on a directory of files just in case it is in order and what is
read is what stands in it. What is read stands in it if the bundle has no slash and the file system
takes the paths. -/
theorem agrees_iff_orderly_reached (htree : s.disk.Tree)
    (hinstall : (install bundleId basePath).perform s log = ((.ok (), s'), log'))
    (hfiled : (Layout.under bundleId basePath).Filed s'.disk) :
    (s'.Agrees ↔ (Layout.under bundleId basePath).Orderly s'.disk ∧
      (Layout.under bundleId basePath).Reached s'.disk) ∧
    ('/' ∉ bundleId.toList →
      (reportsDirectory basePath).utf8ByteSize + bundleId.utf8ByteSize + 30 ≤ Disk.greatestPath →
      (Layout.under bundleId basePath).Reached s'.disk) := by
  have hinstalled := installed_of_perform htree hinstall
  refine ⟨⟨hinstalled.orderly_reached_of_agrees hfiled, fun ⟨horderly, hreached⟩ => ?_⟩,
    fun hslash hpath => ?_⟩
  · exact hinstalled.agrees_of_reached horderly hreached
  · exact reached_of_path hslash ⟨'s', by decide, getLast?_reportsDirectory basePath⟩ hpath
      hinstalled.tree hinstalled.leads hfiled

/-- A directory of two reports and another file. -/
def tidy : Disk :=
  ⟨[(["b", "Reports", "app-report-ffffffffffffffff.json"], .file [2]),
    (["b", "Reports", "app-report-0000000000000001.json"], .file [1]),
    (["b", "Reports", "notes.txt"], .file [3]), (["b", "Reports"], .directory),
    (["b"], .directory)], []⟩

theorem tree_tidy : tidy.Tree := by decide +kernel

theorem tidy_agrees :
    ∃ s log, (install "app" "b").perform ⟨none, tidy⟩ [] = ((.ok (), s), log) ∧
      (Layout.under "app" "b").Filed s.disk ∧ s.Agrees := by
  have hinstall : ∃ log, (install "app" "b").perform ⟨none, tidy⟩ [] =
      ((.ok (), ⟨some (.under "app" "b"), tidy⟩), log) := ⟨_, rfl⟩
  obtain ⟨log, hinstall⟩ := hinstall
  have hfiled : (Layout.under "app" "b").Filed tidy :=
    (tree_tidy.forall_named_iff _).mpr (by decide +kernel)
  obtain ⟨hiff, hreached⟩ := agrees_iff_orderly_reached tree_tidy hinstall hfiled
  have horderly : (Layout.under "app" "b").Orderly tidy := by decide +kernel
  exact ⟨_, log, hinstall, hfiled, hiff.mpr ⟨horderly, hreached (by decide) (by decide)⟩⟩

/-- The names of a report, of the same report with a plus sign, and of a report in upper case. -/
def respelled : Disk :=
  ⟨[(["b", "Reports", "app-report-0000000000000001.json"], .file [1]),
    (["b", "Reports", "app-report-+000000000000001.json"], .file [2]),
    (["b", "Reports", "app-report-00000000000000FF.json"], .file [3]),
    (["b", "Reports"], .directory), (["b"], .directory)], []⟩

theorem idsOf_of_ascending {names : List String} (numbers : List Int64)
    (hnumbers : names.filterMap (ReportName.parse? · bundleId) = numbers)
    (hascending : numbers.Pairwise fun a b => decide (a ≤ b) = true) :
    idsOf bundleId names = numbers := by
  unfold idsOf
  rw [hnumbers, List.mergeSort_of_pairwise hascending]

theorem respelled_listed_twice :
    ∃ s log log', (install "app" "b").perform ⟨none, respelled⟩ [] = ((.ok (), s), log) ∧
      (Layout.under "app" "b").Filed s.disk ∧ ids.perform s log = ((.ok [1, 1, 255], s), log') ∧
      (read 255).perform s log' = ((.ok none, s), log') ∧ ¬ s.Agrees := by
  have htree : respelled.Tree := by decide +kernel
  obtain ⟨log, hinstall⟩ : ∃ log, (install "app" "b").perform ⟨none, respelled⟩ [] =
      ((.ok (), ⟨some (.under "app" "b"), respelled⟩), log) := ⟨_, rfl⟩
  obtain ⟨log', hids⟩ := (installed_of_perform htree hinstall).perform_ids log
  rw [idsOf_of_ascending [1, 1, 255] (by decide +kernel) (by decide)] at hids
  refine ⟨_, log, log', hinstall, (htree.forall_named_iff _).mpr (by decide +kernel), hids, rfl, ?_⟩
  intro hagrees
  obtain ⟨numbers, _, hids', hnodup, _⟩ := hagrees log
  obtain rfl := Except.ok.inj (Prod.mk.inj (Prod.mk.inj (hids.symm.trans hids')).1).1
  exact absurd hnodup (by decide)

theorem tidy_unlisted :
    ∃ s log log', (install "./app" "b").perform ⟨none, tidy⟩ [] = ((.ok (), s), log) ∧
      (Layout.under "./app" "b").Filed s.disk ∧ ids.perform s log = ((.ok [], s), log') ∧
      (read 1).perform s log' = ((.ok (some [1]), s), log') ∧ ¬ s.Agrees := by
  obtain ⟨log, hinstall⟩ : ∃ log, (install "./app" "b").perform ⟨none, tidy⟩ [] =
      ((.ok (), ⟨some (.under "./app" "b"), tidy⟩), log) := ⟨_, rfl⟩
  obtain ⟨log', hids⟩ := (installed_of_perform tree_tidy hinstall).perform_ids log
  rw [idsOf_of_ascending [] (by decide +kernel) .nil] at hids
  refine ⟨_, log, log', hinstall, (tree_tidy.forall_named_iff _).mpr (by decide +kernel), hids, rfl,
    ?_⟩
  intro hagrees
  obtain ⟨numbers, log₁, hids', _, hiff⟩ := hagrees log
  obtain rfl := Except.ok.inj (Prod.mk.inj (Prod.mk.inj (hids.symm.trans hids')).1).1
  exact absurd ((hiff 1).mpr ⟨[1], rfl⟩) List.not_mem_nil

/-- One number is listed twice, and another that is listed cannot be read. Under a bundle with a slash
a report is read that is not listed. -/
theorem respelled_tidy_disagree :
    (∃ s log log', (install "app" "b").perform ⟨none, respelled⟩ [] = ((.ok (), s), log) ∧
      (Layout.under "app" "b").Filed s.disk ∧ ids.perform s log = ((.ok [1, 1, 255], s), log') ∧
      (read 255).perform s log' = ((.ok none, s), log') ∧ ¬ s.Agrees) ∧
    ∃ s log log', (install "./app" "b").perform ⟨none, tidy⟩ [] = ((.ok (), s), log) ∧
      (Layout.under "./app" "b").Filed s.disk ∧ ids.perform s log = ((.ok [], s), log') ∧
      (read 1).perform s log' = ((.ok (some [1]), s), log') ∧ ¬ s.Agrees :=
  ⟨respelled_listed_twice, tidy_unlisted⟩

end FileStore

end CrashCourier
