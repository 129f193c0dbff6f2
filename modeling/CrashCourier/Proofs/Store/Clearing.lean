import CrashCourier.Proofs.Store.Listing
import CrashCourier.Proofs.Delivery.Pass

/-!
# Erasing all reports

Erasing all reports erases each number that is listed, and that takes the files of these numbers away
and nothing else (`Layout.Cleared`). A file that was listed for a name which is not the name of its
number is not among them: it stays, and it is counted for ever. So the directory is emptied of its
reports if and only if it was in order (`Layout.Orderly`).
-/

namespace CrashCourier

open Files

namespace Layout

variable {l : Layout} {disk disk' disk'' : Disk} {numbers : List Int64}

/-- The reports of these numbers are gone, and everything else is as it was. -/
structure Cleared (l : Layout) (disk : Disk) (numbers : List Int64) (disk' : Disk) : Prop where
  working : disk'.working = disk.working
  gone : ∀ id ∈ numbers, disk'.get? (l.place disk id) = none
  others : ∀ place, (∀ id ∈ numbers, place ≠ l.place disk id) → disk'.get? place = disk.get? place

theorem cleared_nil (l : Layout) (disk : Disk) : l.Cleared disk [] disk :=
  ⟨rfl, fun _ h => absurd h List.not_mem_nil, fun _ _ => rfl⟩

/-- What is gone stays gone. -/
theorem Cleared.cons {id : Int64} (h : l.Cleared disk [id] disk')
    (h' : l.Cleared disk' numbers disk'') : l.Cleared disk (id :: numbers) disk'' := by
  have hplace := l.place_congr h.working
  refine ⟨h'.working.trans h.working, fun id' hid' => ?_, fun place hplaces => ?_⟩
  · by_cases hmem : id' ∈ numbers
    · rw [← hplace]
      exact h'.gone id' hmem
    · have hfirst : id' = id := (List.mem_cons.mp hid').resolve_right hmem
      rw [h'.others, hfirst]
      · exact h.gone id (List.mem_singleton.mpr rfl)
      · intro other hother heq
        rw [hplace] at heq
        exact hmem (place_injective heq ▸ hother)
  · rw [h'.others, h.others]
    · exact fun other hother => hplaces other (List.mem_singleton.mp hother ▸ List.mem_cons_self)
    · intro other hother
      rw [hplace]
      exact hplaces other (List.mem_cons_of_mem _ hother)

section Removing

variable {id : Int64} (hslash : '/' ∉ l.bundleId.toList)
  (hdirectory : ∃ c ≠ '/', l.directory.toList.getLast? = some c)

include hslash hdirectory

/-- A report that is removed is gone. -/
theorem cleared_of_remove (h : disk.remove (l.reportPath id) = .ok disk') :
    (∃ content, disk.get? (l.place disk id) = some (.file content)) ∧
      disk' = disk.erase (l.place disk id) ∧ l.Cleared disk [id] disk' := by
  obtain ⟨q, content, hl, hget, rfl⟩ := Disk.remove_eq_ok h
  obtain ⟨rfl, _⟩ := place_of_locate hslash hdirectory hl
  refine ⟨⟨content, hget⟩, rfl, rfl, fun id' hid' => ?_, fun place hplace => ?_⟩
  · rw [List.mem_singleton.mp hid']
    exact Disk.get?_erase_self (place_ne_nil _ _ _)
  · exact Disk.get?_erase_of_ne (hplace id (List.mem_singleton.mpr rfl))

/-- A report that is not found to be removed was not there. -/
theorem cleared_of_remove_notFound (hleads : disk.LeadsText l.directory)
    (h : disk.remove (l.reportPath id) = .error .notFound) : l.Cleared disk [id] disk := by
  refine ⟨rfl, fun id' hid' => ?_, fun _ _ => rfl⟩
  rw [List.mem_singleton.mp hid']
  rcases Disk.remove_eq_notFound h with hl | ⟨q, hl, hnone⟩
  · exact absurd hl (locate_reportPath_ne_notFound hslash hdirectory hleads id)
  · obtain ⟨rfl, _⟩ := place_of_locate hslash hdirectory hl
    exact hnone

end Removing

/-- Nothing comes. -/
theorem Cleared.get?_of_left (h : l.Cleared disk numbers disk') {place : Place} {entry : Entry}
    (hget : disk'.get? place = some entry) : disk.get? place = some entry := by
  rw [← h.others place fun id hid heq => ?_, hget]
  rw [heq, h.gone id hid] at hget
  cases hget

/-- What stood and is gone was the file of one of the numbers. -/
theorem Cleared.exists_of_gone (h : l.Cleared disk numbers disk') {place : Place} {entry : Entry}
    (hget : disk.get? place = some entry) (hgone : disk'.get? place = none) :
    ∃ id ∈ numbers, place = l.place disk id := by
  by_contra hnone
  have hsame := h.others place fun id hid heq => hnone ⟨id, hid, heq⟩
  rw [hgone, hget] at hsame
  cases hsame

/-- Of what is in the directory of reports that is left whose name is not read as a number, as it
was. -/
def Emptied (l : Layout) (disk disk' : Disk) : Prop :=
  ∀ name, disk'.get? (l.home disk ++ [name]) =
    if (ReportName.parse? name l.bundleId).isSome then none
    else disk.get? (l.home disk ++ [name])

/-- If a directory in order is cleared of what it lists, no report is left in it and nothing else is
missing. -/
theorem Orderly.emptied (h : l.Orderly disk)
    (hcleared : l.Cleared disk (FileStore.idsOf l.bundleId (disk.namesIn (l.home disk))) disk') :
    l.Emptied disk disk' := by
  intro name
  cases hparse : ReportName.parse? name l.bundleId with
  | none =>
      refine hcleared.others _ fun id _ heq => ?_
      have hformat := ReportName.parse?_format l.bundleId id
      rw [← List.singleton_inj.mp (List.append_cancel_left heq), hparse] at hformat
      cases hformat
  | some id =>
      rw [Option.isSome_some, if_pos rfl]
      by_contra hleft
      obtain ⟨entry, hentry⟩ := Option.ne_none_iff_exists'.mp hleft
      -- what is left was there, so it was listed under the number whose name it has
      have hget := hcleared.get?_of_left hentry
      have hlisted := (FileStore.mem_idsOf_iff h.tree).mpr ⟨name, entry, hget, hparse⟩
      have hgone := hcleared.gone id hlisted
      rw [place, ← (h.canonical hget hparse).1, hentry] at hgone
      cases hgone

/-- If a directory of files is emptied by clearing numbers, the names that were read as numbers were
theirs. -/
theorem Filed.orderly_of_emptied (h : l.Filed disk) (htree : disk.Tree)
    (hcleared : l.Cleared disk numbers disk') (hemptied : l.Emptied disk disk') :
    l.Orderly disk := by
  refine ⟨htree, fun {name entry id} hget hparse => ⟨?_, ?_⟩⟩
  · have hgone := hemptied name
    rw [hparse, Option.isSome_some, if_pos rfl] at hgone
    obtain ⟨id', _, heq⟩ := hcleared.exists_of_gone hget hgone
    have hname : name = ReportName.format l.bundleId id' :=
      List.singleton_inj.mp (List.append_cancel_left heq)
    rw [hname, ReportName.parse?_format] at hparse
    exact Option.some.inj hparse ▸ hname
  · cases entry with
    | file content => exact ⟨content, rfl⟩
    | directory => exact absurd rfl (h name _ hget).1

end Layout

namespace FileStore

open Layout

variable {bundleId basePath : String} {s s' : FileStore} {log log' : Log}

/-- Erasing that does not fail takes one file away. -/
theorem Installed.cleared_of_delete (h : s.Installed bundleId basePath)
    (hslash : '/' ∉ (Layout.under bundleId basePath).bundleId.toList) {id : Int64}
    (hdelete : (delete id).perform s log = ((.ok (), s'), log')) :
    s'.Installed bundleId basePath ∧
      (Layout.under bundleId basePath).Cleared s.disk [id] s'.disk := by
  have hdirectory := directory_under bundleId basePath
  rcases perform_delete_cases h.layout hdelete with
    ⟨disk, hremove, _, rfl⟩ | ⟨hremove, _, rfl⟩ | ⟨_, hr, _⟩
  · obtain ⟨⟨content, hget⟩, rfl, hcleared⟩ := cleared_of_remove hslash hdirectory hremove
    refine ⟨⟨h.layout, h.leads.of_directories rfl ?_, h.tree.erase hget⟩, hcleared⟩
    exact fun _ hdir => Disk.get?_erase_of_directory hget hdir
  · exact ⟨h, cleared_of_remove_notFound hslash hdirectory h.leads hremove⟩
  · cases hr

/-- Erasing one after the other takes a file away each time. -/
theorem Installed.cleared_of_deleteEach (numbers : List Int64) (h : s.Installed bundleId basePath)
    (hslash : ∀ id ∈ numbers, '/' ∉ (Layout.under bundleId basePath).bundleId.toList)
    (hdelete : (deleteEach numbers).perform s log = ((.ok (), s'), log')) :
    s'.Installed bundleId basePath ∧
      (Layout.under bundleId basePath).Cleared s.disk numbers s'.disk := by
  induction numbers generalizing s log with
  | nil =>
      obtain rfl : s = s' := (Prod.mk.inj (Prod.mk.inj hdelete).1).2
      exact ⟨h, cleared_nil _ _⟩
  | cons id rest ih =>
      rw [deleteEach] at hdelete
      rcases Action.perform_bind_cases hdelete with ⟨_, s₁, log₁, hfirst, hrest⟩ | ⟨_, _, hr⟩
      · obtain ⟨hinstalled, hcleared⟩ :=
          h.cleared_of_delete (hslash id List.mem_cons_self) hfirst
        obtain ⟨hinstalled', hcleared'⟩ :=
          ih hinstalled (fun id' hid' => hslash id' (List.mem_cons_of_mem _ hid')) hrest
        exact ⟨hinstalled', hcleared.cons hcleared'⟩
      · cases hr

theorem Installed.cleared_of_deleteAll (h : s.Installed bundleId basePath)
    (hfiled : (Layout.under bundleId basePath).Filed s.disk)
    (hdelete : deleteAll.perform s log = ((.ok (), s'), log')) :
    ∃ log₁, ids.perform s log = ((.ok (idsOf bundleId
        (s.disk.namesIn ((Layout.under bundleId basePath).home s.disk))), s), log₁) ∧
      s'.Installed bundleId basePath ∧
      (Layout.under bundleId basePath).Cleared s.disk (idsOf bundleId
        (s.disk.namesIn ((Layout.under bundleId basePath).home s.disk))) s'.disk := by
  obtain ⟨log₁, hids⟩ := h.perform_ids log
  unfold deleteAll at hdelete
  rw [Action.perform_bind_ok hids] at hdelete
  refine ⟨log₁, hids, h.cleared_of_deleteEach _ (fun id hid => ?_) hdelete⟩
  obtain ⟨name, entry, hget, hparse⟩ := (mem_idsOf_iff h.tree).mp hid
  exact (hfiled.of_parse? hget hparse).1

/-- A store whose directory has been emptied counts no report. -/
theorem Installed.count_of_emptied (h : s'.Installed bundleId basePath)
    (hworking : s'.disk.working = s.disk.working)
    (hemptied : (Layout.under bundleId basePath).Emptied s.disk s'.disk) (log : Log) :
    ∃ log', count.perform s' log = ((.ok 0, s'), log') := by
  obtain ⟨log', hids⟩ := h.perform_ids log
  have hnone : idsOf (Layout.under bundleId basePath).bundleId
      (s'.disk.namesIn ((Layout.under bundleId basePath).home s'.disk)) = [] := by
    refine List.eq_nil_iff_forall_not_mem.mpr fun id hid => ?_
    obtain ⟨name, entry, hget, hparse⟩ := (mem_idsOf_iff h.tree).mp hid
    rw [home_congr _ hworking, hemptied, hparse, Option.isSome_some, if_pos rfl] at hget
    cases hget
  rw [show idsOf bundleId _ = [] from hnone] at hids
  exact ⟨log', Action.perform_bind_ok hids⟩

/-- **Erasing all reports** takes away the files of the numbers that are listed, and nothing else. It
leaves a directory of files without its reports just in case the directory was in order. What a
courier does to erase all reports is the same. -/
theorem deleteAll_empties_iff_orderly (h : s.Installed bundleId basePath)
    (hfiled : (Layout.under bundleId basePath).Filed s.disk)
    (hdelete : deleteAll.perform s log = ((.ok (), s'), log')) :
    (∃ numbers log₁, ids.perform s log = ((.ok numbers, s), log₁) ∧
      (Layout.under bundleId basePath).Cleared s.disk numbers s'.disk) ∧
    ((∀ log, ∃ log', count.perform s' log = ((.ok 0, s'), log')) ∧
        (Layout.under bundleId basePath).Emptied s.disk s'.disk ↔
      (Layout.under bundleId basePath).Orderly s.disk) ∧
    ∀ {τ : Type} (c : Courier FileStore τ) (t : τ), c.store = .files →
      ∃ log₁, c.deleteAll.perform (s, t) log = ((.ok (), (s', t)), log₁) := by
  obtain ⟨log₁, hids, h', hcleared⟩ := h.cleared_of_deleteAll hfiled hdelete
  refine ⟨⟨_, log₁, hids, hcleared⟩, ⟨?_, ?_⟩, fun c t hstore => ?_⟩
  · exact fun ⟨_, hemptied⟩ => hfiled.orderly_of_emptied h.tree hcleared hemptied
  · intro horderly
    have hemptied := horderly.emptied hcleared
    exact ⟨h'.count_of_emptied hcleared.working hemptied, hemptied⟩
  · have hdelete' : c.store.deleteAll.perform s log = ((.ok (), s'), log') := by
      rw [hstore]
      exact hdelete
    unfold Courier.deleteAll
    rw [Action.perform_bind_ok (Courier.perform_onStore_of hdelete' t)]
    exact ⟨_, rfl⟩

theorem tidy_emptied :
    ∃ s s' log log', (install "app" "b").perform ⟨none, tidy⟩ [] = ((.ok (), s), log) ∧
      (Layout.under "app" "b").Filed s.disk ∧ deleteAll.perform s log = ((.ok (), s'), log') ∧
      (∀ log, ∃ log', count.perform s' log = ((.ok 0, s'), log')) ∧
      (Layout.under "app" "b").Emptied s.disk s'.disk := by
  obtain ⟨log, hinstall⟩ : ∃ log, (install "app" "b").perform ⟨none, tidy⟩ [] =
      ((.ok (), ⟨some (.under "app" "b"), tidy⟩), log) := ⟨_, rfl⟩
  have hinstalled := installed_of_perform tree_tidy hinstall
  have hfiled : (Layout.under "app" "b").Filed tidy :=
    (tree_tidy.forall_named_iff _).mpr (by decide +kernel)
  have horderly : (Layout.under "app" "b").Orderly tidy := by decide +kernel
  have hplain : (Layout.under "app" "b").Plain :=
    Layout.plain_under (by decide) (by decide) (by decide) (by decide)
  have hready : Ready (.under "app" "b") ⟨some (.under "app" "b"), tidy⟩ :=
    ⟨hplain, rfl, hinstalled.leads, horderly⟩
  obtain ⟨s', log', hdelete, _⟩ := hready.perform_deleteAll log
  obtain ⟨_, hiff, _⟩ := deleteAll_empties_iff_orderly hinstalled hfiled hdelete
  obtain ⟨hcount, hemptied⟩ := hiff.mpr horderly
  exact ⟨_, s', log, log', hinstall, hfiled, hdelete, hcount, hemptied⟩

/-- Two files that were listed stay, and are counted. -/
theorem respelled_not_emptied :
    ∃ s s' log log' log'', (install "app" "b").perform ⟨none, respelled⟩ [] = ((.ok (), s), log) ∧
      (Layout.under "app" "b").Filed s.disk ∧ deleteAll.perform s log = ((.ok (), s'), log') ∧
      count.perform s' log' = ((.ok 2, s'), log'') ∧
      ¬ (Layout.under "app" "b").Emptied s.disk s'.disk := by
  have htree : respelled.Tree := by decide +kernel
  obtain ⟨log, hinstall⟩ : ∃ log, (install "app" "b").perform ⟨none, respelled⟩ [] =
      ((.ok (), ⟨some (.under "app" "b"), respelled⟩), log) := ⟨_, rfl⟩
  obtain ⟨log₁, hids⟩ := (installed_of_perform htree hinstall).perform_ids log
  rw [idsOf_of_ascending [1, 1, 255] (by decide +kernel) (by decide)] at hids
  -- the first is erased, and then it is not found again, and the other is not found either
  let left := respelled.erase ["b", "Reports", "app-report-0000000000000001.json"]
  have hfirst : respelled.remove ((Layout.under "app" "b").reportPath 1) = .ok left := rfl
  have hagain : left.remove ((Layout.under "app" "b").reportPath 1) = .error .notFound := rfl
  have hother : left.remove ((Layout.under "app" "b").reportPath 255) = .error .notFound := rfl
  have hlayout : ∀ disk, (FileStore.mk (some (.under "app" "b")) disk).layout =
    some (.under "app" "b") := fun _ => rfl
  obtain ⟨log₂, hdelete⟩ := perform_delete_of_remove (hlayout respelled) hfirst log₁
  have hdelete' := perform_delete_of_notFound (hlayout left) hagain log₂
  have hdelete'' := perform_delete_of_notFound (hlayout left) hother log₂
  have hlist : left.list (Layout.under "app" "b").directory =
      .ok ["app-report-+000000000000001.json", "app-report-00000000000000FF.json"] := rfl
  obtain ⟨log₃, hids'⟩ := perform_ids_of_list (hlayout left) hlist log₂
  rw [idsOf_of_ascending [1, 255] (by decide +kernel) (by decide)] at hids'
  refine ⟨_, ⟨some (.under "app" "b"), left⟩, log, log₂, log₃, hinstall,
    (htree.forall_named_iff _).mpr (by decide +kernel), ?_, Action.perform_bind_ok hids', ?_⟩
  · unfold deleteAll
    rw [Action.perform_bind_ok hids, deleteEach, Action.perform_bind_ok hdelete, deleteEach,
      Action.perform_bind_ok hdelete', deleteEach, Action.perform_bind_ok hdelete'']
    rfl
  · intro hemptied
    have hgone := hemptied "app-report-00000000000000FF.json"
    rw [if_pos (by decide +kernel)] at hgone
    exact absurd hgone (by decide +kernel)

end FileStore

end CrashCourier
