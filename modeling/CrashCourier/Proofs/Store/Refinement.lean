import CrashCourier.Proofs.Store.Shelf

/-!
# A store of files is a map

Whatever is asked of a store of files, in whatever order, it answers as a map from numbers to records
would: that is said by `Shelf.Answers`, one constructor for each way a call can come out, without a
word about files. `Stands` ties a store to a map, and a call that is served on the one is answered by
the other (`Stands.serve`). So is every list of calls, by induction on it.

The monitor writes into the directory of reports while the store is in use, and before; what it writes
is a call as well.
-/

namespace CrashCourier

open Files

/-! ## Calls and their answers -/

/-- What is asked of a store, and what the monitor writes. -/
inductive StoreRequest where
  | install
  | count
  | ids
  | read (id : Int64)
  | delete (id : Int64)
  | deleteAll
  /-- The monitor writes a report. -/
  | write (id : Int64) (content : Bytes)

/-- Whether something is asked of a store that has to be installed for it. -/
def StoreRequest.needsInstall : StoreRequest → Bool
  | install | write _ _ => false
  | count | ids | read _ | delete _ | deleteAll => true

/-- What comes of a request that does not fail. -/
inductive StoreAnswer where
  | done
  | count (n : Nat)
  | ids (ids : List Int64)
  | record (found : Option Bytes)
  /-- The monitor could not write. -/
  | unwritten (fault : Fault)

namespace FileStore

/-- Serves a request at a store of files for the reports of a bundle under a directory. -/
def serve (bundleId basePath : String) : StoreRequest → Work StoreAnswer
  | .install => do
    install bundleId basePath
    return .done
  | .count => do return .count (← count)
  | .ids => do return .ids (← ids)
  | .read id => do return .record (← read id)
  | .delete id => do
    delete id
    return .done
  | .deleteAll => do
    deleteAll
    return .done
  | .write id content => do
    let s ← get
    match s.disk.write ((Layout.under bundleId basePath).reportPath id) content with
    | .error fault => return .unwritten fault
    | .ok disk =>
      set { s with disk }
      return .done

/-- Serves requests one after the other, whether or not some fail. -/
def serveEach (bundleId basePath : String) :
    List StoreRequest → FileStore → Log → List (Except StoreFault StoreAnswer) × FileStore
  | [], s, _ => ([], s)
  | request :: rest, s, log =>
    let ((r, s), log) := (serve bundleId basePath request).perform s log
    let (rs, s) := serveEach bundleId basePath rest s log
    (r :: rs, s)

end FileStore

/-! ## Maps that answer -/

/-- The numbers under which there are records, ascending. -/
def Records.Keys (m : Records) (ids : List Int64) : Prop :=
  ids.Pairwise (· < ·) ∧ ∀ id, id ∈ ids ↔ ∃ content, m id = some content

theorem Records.without_keys {m : Records} {ids : List Int64} (h : m.Keys ids) :
    m.without ids = fun _ => none := by
  funext id
  rw [Records.without_apply]
  split
  · rfl
  · rename_i hmem
    cases hid : m id with
    | none => rfl
    | some content => exact absurd ((h.2 id).mpr ⟨content, hid⟩) hmem

/-- A store as a map: the records, and whether the store has been installed. -/
structure Shelf where
  installed : Bool
  records : Records

namespace Shelf

/-- What a map answers to a request, and the map after it. -/
inductive Answers : Shelf → StoreRequest → Except StoreFault StoreAnswer → Shelf → Prop where
  | install {m : Shelf} : Answers m .install (.ok .done) ⟨true, m.records⟩
  | install_fails {m : Shelf} {fault : StoreFault} : m.installed = false →
      Answers m .install (.error fault) m
  | early {m : Shelf} {request : StoreRequest} : m.installed = false →
      request.needsInstall = true → Answers m request (.error .notInstalled) m
  | count {records : Records} {ids : List Int64} : records.Keys ids →
      Answers ⟨true, records⟩ .count (.ok (.count ids.length)) ⟨true, records⟩
  | ids {records : Records} {ids : List Int64} : records.Keys ids →
      Answers ⟨true, records⟩ .ids (.ok (.ids ids)) ⟨true, records⟩
  | read {records : Records} {id : Int64} :
      Answers ⟨true, records⟩ (.read id) (.ok (.record (records id))) ⟨true, records⟩
  | delete {records : Records} {id : Int64} :
      Answers ⟨true, records⟩ (.delete id) (.ok .done) ⟨true, records.without [id]⟩
  | deleteAll {records : Records} :
      Answers ⟨true, records⟩ .deleteAll (.ok .done) ⟨true, fun _ => none⟩
  | write {m : Shelf} {id : Int64} {content : Bytes} :
      Answers m (.write id content) (.ok .done) ⟨m.installed, m.records.put id content⟩
  /-- Before the directory is there the monitor may fail to write. -/
  | unwritten {m : Shelf} {id : Int64} {content : Bytes} {fault : Fault} : m.installed = false →
      Answers m (.write id content) (.ok (.unwritten fault)) m

theorem Answers.read_eq {records : Records} {id : Int64} {r : Except StoreFault StoreAnswer}
    {m : Shelf} (h : Answers ⟨true, records⟩ (.read id) r m) : r = .ok (.record (records id)) := by
  cases h with
  | early hinstalled => cases hinstalled
  | read => rfl

/-- What a map answers to requests, one after the other. -/
inductive AnswersEach :
    Shelf → List StoreRequest → List (Except StoreFault StoreAnswer) → Shelf → Prop where
  | nil {m : Shelf} : AnswersEach m [] [] m
  | cons {m m' m'' : Shelf} {request : StoreRequest} {requests : List StoreRequest}
      {r : Except StoreFault StoreAnswer} {rs : List (Except StoreFault StoreAnswer)} :
      Answers m request r m' → AnswersEach m' requests rs m'' →
      AnswersEach m (request :: requests) (r :: rs) m''

end Shelf

/-! ## An installed store -/

namespace FileStore

variable {l : Layout} {s s' : FileStore} {log log' : Log} {id : Int64}

/-- What is listed are the numbers of the records. -/
theorem perform_ids_of_orderly (hlayout : s.layout = some l)
    (hleads : s.disk.LeadsText l.directory) (horderly : l.Orderly s.disk) (log : Log) :
    ∃ numbers log', ids.perform s log = ((.ok numbers, s), log') ∧
      (l.records s.disk).Keys numbers := by
  have hlist : s.disk.list l.directory = .ok (s.disk.namesIn (l.home s.disk)) := by
    rw [Disk.list_of_locate hleads.1, hleads.2]
    rfl
  obtain ⟨log', hperform⟩ := perform_ids_of_list hlayout hlist log
  exact ⟨_, log', hperform, pairwise_idsOf horderly, fun _ => mem_idsOf horderly⟩

/-- A store of files that works on an orderly directory. -/
structure Ready (l : Layout) (s : FileStore) : Prop where
  plain : l.Plain
  layout : s.layout = some l
  leads : s.disk.LeadsText l.directory
  orderly : l.Orderly s.disk

theorem Ready.perform_ids (h : Ready l s) (log : Log) :
    ∃ numbers log', ids.perform s log = ((.ok numbers, s), log') ∧
      (l.records s.disk).Keys numbers :=
  perform_ids_of_orderly h.layout h.leads h.orderly log

theorem Ready.read_eq (h : Ready l s) (id : Int64) :
    s.disk.read (l.reportPath id) =
      (l.records s.disk id).elim (.error .notFound) .ok := by
  rw [Disk.read_of_locate (h.plain.locate_reportPath h.leads id), h.orderly.get?_place]
  cases l.records s.disk id with
  | none => rfl
  | some content =>
      rw [Layout.saysDirectory_reportPath h.plain.slash h.plain.directory]
      rfl

/-- What is read is the record. -/
theorem Ready.perform_read (h : Ready l s) (id : Int64) (log : Log) :
    (read id).perform s log = ((.ok (l.records s.disk id), s), log) := by
  unfold read
  rw [Action.perform_bind_ok (perform_installed h.layout log),
    Action.perform_bind_ok (Action.perform_get s log), h.read_eq]
  cases l.records s.disk id with
  | none => rfl
  | some content => rfl

/-- A store stays ready if only files of its directory have gone or come. -/
theorem Ready.of_directories (h : Ready l s) {disk : Disk} (horderly : l.Orderly disk)
    (hworking : disk.working = s.disk.working)
    (hdirs : ∀ place, s.disk.get? place = some .directory → disk.get? place = some .directory) :
    Ready l { s with disk } :=
  ⟨h.plain, h.layout, h.leads.of_directories hworking hdirs, horderly⟩

/-- Erasing takes the record away and nothing else, whether or not there is one. -/
theorem Ready.perform_delete (h : Ready l s) (id : Int64) (log : Log) :
    ∃ s' log', (delete id).perform s log = ((.ok (), s'), log') ∧ Ready l s' ∧
      l.records s'.disk = (l.records s.disk).without [id] ∧ l.Kept s.disk s'.disk := by
  have hremove := Disk.remove_of_locate (h.plain.locate_reportPath h.leads id)
  rw [h.orderly.get?_place, Layout.saysDirectory_reportPath h.plain.slash h.plain.directory]
    at hremove
  cases hrecord : l.records s.disk id with
  | none =>
      rw [hrecord] at hremove
      exact ⟨s, log, perform_delete_of_notFound h.layout hremove log, h,
        (Records.without_singleton_of_none hrecord).symm, .refl l s.disk⟩
  | some content =>
      rw [hrecord] at hremove
      obtain ⟨log', hdelete⟩ := perform_delete_of_remove h.layout hremove log
      obtain ⟨horderly, hrecords, hkept⟩ := h.orderly.erase hrecord
      have hfile := Layout.records_eq_some_iff.mp hrecord
      have hready := h.of_directories horderly hkept.working
        fun _ hdir => Disk.get?_erase_of_directory hfile hdir
      exact ⟨_, log', hdelete, hready, hrecords, hkept⟩

/-- Erasing one after the other takes all of them away. -/
theorem Ready.perform_deleteEach (numbers : List Int64) (h : Ready l s) (log : Log) :
    ∃ s' log', (deleteEach numbers).perform s log = ((.ok (), s'), log') ∧ Ready l s' ∧
      l.records s'.disk = (l.records s.disk).without numbers ∧ l.Kept s.disk s'.disk := by
  induction numbers generalizing s log with
  | nil => exact ⟨s, log, rfl, h, (Records.without_nil _).symm, .refl l s.disk⟩
  | cons id rest ih =>
      obtain ⟨s₁, log₁, hfirst, hready, hrecords, hkept⟩ := h.perform_delete id log
      obtain ⟨s₂, log₂, hrest, hready', hrecords', hkept'⟩ := ih hready log₁
      refine ⟨s₂, log₂, ?_, hready', ?_, hkept.trans hkept'⟩
      · rw [deleteEach, Action.perform_bind_ok hfirst, hrest]
      · rw [hrecords', hrecords, ← Records.without_cons]

theorem Ready.perform_deleteAll (h : Ready l s) (log : Log) :
    ∃ s' log', deleteAll.perform s log = ((.ok (), s'), log') ∧ Ready l s' ∧
      l.records s'.disk = (fun _ => none) ∧ l.Kept s.disk s'.disk := by
  obtain ⟨numbers, log₁, hids, hkeys⟩ := h.perform_ids log
  obtain ⟨s', log', hdelete, hready, hrecords, hkept⟩ := h.perform_deleteEach numbers log₁
  refine ⟨s', log', ?_, hready, hrecords.trans (Records.without_keys hkeys), hkept⟩
  unfold deleteAll
  rw [Action.perform_bind_ok hids, hdelete]

/-! ## A store before and after it is installed -/

/-- Installing makes the directory, and then or not at all goes over to it. -/
theorem perform_install {bundleId basePath : String} {r : Except StoreFault Unit}
    (h : (install bundleId basePath).perform s log = ((r, s'), log')) :
    ∃ result, s.disk.makeDirectories (reportsDirectory basePath) = (result, s'.disk) ∧
      (result = .ok () ∧ r = .ok () ∧ s'.layout = some (.under bundleId basePath) ∨
        ∃ why fault, result = .error why ∧ r = .error fault ∧ s'.layout = s.layout) := by
  unfold install at h
  rw [Action.perform_bind_ok (Action.perform_get s log)] at h
  rcases hmade : s.disk.makeDirectories (reportsDirectory basePath) with ⟨result, disk⟩
  rw [hmade] at h
  dsimp only at h
  rw [Action.perform_bind_ok (Action.perform_set s _ log)] at h
  cases result with
  | error fault =>
      obtain ⟨hr, hs⟩ := Prod.mk.inj (Prod.mk.inj h).1
      exact ⟨_, by rw [← hs], .inr ⟨fault, _, rfl, hr.symm, by rw [← hs]⟩⟩
  | ok _ =>
      obtain ⟨hr, hs⟩ := Prod.mk.inj (Prod.mk.inj h).1
      exact ⟨_, by rw [← hs], .inl ⟨rfl, hr.symm, by rw [← hs]; rfl⟩⟩

/-- Before a store is installed, what needs it fails and changes nothing. -/
theorem perform_serve_early {bundleId basePath : String} {request : StoreRequest}
    (hneeds : request.needsInstall = true) (h : s.layout = none) (log : Log) :
    (serve bundleId basePath request).perform s log = ((.error .notInstalled, s), log) := by
  have hinstalled := perform_not_installed h log
  have hids : ids.perform s log = ((.error .notInstalled, s), log) :=
    Action.perform_bind_error hinstalled
  cases request with
  | install => cases hneeds
  | write id content => cases hneeds
  | count => exact Action.perform_bind_error (Action.perform_bind_error hids)
  | ids => exact Action.perform_bind_error hids
  | read id => exact Action.perform_bind_error (Action.perform_bind_error hinstalled)
  | delete id => exact Action.perform_bind_error (Action.perform_bind_error hinstalled)
  | deleteAll => exact Action.perform_bind_error (Action.perform_bind_error hids)

theorem perform_serve_write (bundleId basePath : String) (id : Int64) (content : Bytes)
    (s : FileStore) (log : Log) :
    (serve bundleId basePath (.write id content)).perform s log =
      match s.disk.write ((Layout.under bundleId basePath).reportPath id) content with
      | .error fault => ((.ok (.unwritten fault), s), log)
      | .ok disk => ((.ok .done, { s with disk }), log) := by
  unfold serve
  rw [Action.perform_bind_ok (Action.perform_get s log)]
  cases s.disk.write ((Layout.under bundleId basePath).reportPath id) content <;> rfl

/-- A store stands for a map. -/
structure Stands (l : Layout) (s : FileStore) (m : Shelf) : Prop where
  layout : s.layout = if m.installed then some l else none
  leads : m.installed = true → s.disk.LeadsText l.directory
  orderly : l.Orderly s.disk
  clear : l.Clear s.disk
  records : l.records s.disk = m.records

theorem Stands.ready {records : Records} (h : Stands l s ⟨true, records⟩) (hplain : l.Plain) :
    Ready l s :=
  ⟨hplain, h.layout, h.leads rfl, h.orderly⟩

section Requests

variable {bundleId basePath : String} {m : Shelf}

/-- A call that leaves the store ready stands for a map without what it has taken away. -/
theorem Stands.of_ready {m : Shelf} {records : Records} (h : Stands l s m) (hready : Ready l s')
    (hrecords : l.records s'.disk = records) (hkept : l.Kept s.disk s'.disk) :
    Stands l s' ⟨true, records⟩ :=
  ⟨hready.layout, fun _ => hready.leads, hready.orderly, h.clear.congr hkept.working, hrecords⟩

/-- The monitor writes, or there is no directory yet to write into. -/
theorem Stands.write (h : Stands l s m) (hplain : l.Plain) (id : Int64) (content : Bytes) :
    (∃ disk, s.disk.write (l.reportPath id) content = .ok disk ∧
      Stands l { s with disk } ⟨m.installed, m.records.put id content⟩ ∧ l.Kept s.disk disk) ∨
    m.installed = false ∧ ∃ fault, s.disk.write (l.reportPath id) content = .error fault := by
  cases hl : s.disk.locate (l.reportPath id) with
  | error fault =>
      refine .inr ⟨?_, fault, Disk.write_of_locate_error hl content⟩
      cases hinstalled : m.installed with
      | false => rfl
      | true =>
          rw [hplain.locate_reportPath (h.leads hinstalled)] at hl
          cases hl
  | ok q =>
      obtain ⟨rfl, hdir⟩ := Layout.place_of_locate hplain.slash hplain.directory hl
      obtain ⟨horderly, hrecords, hkept⟩ := h.orderly.set hplain hdir id content
      refine .inl ⟨s.disk.set (l.place s.disk id) (.file content), ?_,
        ⟨h.layout, fun hinstalled => ?_, horderly, ?_, ?_⟩, hkept⟩
      · rw [Disk.write_of_locate hl, Layout.saysDirectory_reportPath hplain.slash hplain.directory,
          if_neg]
        rintro (hdirectory | hfalse)
        · exact h.orderly.not_directory id hdirectory
        · cases hfalse
      · refine (h.leads hinstalled).of_directories hkept.working fun place hplace => ?_
        rw [Disk.get?_set_of_ne (by rintro rfl; exact h.orderly.not_directory id hplace), hplace]
      · exact h.clear.congr hkept.working
      · exact hrecords.trans (by rw [h.records])

/-- Installing makes directories, and it cannot fail where it has not failed. -/
theorem Stands.install (h : Stands (.under bundleId basePath) s m)
    (hplain : (Layout.under bundleId basePath).Plain) {r : Except StoreFault Unit}
    (hinstall : (FileStore.install bundleId basePath).perform s log = ((r, s'), log')) :
    (Layout.under bundleId basePath).Spared s.disk s'.disk ∧
      (r = .ok () ∧ Stands (.under bundleId basePath) s' ⟨true, m.records⟩ ∨
        m.installed = false ∧ (∃ fault, r = .error fault) ∧ s'.layout = s.layout ∧
          Stands (.under bundleId basePath) s' m) := by
  obtain ⟨result, hmade, hcases⟩ := perform_install hinstall
  obtain ⟨hgrown, hleads⟩ := h.orderly.tree.makeDirectories_grown hplain.directory_ne hmade
  obtain ⟨horderly, hrecords, hspared⟩ := h.orderly.grown h.clear hgrown
  have hclear := h.clear.congr hspared.working
  have hrecords' := hrecords.trans h.records
  refine ⟨hspared, ?_⟩
  rcases hcases with ⟨hresult, hr, hlayout⟩ | ⟨why, fault, hresult, hr, hlayout⟩
  · exact .inl ⟨hr, hlayout, fun _ => hleads hresult, horderly, hclear, hrecords'⟩
  · have hnot : m.installed = false := by
      cases hinstalled : m.installed with
      | false => rfl
      | true =>
          rw [hresult] at hmade
          cases (h.leads hinstalled).makeDirectories_eq.symm.trans hmade
    refine .inr ⟨hnot, ⟨fault, hr⟩, hlayout, hlayout.trans h.layout, fun hinstalled => ?_, horderly,
      hclear, hrecords'⟩
    rw [hnot] at hinstalled
    cases hinstalled

/-- What a store answers that is ready. -/
theorem Ready.serve (h : Ready (.under bundleId basePath) s) {request : StoreRequest}
    (hneeds : request.needsInstall = true) (log : Log) :
    ∃ r records s' log', (FileStore.serve bundleId basePath request).perform s log =
        ((r, s'), log') ∧
      Shelf.Answers ⟨true, (Layout.under bundleId basePath).records s.disk⟩ request r
        ⟨true, records⟩ ∧
      Ready (.under bundleId basePath) s' ∧
      (Layout.under bundleId basePath).records s'.disk = records ∧
      (Layout.under bundleId basePath).Kept s.disk s'.disk := by
  cases request with
  | install => cases hneeds
  | write id content => cases hneeds
  | count =>
      obtain ⟨numbers, log', hids, hkeys⟩ := h.perform_ids log
      refine ⟨_, _, s, log', ?_, .count hkeys, h, rfl, .refl _ _⟩
      have hcount : FileStore.count.perform s log = ((.ok numbers.length, s), log') :=
        Action.perform_bind_ok hids
      exact Action.perform_bind_ok hcount
  | ids =>
      obtain ⟨numbers, log', hids, hkeys⟩ := h.perform_ids log
      exact ⟨_, _, s, log', Action.perform_bind_ok hids, .ids hkeys, h, rfl, .refl _ _⟩
  | read id =>
      exact ⟨_, _, s, log, Action.perform_bind_ok (h.perform_read id log), .read, h, rfl,
        .refl _ _⟩
  | delete id =>
      obtain ⟨s', log', hdelete, hready, hrecords, hkept⟩ := h.perform_delete id log
      exact ⟨_, _, s', log', Action.perform_bind_ok hdelete, .delete, hready, hrecords, hkept⟩
  | deleteAll =>
      obtain ⟨s', log', hdelete, hready, hrecords, hkept⟩ := h.perform_deleteAll log
      exact ⟨_, _, s', log', Action.perform_bind_ok hdelete, .deleteAll, hready, hrecords, hkept⟩

/-- A request to a store is answered as by a map, which the store then stands for, and what is no
report is spared. -/
def ServedAs (bundleId basePath : String) (request : StoreRequest) (s : FileStore) (m : Shelf) :
    Prop :=
  ∀ log, ∃ r s' log' m', (FileStore.serve bundleId basePath request).perform s log =
      ((r, s'), log') ∧
    m.Answers request r m' ∧ Stands (.under bundleId basePath) s' m' ∧
    (Layout.under bundleId basePath).Spared s.disk s'.disk

theorem Stands.serve_install (h : Stands (.under bundleId basePath) s m)
    (hplain : (Layout.under bundleId basePath).Plain) :
    ServedAs bundleId basePath .install s m := by
  intro log
  rcases hinstall : (FileStore.install bundleId basePath).perform s log with ⟨⟨r, s'⟩, log'⟩
  obtain ⟨hspared, ⟨rfl, hstands⟩ | ⟨hnot, ⟨fault, rfl⟩, _, hstands⟩⟩ := h.install hplain hinstall
  · exact ⟨_, s', log', _, Action.perform_bind_ok hinstall, .install, hstands, hspared⟩
  · exact ⟨_, s', log', m, Action.perform_bind_error hinstall, .install_fails hnot, hstands, hspared⟩

theorem Stands.serve_write (h : Stands (.under bundleId basePath) s m)
    (hplain : (Layout.under bundleId basePath).Plain) (id : Int64) (content : Bytes) :
    ServedAs bundleId basePath (.write id content) s m := by
  intro log
  have hserve := perform_serve_write bundleId basePath id content s log
  rcases h.write hplain id content with ⟨disk, hwrite, hstands, hkept⟩ | ⟨hnot, fault, hwrite⟩
  · rw [hwrite] at hserve
    exact ⟨_, _, log, _, hserve, .write, hstands, hkept.spared⟩
  · rw [hwrite] at hserve
    exact ⟨_, s, log, m, hserve, .unwritten hnot, h, (Layout.Kept.refl _ _).spared⟩

/-- What needs an installed store is served by it, and refused before. -/
theorem Stands.serve_needing (h : Stands (.under bundleId basePath) s m)
    (hplain : (Layout.under bundleId basePath).Plain) {request : StoreRequest}
    (hneeds : request.needsInstall = true) : ServedAs bundleId basePath request s m := by
  intro log
  obtain ⟨installed, records⟩ := m
  cases installed with
  | false =>
      exact ⟨_, s, log, _, perform_serve_early hneeds h.layout log, .early rfl hneeds, h,
        (Layout.Kept.refl _ _).spared⟩
  | true =>
      obtain ⟨r, records', s', log', hperform, hanswers, hready, hrecords, hkept⟩ :=
        (h.ready hplain).serve hneeds log
      rw [h.records] at hanswers
      exact ⟨r, s', log', _, hperform, hanswers, h.of_ready hready hrecords hkept, hkept.spared⟩

/-- **A request is answered as by the map that the store stands for.** -/
theorem Stands.serve (h : Stands (.under bundleId basePath) s m)
    (hplain : (Layout.under bundleId basePath).Plain) (request : StoreRequest) :
    ServedAs bundleId basePath request s m := by
  cases request with
  | install => exact h.serve_install hplain
  | write id content => exact h.serve_write hplain id content
  | count => exact h.serve_needing hplain rfl
  | ids => exact h.serve_needing hplain rfl
  | read id => exact h.serve_needing hplain rfl
  | delete id => exact h.serve_needing hplain rfl
  | deleteAll => exact h.serve_needing hplain rfl

/-- So is every request of a list. -/
theorem Stands.serveEach (requests : List StoreRequest) (h : Stands (.under bundleId basePath) s m)
    (hplain : (Layout.under bundleId basePath).Plain) (log : Log) :
    ∃ m', m.AnswersEach requests (FileStore.serveEach bundleId basePath requests s log).1 m' ∧
      Stands (.under bundleId basePath) (FileStore.serveEach bundleId basePath requests s log).2 m' ∧
      (Layout.under bundleId basePath).Spared s.disk
        (FileStore.serveEach bundleId basePath requests s log).2.disk := by
  induction requests generalizing s m log with
  | nil => exact ⟨m, .nil, h, (Layout.Kept.refl _ _).spared⟩
  | cons request rest ih =>
      obtain ⟨r, s₁, log₁, m₁, hserve, hanswers, hstands, hspared⟩ := h.serve hplain request log
      obtain ⟨m₂, hanswers', hstands', hspared'⟩ := ih hstands log₁
      rw [FileStore.serveEach, hserve]
      exact ⟨m₂, .cons hanswers hanswers', hstands', hspared.trans hspared'⟩

/-- **A store of files is a map from numbers to records**, whatever is in its directory and whatever
is asked of it. The reports have to be names in the directory that the file system takes, a name that
is read as a number has to be the name of that number, and the path of the directory must not come
through such a name. Then every request is answered as by the map, and of what is no report nothing
is changed. Before a store is installed whatever needs it fails and changes nothing; installing that
fails leaves the store where it was, and has made directories at most. -/
theorem refines_map (hslash : '/' ∉ bundleId.toList) (hnul : '\x00' ∉ bundleId.toList)
    (hname : bundleId.utf8ByteSize + 29 ≤ Disk.greatestName)
    (hpath : (reportsDirectory basePath).utf8ByteSize + bundleId.utf8ByteSize + 30 ≤
      Disk.greatestPath)
    (hnew : s.layout = none) (horderly : (Layout.under bundleId basePath).Orderly s.disk)
    (hclear : (Layout.under bundleId basePath).Clear s.disk) (requests : List StoreRequest)
    (log : Log) :
    (∃ m, Shelf.AnswersEach ⟨false, (Layout.under bundleId basePath).records s.disk⟩ requests
          (serveEach bundleId basePath requests s log).1 m ∧
        Stands (.under bundleId basePath) (serveEach bundleId basePath requests s log).2 m ∧
        (Layout.under bundleId basePath).Spared s.disk
          (serveEach bundleId basePath requests s log).2.disk) ∧
      (∀ request s₁ log₁, request.needsInstall = true → s₁.layout = none →
        (FileStore.serve bundleId basePath request).perform s₁ log₁ =
          ((.error .notInstalled, s₁), log₁)) ∧
      (∀ s₁ s₂ log₁ log₂ fault, s₁.disk.Tree →
        (FileStore.install bundleId basePath).perform s₁ log₁ = ((.error fault, s₂), log₂) →
        s₂.layout = s₁.layout ∧
          Disk.Grown s₁.disk (s₁.disk.Way (.ofText (reportsDirectory basePath))) s₂.disk) := by
  have hplain := Layout.plain_under hslash hnul hname hpath
  have hstands : Stands (.under bundleId basePath) s
      ⟨false, (Layout.under bundleId basePath).records s.disk⟩ :=
    ⟨hnew, (fun h => nomatch h), horderly, hclear, rfl⟩
  refine ⟨hstands.serveEach requests hplain log, fun request s₁ log₁ hneeds hnone =>
    perform_serve_early hneeds hnone log₁, fun s₁ s₂ log₁ log₂ fault htree hinstall => ?_⟩
  obtain ⟨result, hmade, hcases⟩ := perform_install hinstall
  obtain ⟨hgrown, _⟩ := htree.makeDirectories_grown hplain.directory_ne hmade
  rcases hcases with ⟨_, hr, _⟩ | ⟨_, _, _, _, hlayout⟩
  · cases hr
  · exact ⟨hlayout, hgrown⟩

/-- A directory with one report, and with names that are none: one that misses a digit, and the
directory of another bundle. -/
def crowded : Disk :=
  ⟨[(["b", "Reports", "app-report-00000000000002a.json"], .file [1]),
    (["b", "Reports", "other-report-0000000000000001.json"], .directory),
    (["b", "Reports", "app-report-ffffffffffffffff.json"], .file [2]),
    (["b", "Reports"], .directory), (["b"], .directory)], []⟩

/-- Requests to a store of that directory, before and after it is installed. -/
def errands : List StoreRequest :=
  [.count, .install, .ids, .write 7 [3], .delete (-1), .count, .deleteAll, .read 7]

theorem crowded_refines :
    (Layout.under "app" "b").Orderly crowded ∧
      ∃ m, Shelf.AnswersEach ⟨false, (Layout.under "app" "b").records crowded⟩ errands
          (serveEach "app" "b" errands ⟨none, crowded⟩ []).1 m ∧
        Stands (.under "app" "b") (serveEach "app" "b" errands ⟨none, crowded⟩ []).2 m ∧
        (Layout.under "app" "b").Spared crowded
          (serveEach "app" "b" errands ⟨none, crowded⟩ []).2.disk := by
  have horderly : (Layout.under "app" "b").Orderly crowded := by decide +kernel
  exact ⟨horderly, (refines_map (s := ⟨none, crowded⟩) (by decide) (by decide) (by decide)
    (by decide) rfl horderly (Layout.clear_of_names (by decide)) errands []).1⟩

/-! ### Base paths under which a store is no map -/

/-- A base path that goes down through the name of a report and up again. -/
def winding : String := "Reports/app-report-0000000000000001.json/../.."

/-- A base path that stays where it is, as long as one likes. -/
def dwelling (n : Nat) : String := String.ofList (List.replicate n ['.', '/']).flatten

theorem toList_reportsDirectory_dwelling (n : Nat) :
    (reportsDirectory (dwelling (n + 1))).toList =
      (List.replicate (n + 1) ['.', '/']).flatten ++ "Reports".toList := by
  have hopen : (dwelling (n + 1)).toList.getLast? = some '/' := by
    rw [dwelling, String.toList_ofList, List.replicate_succ', List.flatten_append,
      List.getLast?_append]
    rfl
  have hne : ¬ (isAbsolute "Reports" ∨ (dwelling (n + 1)).isEmpty) := by
    rintro (habs | hempty)
    · revert habs
      decide
    · rw [String.isEmpty_iff.mp hempty] at hopen
      cases hopen
  unfold reportsDirectory join
  rw [if_neg hne, if_pos hopen, String.toList_append, dwelling, String.toList_ofList]

theorem splitOn_dwelling (n : Nat) (text : List Char) :
    ((List.replicate n ['.', '/']).flatten ++ text).splitOn '/' =
      List.replicate n ['.'] ++ text.splitOn '/' := by
  induction n with
  | zero => rfl
  | succ n ih =>
      have hcons : (List.replicate (n + 1) ['.', '/']).flatten ++ text =
          ['.'] ++ '/' :: ((List.replicate n ['.', '/']).flatten ++ text) := rfl
      rw [hcons, List.splitOn_append_cons_self, ih]
      rfl

theorem ofText_reportsDirectory_dwelling (n : Nat) :
    Path.ofText (reportsDirectory (dwelling (n + 1))) = ⟨false, ["Reports"]⟩ := by
  have hdots : ∀ name ∈ List.replicate (n + 1) (String.ofList ['.']),
      ¬ (decide (name ≠ "") && decide (name ≠ ".")) = true := by
    intro name hname
    rw [List.eq_of_mem_replicate hname]
    decide
  unfold Path.ofText isAbsolute
  rw [toList_reportsDirectory_dwelling, splitOn_dwelling, List.map_append, List.filter_append,
    List.map_replicate, List.filter_eq_nil_iff.mpr hdots]
  rfl

theorem nul_not_mem_dwelling (n : Nat) :
    '\x00' ∉ (reportsDirectory (dwelling (n + 1))).toList := by
  rw [toList_reportsDirectory_dwelling, List.mem_append, not_or]
  refine ⟨fun h => ?_, by decide⟩
  obtain ⟨part, hpart, hc⟩ := List.mem_flatten.mp h
  rw [List.eq_of_mem_replicate hpart] at hc
  exact absurd hc (by decide)

theorem ascii_dots (n : Nat) : ReportName.ascii (List.replicate n ['.', '/']).flatten = true := by
  induction n with
  | zero => rfl
  | succ n ih => rw [List.replicate_succ, List.flatten_cons, ReportName.ascii_append, ih]; rfl

theorem utf8ByteSize_reportsDirectory_dwelling (n : Nat) :
    (reportsDirectory (dwelling (n + 1))).utf8ByteSize = 2 * (n + 1) + 7 := by
  have hone : ReportName.ascii (reportsDirectory (dwelling (n + 1))).toList = true := by
    rw [toList_reportsDirectory_dwelling, ReportName.ascii_append, ascii_dots]
    decide
  have hsize := ReportName.utf8ByteSize_ofList hone
  rw [String.ofList_toList, toList_reportsDirectory_dwelling, List.length_append,
    List.length_flatten, List.map_replicate, List.sum_replicate_nat] at hsize
  rw [hsize]
  show (n + 1) * 2 + 7 = _
  omega

theorem locate_dwelling {n : Nat} (h : 2 * (n + 1) + 7 ≤ Disk.greatestPath) (disk : Disk) :
    disk.locate (reportsDirectory (dwelling (n + 1))) = disk.locatePath ⟨false, ["Reports"]⟩ := by
  have hsize := utf8ByteSize_reportsDirectory_dwelling n
  rw [Disk.locate_eq_locatePath (nul_not_mem_dwelling n) (by omega) (reportsDirectory_ne_empty _),
    ofText_reportsDirectory_dwelling]

/-- It is installed without ado. -/
theorem perform_install_dwelling {n : Nat} (h : 2 * (n + 1) + 7 ≤ Disk.greatestPath) (log : Log) :
    ∃ disk log', (serve "app" (dwelling (n + 1)) .install).perform ⟨none, ⟨[], []⟩⟩ log =
      ((.ok .done, ⟨some (.under "app" (dwelling (n + 1))), disk⟩), log') := by
  have hmade : (⟨[], []⟩ : Disk).makeDirectories (reportsDirectory (dwelling (n + 1))) =
      (.ok (), ⟨[(["Reports"], .directory)], []⟩) := by
    unfold Disk.makeDirectories
    dsimp only
    rw [if_neg (reportsDirectory_ne_empty _), locate_dwelling h, ofText_reportsDirectory_dwelling]
    rfl
  have hinstall : ∃ log', (install "app" (dwelling (n + 1))).perform ⟨none, ⟨[], []⟩⟩ log =
      ((.ok (), ⟨some (.under "app" (dwelling (n + 1))), ⟨[(["Reports"], .directory)], []⟩⟩),
        log') := by
    unfold install
    rw [Action.perform_bind_ok (Action.perform_get _ log), hmade]
    exact ⟨_, rfl⟩
  obtain ⟨log', hinstall⟩ := hinstall
  exact ⟨_, log', Action.perform_bind_ok hinstall⟩

/-- A report is not read whose path is too long. -/
theorem perform_read_of_long (hl : s.layout = some l)
    (hlong : '\x00' ∉ (l.reportPath id).toList ∧
      Disk.greatestPath < (l.reportPath id).utf8ByteSize) (log : Log) :
    (FileStore.read id).perform s log =
      ((.error (.file .read (l.reportPath id) .nameTooLong), s), log) := by
  have hlocate : s.disk.locate (l.reportPath id) = .error .nameTooLong := by
    unfold Disk.locate
    rw [if_neg (by simpa using hlong.1), if_pos hlong.2]
    rfl
  unfold FileStore.read
  rw [Action.perform_bind_ok (perform_installed hl log),
    Action.perform_bind_ok (Action.perform_get s log), Disk.read_of_locate_error hlocate]
  rfl

theorem reportPath_dwelling_long {n : Nat} (h : Disk.greatestPath < 2 * (n + 1) + 40) :
    '\x00' ∉ ((Layout.under "app" (dwelling (n + 1))).reportPath id).toList ∧
      Disk.greatestPath < ((Layout.under "app" (dwelling (n + 1))).reportPath id).utf8ByteSize := by
  have hpath : (Layout.under "app" (dwelling (n + 1))).reportPath id =
      reportsDirectory (dwelling (n + 1)) ++ "/" ++ ReportName.format "app" id :=
    Layout.reportPath_eq (l := .under "app" _) (by show '/' ∉ "app".toList; decide)
      (Layout.directory_under "app" _) id
  rw [hpath]
  refine ⟨?_, ?_⟩
  · rw [String.toList_append, String.toList_append, ReportName.format_toList]
    simp only [List.mem_append, not_or]
    exact ⟨⟨nul_not_mem_dwelling n, by decide⟩, by decide,
      ReportName.nul_not_mem_behind id⟩
  · rw [String.utf8ByteSize_append, String.utf8ByteSize_append, ReportName.utf8ByteSize_format,
      utf8ByteSize_reportsDirectory_dwelling]
    have hsizes : "/".utf8ByteSize = 1 ∧ "app".utf8ByteSize = 3 := by decide
    omega

theorem perform_serve_read_of_long (hl : s.layout = some l)
    (hlong : '\x00' ∉ (l.reportPath id).toList ∧
      Disk.greatestPath < (l.reportPath id).utf8ByteSize) (log : Log) :
    (serve bundleId basePath (.read id)).perform s log =
      ((.error (.file .read (l.reportPath id) .nameTooLong), s), log) :=
  Action.perform_bind_error (perform_read_of_long hl hlong log)

/-- What a store answers to a request after it has been installed is what a map would answer. -/
theorem answers_of_installed {request : StoreRequest} {r : Except StoreFault StoreAnswer}
    {s₁ s₂ : FileStore} {log₁ log₂ : Log} {m m' : Shelf}
    (hinstall : (serve bundleId basePath .install).perform s log = ((.ok .done, s₁), log₁))
    (hrequest : (serve bundleId basePath request).perform s₁ log₁ = ((r, s₂), log₂))
    (h : m.AnswersEach [.install, request]
      (serveEach bundleId basePath [.install, request] s log).1 m') :
    Shelf.Answers ⟨true, m.records⟩ request r m' := by
  rw [serveEach, hinstall] at h
  dsimp only at h
  rw [serveEach, hrequest] at h
  cases h with
  | cons hfirst hrest =>
      cases hfirst with
      | install =>
          cases hrest with
          | cons hsecond hnil =>
              cases hnil
              exact hsecond

theorem winding_not_map :
    ¬ ∃ m, Shelf.AnswersEach ⟨false, (Layout.under "app" winding).records ⟨[], []⟩⟩
      [.install, .ids] (serveEach "app" winding [.install, .ids] ⟨none, ⟨[], []⟩⟩ []).1 m := by
  rintro ⟨m, h⟩
  let disk : Disk := ⟨[(["Reports", "app-report-0000000000000001.json"], .directory),
    (["Reports"], .directory)], []⟩
  obtain ⟨log₁, hinstall⟩ : ∃ log₁, (serve "app" winding .install).perform ⟨none, ⟨[], []⟩⟩ [] =
      ((.ok .done, ⟨some (.under "app" winding), disk⟩), log₁) := ⟨_, rfl⟩
  have hlist : disk.list (Layout.under "app" winding).directory =
      .ok ["app-report-0000000000000001.json"] := rfl
  have hone : idsOf "app" ["app-report-0000000000000001.json"] = [1] :=
    List.mergeSort_singleton _
  obtain ⟨log₂, hids⟩ := perform_ids_of_list
    (s := ⟨some (.under "app" winding), disk⟩) rfl hlist log₁
  have hanswer := answers_of_installed hinstall (Action.perform_bind_ok hids) h
  rw [show idsOf (Layout.under "app" winding).bundleId _ = [1] from hone] at hanswer
  -- the map has no record
  have hnone : (Layout.under "app" winding).records ⟨[], []⟩ 1 = none := rfl
  cases hanswer with
  | ids hkeys =>
      obtain ⟨content, hrecord⟩ := (hkeys.2 1).mp (List.mem_singleton.mpr rfl)
      cases hnone.symm.trans hrecord

theorem dwelling_not_map {n : Nat} (hdirectory : 2 * (n + 1) + 7 ≤ Disk.greatestPath)
    (hreport : Disk.greatestPath < 2 * (n + 1) + 40) :
    ¬ ∃ m, Shelf.AnswersEach ⟨false, (Layout.under "app" (dwelling (n + 1))).records ⟨[], []⟩⟩
      [.install, .read 1]
      (serveEach "app" (dwelling (n + 1)) [.install, .read 1] ⟨none, ⟨[], []⟩⟩ []).1 m := by
  rintro ⟨m, h⟩
  obtain ⟨disk, log₁, hinstall⟩ := perform_install_dwelling hdirectory []
  have hread : (serve "app" (dwelling (n + 1)) (.read 1)).perform
      ⟨some (.under "app" (dwelling (n + 1))), disk⟩ log₁ = _ :=
    perform_serve_read_of_long rfl (reportPath_dwelling_long hreport) log₁
  cases (answers_of_installed hinstall hread h).read_eq

/-- Under the one a directory is listed as a report though no record was there, under the other there
is no reading though the store is installed. -/
theorem winding_dwelling_not_map :
    ((Layout.under "app" winding).Orderly ⟨[], []⟩ ∧
      ¬ ∃ m, Shelf.AnswersEach ⟨false, (Layout.under "app" winding).records ⟨[], []⟩⟩
        [.install, .ids] (serveEach "app" winding [.install, .ids] ⟨none, ⟨[], []⟩⟩ []).1 m) ∧
    (Layout.under "app" (dwelling (2029 + 1))).Orderly ⟨[], []⟩ ∧
      ¬ ∃ m, Shelf.AnswersEach
        ⟨false, (Layout.under "app" (dwelling (2029 + 1))).records ⟨[], []⟩⟩ [.install, .read 1]
        (serveEach "app" (dwelling (2029 + 1)) [.install, .read 1] ⟨none, ⟨[], []⟩⟩ []).1 m :=
  ⟨⟨by decide, winding_not_map⟩, by decide, dwelling_not_map (by decide) (by decide)⟩

end Requests

end FileStore

end CrashCourier
