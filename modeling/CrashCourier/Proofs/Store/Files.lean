import CrashCourier.Proofs.Delivery.Records
import CrashCourier.Proofs.Files.Disk
import CrashCourier.Proofs.Store.ReportName
import CrashCourier.Store.FileStore

/-!
# The store of files keeps its records

A store of files shows a record for each number under which a report file can be read. The files of
one store are all in one directory, whatever the layout is: the path of a report is made of a stem,
which is the same for all numbers, and of what is behind the bundle in the name of the report, where
there is no slash. So two numbers have two names in one directory, and erasing the file of the one
leaves the other as it was.

A layout is not asked to make sense. A bundle or a directory may hold slashes, dots or anything else,
and a path may lead nowhere, so long as it leads there for all numbers alike.
-/

namespace CrashCourier

/-! ## The path of a report -/

namespace Files

/-- A text that ends without a slash is taken apart like its beginning, but for the last name. -/
theorem exists_splitOn_append (stem : List Char) :
    ∃ init last, ∀ tail, '/' ∉ tail → (stem ++ tail).splitOn '/' = init ++ [last ++ tail] := by
  induction stem with
  | nil => exact ⟨[], [], fun tail h => List.splitOn_eq_singleton h⟩
  | cons c stem ih =>
      obtain ⟨init, last, hsplit⟩ := ih
      by_cases hc : c = '/'
      · refine ⟨[] :: init, last, fun tail h => ?_⟩
        rw [List.cons_append, List.splitOn_cons_eq_if_modifyHead, if_pos (by simpa using hc),
          hsplit tail h]
        rfl
      · cases init with
        | nil =>
            refine ⟨[], c :: last, fun tail h => ?_⟩
            rw [List.cons_append, List.splitOn_cons_eq_if_modifyHead, if_neg (by simpa using hc),
              hsplit tail h]
            rfl
        | cons first init =>
            refine ⟨(c :: first) :: init, last, fun tail h => ?_⟩
            rw [List.cons_append, List.splitOn_cons_eq_if_modifyHead, if_neg (by simpa using hc),
              hsplit tail h]
            rfl

/-- A joined path is the joined beginning with the rest of the name. -/
theorem exists_join_append (base : String) (start : List Char) (c : Char) :
    ∃ stem, ∀ rest, (join base (String.ofList (start ++ c :: rest))).toList =
      stem ++ c :: rest := by
  have habs : ∀ rest, isAbsolute (String.ofList (start ++ c :: rest)) =
      isAbsolute (String.ofList (start ++ [c])) := by
    intro rest
    unfold isAbsolute
    cases start with
    | nil => simp
    | cons _ _ => simp
  by_cases hwhole : isAbsolute (String.ofList (start ++ [c])) ∨ base.isEmpty
  · refine ⟨start, fun rest => ?_⟩
    unfold join
    rw [habs, if_pos hwhole, String.toList_ofList]
  · by_cases hslash : base.toList.getLast? = some '/'
    · refine ⟨base.toList ++ start, fun rest => ?_⟩
      unfold join
      rw [habs, if_neg hwhole, if_pos hslash, String.toList_append, String.toList_ofList,
        List.append_assoc]
    · refine ⟨base.toList ++ '/' :: start, fun rest => ?_⟩
      unfold join
      rw [habs, if_neg hwhole, if_neg hslash, String.toList_append, String.toList_append,
        String.toList_ofList]
      simp

end Files

namespace Layout

open Files

theorem exists_reportPath (l : Layout) :
    ∃ stem, ∀ id, (l.reportPath id).toList = stem ++ ReportName.behind id := by
  obtain ⟨stem, hstem⟩ := exists_join_append l.directory l.bundleId.toList '-'
  refine ⟨stem, fun id => ?_⟩
  obtain ⟨rest, hrest⟩ := ReportName.behind_eq_cons id
  have hname : ReportName.format l.bundleId id =
      String.ofList (l.bundleId.toList ++ '-' :: rest) := by
    rw [← hrest, ← ReportName.format_toList, String.ofList_toList]
  unfold reportPath
  rw [hname, hstem, hrest]

/-- A name that ends like that of a report is a name, and not a way to a directory. -/
theorem ofList_behind_ne {last : List Char} {text : String} (h : '-' ∉ text.toList) (id : Int64) :
    String.ofList (last ++ ReportName.behind id) ≠ text := by
  intro heq
  obtain ⟨rest, hrest⟩ := ReportName.behind_eq_cons id
  rw [← heq, String.toList_ofList, hrest] at h
  exact h (by simp)

/-- **The reports of a layout are names in one directory**, and two numbers have two of them. -/
theorem exists_ofText_reportPath (l : Layout) :
    ∃ absolute directory, ∃ name : Int64 → String,
      (∀ id, Path.ofText (l.reportPath id) = ⟨absolute, directory ++ [name id]⟩) ∧
      (∀ id, name id ≠ "..") ∧ ∀ id id', name id = name id' → id = id' := by
  obtain ⟨stem, hstem⟩ := l.exists_reportPath
  obtain ⟨init, last, hsplit⟩ := exists_splitOn_append stem
  refine ⟨(stem ++ ['-']).head? == some '/',
    (init.map String.ofList).filter fun name => name ≠ "" && name ≠ ".",
    fun id => String.ofList (last ++ ReportName.behind id), ?_, ?_, ?_⟩
  · intro id
    have hempty : String.ofList (last ++ ReportName.behind id) ≠ "" :=
      ofList_behind_ne (by decide) id
    have hdot : String.ofList (last ++ ReportName.behind id) ≠ "." :=
      ofList_behind_ne (by decide) id
    -- the stem may be empty, and then the dash is what the path begins with
    obtain ⟨rest, hrest⟩ := ReportName.behind_eq_cons id
    have habs : (stem ++ ReportName.behind id).head? = (stem ++ ['-']).head? := by
      rw [hrest]
      cases stem with
      | nil => rfl
      | cons _ _ => rfl
    unfold Path.ofText isAbsolute
    rw [hstem, habs, hsplit _ (ReportName.slash_not_mem_behind id), List.map_append,
      List.filter_append, List.map_singleton,
      List.filter_cons_of_pos (by simp only [ne_eq, hempty, hdot]; decide), List.filter_nil]
  · intro id
    exact ofList_behind_ne (by decide) id
  · intro id id' heq
    exact ReportName.behind_injective (List.append_cancel_left (String.ofList_injective heq))

/-- Removing the file of one report leaves the files of the others readable as they were. -/
theorem read_erase_of_ne (l : Layout) {disk : Disk} {q : Place} {content : Bytes} {id id' : Int64}
    (hl : disk.locate (l.reportPath id) = .ok q) (hq : disk.get? q = some (.file content))
    (hne : id' ≠ id) :
    (disk.erase q).read (l.reportPath id') = disk.read (l.reportPath id') := by
  obtain ⟨absolute, directory, name, hpath, hup, hinj⟩ := l.exists_ofText_reportPath
  have hplace := Disk.locatePath_of_locate hl
  rw [hpath] at hplace
  -- both paths go through one directory and differ in the last name
  have hnames : name id' ≠ name id := fun heq => hne (hinj _ _ heq)
  obtain ⟨hsame, haway⟩ := Disk.locatePath_erase_sibling hq (hup id) (hup id') hnames hplace
  rw [← hpath] at hsame haway
  refine Disk.read_congr (Disk.locate_congr hsame) fun place hl' => ?_
  have hplace' := Disk.locatePath_of_locate hl'
  exact Disk.get?_erase_of_ne fun heq => haway (heq ▸ hplace')

end Layout

/-! ## The records of a store -/

namespace FileStore

open Files

/-- The records of a store of files: what can be read of the reports of its layout. -/
def view (s : FileStore) : Records := fun id =>
  s.layout.bind fun l => (s.disk.read (l.reportPath id)).toOption

theorem view_of_layout {s : FileStore} {l : Layout} (h : s.layout = some l) (id : Int64) :
    s.view id = (s.disk.read (l.reportPath id)).toOption := by
  unfold view
  rw [h, Option.bind_some]

theorem perform_installed {s : FileStore} {l : Layout} (h : s.layout = some l) (log : Log) :
    installed.perform s log = ((.ok l, s), log) := by
  unfold installed
  rw [Action.perform_bind_ok (Action.perform_get s log), h]
  rfl

theorem perform_not_installed {s : FileStore} (h : s.layout = none) (log : Log) :
    installed.perform s log = ((.error .notInstalled, s), log) := by
  unfold installed
  rw [Action.perform_bind_ok (Action.perform_get s log), h]
  rfl

/-- A store that is told where it is gives its layout, and any other fails; both stay as they are. -/
theorem perform_installed_cases {α : Type} {f : Layout → Work α} {s s' : FileStore} {log log' : Log}
    {r : Except StoreFault α} (h : (installed >>= f).perform s log = ((r, s'), log')) :
    (∃ l, s.layout = some l ∧ (f l).perform s log = ((r, s'), log')) ∨
      s' = s ∧ ∃ fault, r = .error fault := by
  cases hlayout : s.layout with
  | none =>
      rw [Action.perform_bind_error (perform_not_installed hlayout log)] at h
      injection h with h _
      injection h with hr hs
      exact .inr ⟨hs.symm, _, hr.symm⟩
  | some l =>
      rw [Action.perform_bind_ok (perform_installed hlayout log)] at h
      exact .inl ⟨l, rfl, h⟩

theorem perform_ids {s s' : FileStore} {log log' : Log} {r : Except StoreFault (List Int64)}
    (h : ids.perform s log = ((r, s'), log')) : s' = s := by
  rcases perform_installed_cases h with ⟨l, _, h⟩ | ⟨hs, _⟩
  · rw [Action.perform_bind_ok (Action.perform_get s log)] at h
    cases hlist : s.disk.list l.directory with
    | error fault =>
        rw [hlist] at h
        -- a directory that is not there is listed as empty; any other fault is one of the store
        cases fault with
        | notFound => exact (Prod.mk.inj (Prod.mk.inj h).1).2.symm
        | _ => exact (Prod.mk.inj (Prod.mk.inj h).1).2.symm
    | ok names =>
        rw [hlist] at h
        exact (Prod.mk.inj (Prod.mk.inj h).1).2.symm
  · exact hs

/-- What is listed of a directory that is there. -/
theorem perform_ids_of_list {s : FileStore} {l : Layout} {names : List String}
    (hl : s.layout = some l) (hlist : s.disk.list l.directory = .ok names) (log : Log) :
    ∃ log', ids.perform s log = ((.ok (idsOf l.bundleId names), s), log') := by
  unfold ids
  rw [Action.perform_bind_ok (perform_installed hl log),
    Action.perform_bind_ok (Action.perform_get s log), hlist]
  exact ⟨_, rfl⟩

theorem perform_read {id : Int64} {s s' : FileStore} {log log' : Log}
    {r : Except StoreFault (Option Bytes)} (h : (read id).perform s log = ((r, s'), log')) :
    s' = s ∧ ∀ found, r = .ok found → found = s.view id := by
  rcases perform_installed_cases h with ⟨l, hl, h⟩ | ⟨hs, fault, hr⟩
  · rw [Action.perform_bind_ok (Action.perform_get s log)] at h
    rw [view_of_layout hl]
    cases hread : s.disk.read (l.reportPath id) with
    | error fault =>
        rw [hread] at h
        cases fault with
        | notFound =>
            obtain ⟨hr, hs⟩ := Prod.mk.inj (Prod.mk.inj h).1
            exact ⟨hs.symm, fun found hfound => Except.ok.inj (hfound.symm.trans hr.symm)⟩
        | _ =>
            obtain ⟨hr, hs⟩ := Prod.mk.inj (Prod.mk.inj h).1
            exact ⟨hs.symm, fun found hfound => nomatch hr.trans hfound⟩
    | ok content =>
        rw [hread] at h
        obtain ⟨hr, hs⟩ := Prod.mk.inj (Prod.mk.inj h).1
        exact ⟨hs.symm, fun found hfound => Except.ok.inj (hfound.symm.trans hr.symm)⟩
  · exact ⟨hs, fun found hfound => nomatch hr.symm.trans hfound⟩

theorem perform_delete_of_remove {s : FileStore} {l : Layout} {disk : Disk} {id : Int64}
    (hl : s.layout = some l) (h : s.disk.remove (l.reportPath id) = .ok disk) (log : Log) :
    ∃ log', (delete id).perform s log = ((.ok (), { s with disk }), log') := by
  unfold delete
  rw [Action.perform_bind_ok (perform_installed hl log),
    Action.perform_bind_ok (Action.perform_get s log), h]
  exact ⟨_, rfl⟩

theorem perform_delete_of_notFound {s : FileStore} {l : Layout} {id : Int64}
    (hl : s.layout = some l) (h : s.disk.remove (l.reportPath id) = .error .notFound) (log : Log) :
    (delete id).perform s log = ((.ok (), s), log) := by
  unfold delete
  rw [Action.perform_bind_ok (perform_installed hl log),
    Action.perform_bind_ok (Action.perform_get s log), h]
  rfl

/-- Erasing removes a file, finds none, or fails where it is. -/
theorem perform_delete_cases {l : Layout} {id : Int64} {s s' : FileStore} {log log' : Log}
    {r : Except StoreFault Unit} (hl : s.layout = some l)
    (h : (delete id).perform s log = ((r, s'), log')) :
    (∃ disk, s.disk.remove (l.reportPath id) = .ok disk ∧ r = .ok () ∧ s' = { s with disk }) ∨
      (s.disk.remove (l.reportPath id) = .error .notFound ∧ r = .ok () ∧ s' = s) ∨
      ∃ fault, r = .error fault ∧ s' = s := by
  cases hremove : s.disk.remove (l.reportPath id) with
  | ok disk =>
      obtain ⟨log₁, hdelete⟩ := perform_delete_of_remove hl hremove log
      obtain ⟨hr, hs⟩ := Prod.mk.inj (Prod.mk.inj (hdelete.symm.trans h)).1
      exact .inl ⟨disk, rfl, hr.symm, hs.symm⟩
  | error fault =>
      unfold delete at h
      rw [Action.perform_bind_ok (perform_installed hl log),
        Action.perform_bind_ok (Action.perform_get s log), hremove] at h
      cases fault with
      | notFound =>
          obtain ⟨hr, hs⟩ := Prod.mk.inj (Prod.mk.inj h).1
          exact .inr (.inl ⟨rfl, hr.symm, hs.symm⟩)
      | _ =>
          obtain ⟨hr, hs⟩ := Prod.mk.inj (Prod.mk.inj h).1
          exact .inr (.inr ⟨_, hr.symm, hs.symm⟩)

/-- Erasing takes the record of its number away, or it fails where it is. -/
theorem perform_delete {id : Int64} {s s' : FileStore} {log log' : Log} {r : Except StoreFault Unit}
    (h : (delete id).perform s log = ((r, s'), log')) :
    r = .ok () ∧ s'.view = s.view.without [id] ∨ s' = s ∧ ∃ fault, r = .error fault := by
  cases hl : s.layout with
  | none =>
      unfold delete at h
      rw [Action.perform_bind_error (perform_not_installed hl log)] at h
      obtain ⟨hr, hs⟩ := Prod.mk.inj (Prod.mk.inj h).1
      exact .inr ⟨hs.symm, _, hr.symm⟩
  | some l =>
      rcases perform_delete_cases hl h with
        ⟨disk, hremove, hr, rfl⟩ | ⟨hremove, hr, rfl⟩ | ⟨fault, hr, hs⟩
      · obtain ⟨q, content, hlocate, hq, rfl⟩ := Disk.remove_eq_ok hremove
        refine .inl ⟨hr, funext fun id' => ?_⟩
        rw [view_of_layout (s := { s with disk := s.disk.erase q }) hl, Records.without_apply]
        by_cases hid : id' = id
        · rw [if_pos (List.mem_singleton.mpr hid), hid, Disk.read_erase_self hlocate hq]
          rfl
        · rw [if_neg (by simpa using hid), l.read_erase_of_ne hlocate hq hid, view_of_layout hl]
      · refine .inl ⟨hr, ?_⟩
        -- there was no file, and so there was no record either
        rw [Records.without_singleton_of_none]
        rw [view_of_layout hl, Disk.read_of_remove_notFound hremove]
        rfl
      · exact .inr ⟨hs, fault, hr⟩

/-- **The store of files keeps its records.** -/
theorem keeps : ReportStore.files.Keeps view where
  ids := by
    intro s s' log log' r h
    change FileStore.ids.perform s log = _ at h
    rw [perform_ids h]
  read := by
    intro id s s' log log' r h
    change (FileStore.read id).perform s log = _ at h
    obtain ⟨hs, hfound⟩ := perform_read h
    exact ⟨by rw [hs], hfound⟩
  delete := by
    intro id s s' log log' h
    change (FileStore.delete id).perform s log = _ at h
    rcases perform_delete h with ⟨_, hview⟩ | ⟨_, fault, hr⟩
    · exact hview
    · cases hr
  delete_error := by
    intro id s s' log log' fault h
    change (FileStore.delete id).perform s log = _ at h
    rcases perform_delete h with ⟨hr, _⟩ | ⟨hs, _⟩
    · cases hr
    · rw [hs]

end FileStore

end CrashCourier
