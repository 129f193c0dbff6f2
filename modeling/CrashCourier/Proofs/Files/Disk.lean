import CrashCourier.Files.Disk

/-!
# Taking one file away

What a disk without one of its files still shows. Following a path reads directories only, so a path
that led somewhere leads there still, and at every other place there stands what stood there.

* A path that ends in a name goes through a directory, and only its last step knows the name
  (`follow_concat`).
* The names in one directory are apart: taking one file of it away changes what the path to another
  finds in no way (`locatePath_erase_sibling`).
-/

namespace CrashCourier

section Bindings

variable {κ α : Type} [BEq κ] [LawfulBEq κ] [DecidableEq κ]

theorem lookup_cons_eq_ite (head : κ × α) (bindings : List (κ × α)) (key : κ) :
    (head :: bindings).lookup key = if key = head.1 then some head.2 else bindings.lookup key := by
  rw [List.lookup_cons]
  by_cases hkey : key = head.1
  · simp [hkey]
  · have hne : (key == head.1) = false := beq_eq_false_iff_ne.mpr hkey
    simp [hkey, hne]

/-- What is bound to a key once all bindings of another are dropped. -/
theorem lookup_filter_ne (bindings : List (κ × α)) (dropped key : κ) :
    (bindings.filter (·.1 ≠ dropped)).lookup key =
      if key = dropped then none else bindings.lookup key := by
  induction bindings with
  | nil => simp
  | cons head rest ih =>
      rw [lookup_cons_eq_ite]
      by_cases hhead : head.1 = dropped
      · rw [List.filter_cons_of_neg (by simpa using hhead), ih]
        by_cases hkey : key = dropped
        · rw [if_pos hkey, if_pos hkey]
        · rw [if_neg hkey, if_neg hkey, if_neg (hhead ▸ hkey)]
      · rw [List.filter_cons_of_pos (by simpa using hhead), lookup_cons_eq_ite, ih]
        by_cases hkey : key = head.1
        · rw [if_pos hkey, if_pos hkey, if_neg (hkey ▸ hhead)]
        · rw [if_neg hkey, if_neg hkey]

end Bindings

namespace Files.Disk

variable {disk : Disk} {place q : Place}

/-! ## What stands where -/

theorem get?_nil (disk : Disk) : disk.get? [] = some .directory := rfl

theorem ne_nil_of_file {content : Bytes} (h : disk.get? q = some (.file content)) : q ≠ [] := by
  intro hnil
  rw [hnil, get?_nil] at h
  cases h

theorem get?_erase_self (hq : q ≠ []) : (disk.erase q).get? q = none := by
  unfold get? erase
  rw [if_neg hq, lookup_filter_ne, if_pos rfl]

theorem get?_erase_of_ne (h : place ≠ q) : (disk.erase q).get? place = disk.get? place := by
  unfold get? erase
  rw [lookup_filter_ne, if_neg h]

/-- A directory is not what was taken away. -/
theorem get?_erase_of_directory {content : Bytes} (hq : disk.get? q = some (.file content))
    (h : disk.get? place = some .directory) : (disk.erase q).get? place = some .directory := by
  have hne : place ≠ q := by
    intro heq
    rw [heq, hq] at h
    cases h
  rw [get?_erase_of_ne hne, h]

/-! ## Following -/

/-- What following a path to its end has gone through at its first name. -/
theorem directory_of_follow_cons {name : String} {rest : List String} {d : Place}
    (h : disk.follow place (name :: rest) = .ok d) : disk.get? place = some .directory := by
  unfold follow at h
  cases hget : disk.get? place with
  | none =>
      rw [hget] at h
      cases h
  | some entry =>
      cases entry with
      | directory => rfl
      | file content =>
          rw [hget] at h
          cases h

/-- The first step of a path, out of a directory. -/
theorem follow_cons {name : String} {rest : List String} (h : disk.get? place = some .directory) :
    disk.follow place (name :: rest) =
      if name = ".." then disk.follow place.dropLast rest
      else if greatestName < name.utf8ByteSize then .error .nameTooLong
      else disk.follow (place ++ [name]) rest := by
  rw [follow, h]
  rfl

/-- A path that ends in a name goes to a directory and from there to the name. -/
theorem follow_concat (names : List String) (name : String) (place : Place) :
    disk.follow place (names ++ [name]) =
      (disk.follow place names).bind fun d => disk.follow d [name] := by
  induction names generalizing place with
  | nil => rfl
  | cons first rest ih =>
      rw [List.cons_append]
      cases hget : disk.get? place with
      | none =>
          rw [follow, follow, hget]
          rfl
      | some entry =>
          cases entry with
          | file content =>
              rw [follow, follow, hget]
              rfl
          | directory =>
              rw [follow_cons hget, follow_cons hget]
              by_cases hup : first = ".."
              · rw [if_pos hup, if_pos hup, ih]
              · by_cases hlong : greatestName < first.utf8ByteSize
                · rw [if_neg hup, if_neg hup, if_pos hlong, if_pos hlong]
                  rfl
                · rw [if_neg hup, if_neg hup, if_neg hlong, if_neg hlong, ih]

/-- The last step of a path. -/
theorem follow_singleton {name : String} {d : Place} (hup : name ≠ "..")
    (h : disk.get? d = some .directory) :
    disk.follow d [name] =
      if greatestName < name.utf8ByteSize then .error .nameTooLong else .ok (d ++ [name]) := by
  rw [follow_cons h, if_neg hup]
  rfl

/-- A path that led somewhere leads there without the file. -/
theorem follow_erase {content : Bytes} (hq : disk.get? q = some (.file content))
    {names : List String} {place d : Place} (h : disk.follow place names = .ok d) :
    (disk.erase q).follow place names = .ok d := by
  induction names generalizing place with
  | nil => exact h
  | cons name rest ih =>
      -- what was gone through is a directory, and the file that is gone is none
      have hdir := directory_of_follow_cons h
      rw [follow_cons hdir] at h
      rw [follow_cons (get?_erase_of_directory hq hdir)]
      by_cases hup : name = ".."
      · rw [if_pos hup] at h ⊢
        exact ih h
      · rw [if_neg hup] at h ⊢
        by_cases hlong : greatestName < name.utf8ByteSize
        · rw [if_pos hlong] at h
          cases h
        · rw [if_neg hlong] at h ⊢
          exact ih h

/-! ## Names of one directory -/

section Siblings

variable {absolute : Bool} {directory : List String} {name other : String}

/-- The place of a path that ends in a name is the name in a directory. -/
theorem locatePath_concat (hup : name ≠ "..")
    (h : disk.locatePath ⟨absolute, directory ++ [name]⟩ = .ok q) :
    ∃ d, disk.locatePath ⟨absolute, directory⟩ = .ok d ∧ disk.get? d = some .directory ∧
      q = d ++ [name] := by
  unfold locatePath at h ⊢
  dsimp only at h ⊢
  rw [follow_concat] at h
  cases hd : disk.follow (if absolute then [] else disk.working) directory with
  | error fault =>
      rw [hd] at h
      cases h
  | ok d =>
      rw [hd] at h
      have hdir := directory_of_follow_cons h
      change disk.follow d [name] = .ok q at h
      rw [follow_singleton hup hdir] at h
      by_cases hlong : greatestName < name.utf8ByteSize
      · rw [if_pos hlong] at h
        cases h
      · rw [if_neg hlong] at h
        exact ⟨d, rfl, hdir, (Except.ok.inj h).symm⟩

/-- The path to the file leads where it led. -/
theorem locatePath_erase {content : Bytes} {path : Path} (hq : disk.get? q = some (.file content))
    (h : disk.locatePath path = .ok place) : (disk.erase q).locatePath path = .ok place :=
  follow_erase hq h

/-- So does the path to any other name in its directory, and if it led nowhere it does so still. -/
theorem locatePath_erase_sibling {content : Bytes} (hq : disk.get? q = some (.file content))
    (hup : name ≠ "..") (hup' : other ≠ "..") (hne : other ≠ name)
    (h : disk.locatePath ⟨absolute, directory ++ [name]⟩ = .ok q) :
    (disk.erase q).locatePath ⟨absolute, directory ++ [other]⟩ =
        disk.locatePath ⟨absolute, directory ++ [other]⟩ ∧
      disk.locatePath ⟨absolute, directory ++ [other]⟩ ≠ .ok q := by
  obtain ⟨d, hd, hdir, rfl⟩ := locatePath_concat hup h
  have hd' := locatePath_erase hq hd
  have hdir' := get?_erase_of_directory hq hdir
  unfold locatePath at hd hd' ⊢
  dsimp only at hd hd' ⊢
  -- up to the last step the two paths are one, with the file and without it
  rw [follow_concat, follow_concat, hd, hd']
  show (disk.erase (d ++ [name])).follow d [other] = disk.follow d [other] ∧
    disk.follow d [other] ≠ .ok (d ++ [name])
  rw [follow_singleton hup' hdir, follow_singleton hup' hdir']
  refine ⟨rfl, fun heq => ?_⟩
  by_cases hlong : greatestName < other.utf8ByteSize
  · rw [if_pos hlong] at heq
    cases heq
  · rw [if_neg hlong] at heq
    have hlast := List.append_cancel_left (Except.ok.inj heq)
    exact hne (List.singleton_inj.mp hlast)

end Siblings

/-! ## Reading, writing and removing -/

theorem locatePath_of_locate {text : String} (h : disk.locate text = .ok place) :
    disk.locatePath (.ofText text) = .ok place := by
  unfold locate at h
  by_cases hnul : text.toList.contains '\x00'
  · rw [if_pos hnul] at h
    cases h
  · by_cases hlong : greatestPath < text.utf8ByteSize
    · rw [if_neg hnul, if_pos hlong] at h
      cases h
    · by_cases hempty : text = ""
      · rw [if_neg hnul, if_neg hlong, if_pos hempty] at h
        cases h
      · rwa [if_neg hnul, if_neg hlong, if_neg hempty] at h

theorem locate_congr {disk' : Disk} {text : String}
    (h : disk'.locatePath (.ofText text) = disk.locatePath (.ofText text)) :
    disk'.locate text = disk.locate text := by
  unfold locate
  rw [h]

theorem read_of_locate {text : String} (h : disk.locate text = .ok place) :
    disk.read text = match disk.get? place with
      | none => .error .notFound
      | some .directory => .error .isDirectory
      | some (.file content) =>
        if saysDirectory text then .error .notDirectory else .ok content := by
  unfold read
  rw [h]
  rfl

theorem read_of_locate_error {text : String} {fault : Fault} (h : disk.locate text = .error fault) :
    disk.read text = .error fault := by
  unfold read
  rw [h]
  rfl

theorem remove_of_locate {text : String} (h : disk.locate text = .ok place) :
    disk.remove text = match disk.get? place with
      | none => .error .notFound
      | some .directory => .error .isDirectory
      | some (.file _) =>
        if saysDirectory text then .error .notDirectory else .ok (disk.erase place) := by
  unfold remove
  rw [h]
  rfl

theorem remove_of_locate_error {text : String} {fault : Fault}
    (h : disk.locate text = .error fault) : disk.remove text = .error fault := by
  unfold remove
  rw [h]
  rfl

theorem write_of_locate {text : String} (h : disk.locate text = .ok place) (content : Bytes) :
    disk.write text content =
      if disk.get? place = some .directory ∨ saysDirectory text then .error .isDirectory
      else .ok (disk.set place (.file content)) := by
  unfold write
  rw [h]
  rfl

theorem write_of_locate_error {text : String} {fault : Fault} (h : disk.locate text = .error fault)
    (content : Bytes) : disk.write text content = .error fault := by
  unfold write
  rw [h]
  rfl

/-- Reading asks the disk for the place and for what stands there. -/
theorem read_congr {disk' : Disk} {text : String} (hlocate : disk'.locate text = disk.locate text)
    (hget : ∀ place, disk.locate text = .ok place → disk'.get? place = disk.get? place) :
    disk'.read text = disk.read text := by
  cases hl : disk.locate text with
  | error fault => rw [read_of_locate_error hl, read_of_locate_error (hlocate.trans hl)]
  | ok place => rw [read_of_locate hl, read_of_locate (hlocate.trans hl), hget place hl]

/-- What was removed is a file, and it alone is gone. -/
theorem remove_eq_ok {disk' : Disk} {text : String} (h : disk.remove text = .ok disk') :
    ∃ q content, disk.locate text = .ok q ∧ disk.get? q = some (.file content) ∧
      disk' = disk.erase q := by
  cases hl : disk.locate text with
  | error fault =>
      rw [remove_of_locate_error hl] at h
      cases h
  | ok q =>
      rw [remove_of_locate hl] at h
      cases hget : disk.get? q with
      | none =>
          rw [hget] at h
          cases h
      | some entry =>
          rw [hget] at h
          cases entry with
          | directory => cases h
          | file content =>
              by_cases hsays : saysDirectory text
              · simp only [if_pos hsays] at h
                cases h
              · simp only [if_neg hsays] at h
                exact ⟨q, content, rfl, hget, (Except.ok.inj h).symm⟩

/-- Nothing is found to remove where the path leads nowhere or nothing stands. -/
theorem remove_eq_notFound {text : String} (h : disk.remove text = .error .notFound) :
    disk.locate text = .error .notFound ∨ ∃ q, disk.locate text = .ok q ∧ disk.get? q = none := by
  cases hl : disk.locate text with
  | error fault =>
      rw [remove_of_locate_error hl] at h
      exact .inl (by rw [Except.error.inj h])
  | ok q =>
      rw [remove_of_locate hl] at h
      refine .inr ⟨q, rfl, ?_⟩
      cases hget : disk.get? q with
      | none => rfl
      | some entry =>
          rw [hget] at h
          cases entry with
          | directory => cases h
          | file content =>
              by_cases hsays : saysDirectory text
              · simp only [if_pos hsays] at h
                cases h
              · simp only [if_neg hsays] at h
                cases h

/-- There is nothing to read where there is nothing to remove. -/
theorem read_of_remove_notFound {text : String} (h : disk.remove text = .error .notFound) :
    disk.read text = .error .notFound := by
  rcases remove_eq_notFound h with hl | ⟨q, hl, hnone⟩
  · exact read_of_locate_error hl
  · rw [read_of_locate hl, hnone]

/-- What was removed is not found any more. -/
theorem read_erase_self {text : String} {content : Bytes} (hl : disk.locate text = .ok q)
    (hq : disk.get? q = some (.file content)) : (disk.erase q).read text = .error .notFound := by
  have hpath := locatePath_of_locate hl
  have hsame := locate_congr ((locatePath_erase hq hpath).trans hpath.symm)
  rw [read_of_locate (hsame.trans hl), get?_erase_self (ne_nil_of_file hq)]

end Files.Disk

end CrashCourier
