import CrashCourier.Proofs.Http.Multipart
import Mathlib.Data.List.Forall2

/-!
# A form of files and named values read back

A form is read by the boundary that its header announces. It gives the files and then the named values
if two dashes and the boundary stand nowhere in what it carries.

This asks more than it has to: the boundary counts only as a line of its own. But it can be checked by
a search, and it rules out every line at once, because the lines of a content are pieces of it
(`infix_of_mem_lines`). Where a content ends makes no difference. A carriage return or a dash at its
end stays in its last line, and the end of the line that is written behind it is the first one there.
-/

namespace CrashCourier.Http.Multipart

variable {boundary key name : String} {content : Bytes}

/-! ## The boundary in a content -/

theorem infix_unlines {line : Bytes} {ls : List Bytes} (h : line ∈ ls) : line <:+: unlines ls := by
  induction ls with
  | nil => cases h
  | cons l ls ih =>
      cases ls with
      | nil =>
          rw [List.mem_singleton.mp h]
          simp [unlines, List.intercalate]
      | cons l' ls =>
          rw [unlines_cons_cons]
          rcases List.mem_cons.mp h with rfl | h
          · exact (List.prefix_append _ _).isInfix
          · exact (ih h).trans ((List.suffix_append _ _).trans (List.suffix_append _ _)).isInfix

/-- A line of a text is a piece of it. -/
theorem infix_of_mem_lines {line : Bytes} (h : line ∈ lines content) : line <:+: content := by
  have hinfix := infix_unlines h
  rw [unlines_lines] at hinfix
  exact hinfix

/-- What stands around the parts begins with two dashes and the boundary. -/
theorem IsFrame.contains_boundary {line : Bytes} (h : IsFrame boundary line) :
    octets ("--" ++ boundary) <:+: line := by
  rcases h with rfl | rfl
  · exact List.infix_refl _
  · rw [octets_append ("--" ++ boundary)]
    exact (List.prefix_append _ _).isInfix

/-- A content without the boundary has no line that stands around parts. -/
theorem not_isFrame_of_not_infix (h : ¬ octets ("--" ++ boundary) <:+: content) :
    ∀ line ∈ lines content, ¬ IsFrame boundary line := by
  intro line hline hframe
  exact h (hframe.contains_boundary.trans (infix_of_mem_lines hline))

/-! ## Named values -/

/-- A named value as it is received. -/
def Received.field (name : String) (value : Json.Value) : Received :=
  ⟨octets name, none, fieldValue value⟩

/-- The header of a named value says its name and no name of a file. -/
theorem disposition?_field (hname : Quotable name) :
    disposition? (octets ("Content-Disposition: form-data; name=\"" ++ name ++ "\"")) =
      some (octets name, none) := by
  have hheader : octets ("Content-Disposition: form-data; name=\"" ++ name ++ "\"") =
      octets "Content-Disposition: form-data; name=\"" ++ (octets name ++ [0x22]) := by
    simp only [octets_append, List.append_assoc]
    rfl
  have hrest : (octets "Content-Disposition: form-data; name=\"").isPrefixOf?
      (octets "Content-Disposition: form-data; name=\"" ++ (octets name ++ [0x22])) = some _ :=
    List.isPrefixOf?_eq_some_iff_append_eq.mpr rfl
  unfold disposition?
  rw [hheader, hrest, Option.bind_eq_bind, Option.bind_some, quoted?_append hname.octets]
  rfl

theorem Part.Clear.fieldPart (hname : Quotable name) {value : Json.Value}
    (hvalue : ∀ line ∈ lines (fieldValue value), ¬ IsFrame boundary line) :
    (fieldPart name value).Clear boundary := by
  refine .of_headers ?_ ?_ hvalue
  · intro h hh
    rw [List.mem_singleton.mp hh]
    simp only [String.toList_append, List.mem_append, not_or]
    exact ⟨⟨by decide, fun h => (hname _ h).2.2.1 rfl⟩, by decide⟩
  · intro h hh
    rw [List.mem_singleton.mp hh]
    simp only [octets_append, List.append_assoc]
    rfl

theorem received?_fieldPart (hname : Quotable name) {value : Json.Value}
    (hvalue : ∀ line ∈ lines (fieldValue value), ¬ IsFrame boundary line) :
    received? (fieldPart name value).section = some (.field name value) := by
  rw [(Part.Clear.fieldPart hname hvalue).received?_section]
  have hheader : ((fieldPart name value).headers.map octets).findSome? disposition? =
      some (octets name, none) := by
    rw [fieldPart, List.map_singleton, List.findSome?_singleton]
    exact disposition?_field hname
  rw [hheader]
  rfl

/-- The parts of named values, and what is received of them, go together. -/
theorem forall₂_fieldParts {parameters : Json.Members} (hnames : ∀ p ∈ parameters, Quotable p.1)
    (hvalues : ∀ p ∈ parameters, ∀ line ∈ lines (fieldValue p.2), ¬ IsFrame boundary line) :
    (∀ p ∈ parameters.map (fun (name, value) => fieldPart name value), p.Clear boundary) ∧
      List.Forall₂ (fun p r => received? p.section = some r)
        (parameters.map fun (name, value) => fieldPart name value)
        (parameters.map fun (name, value) => .field name value) := by
  refine ⟨?_, ?_⟩
  · intro part hpart
    obtain ⟨p, hp, rfl⟩ := List.mem_map.mp hpart
    exact Part.Clear.fieldPart (hnames p hp) (hvalues p hp)
  · rw [List.forall₂_map_left_iff, List.forall₂_map_right_iff]
    refine List.forall₂_same.mpr ?_
    intro p hp
    exact received?_fieldPart (hnames p hp) (hvalues p hp)

/-! ## The whole form -/

/-- The boundary that the header of a form announces. -/
def announced? (contentType : String) : Option String :=
  ("multipart/form-data; boundary=".toList.isPrefixOf? contentType.toList).map String.ofList

theorem announced?_contentType (boundary : String) :
    announced? (contentType boundary) = some boundary := by
  have hrest (front : String) : front.toList.isPrefixOf? (front ++ boundary).toList =
      some boundary.toList := by
    rw [String.toList_append]
    exact List.isPrefixOf?_eq_some_iff_append_eq.mpr rfl
  unfold announced? contentType
  rw [hrest, Option.map_some, String.ofList_toList]

/-- Reads a form by what announces it. -/
def readAnnounced? (contentType : String) (form : Bytes) : Option (List Received) :=
  (announced? contentType).bind fun boundary => read? boundary form

/--
**A form can be read back.** Read by the boundary that its header announces, it gives the files in
their order, each under the field's name with its number and octet for octet, then the named values in
their order, strings bare and all else as JSON, and nothing more. All it takes is that the boundary is
one line, that the names can stand in quotes, and that two dashes and the boundary occur neither in a
file nor in a value as it is written.
-/
theorem readAnnounced?_body {files : List Bytes} {parameters : Json.Members}
    (hboundary : OneLine boundary) (hkey : Quotable key) (hnames : ∀ p ∈ parameters, Quotable p.1)
    (hfiles : ∀ file ∈ files, ¬ octets ("--" ++ boundary) <:+: file)
    (hvalues : ∀ p ∈ parameters, ¬ octets ("--" ++ boundary) <:+: fieldValue p.2) :
    readAnnounced? (contentType boundary) (body boundary key files parameters) =
      some ((files.mapIdx fun i file => .file key (i + 1) file) ++
        parameters.map fun (name, value) => .field name value) := by
  have hfileLines : ∀ file ∈ files, ∀ line ∈ lines file, ¬ IsFrame boundary line :=
    fun file hfile => not_isFrame_of_not_infix (hfiles file hfile)
  have hvalueLines : ∀ p ∈ parameters, ∀ line ∈ lines (fieldValue p.2), ¬ IsFrame boundary line :=
    fun p hp => not_isFrame_of_not_infix (hvalues p hp)
  obtain ⟨hfilesClear, hfilesRead⟩ := forall₂_fileParts hkey hfileLines 1
  obtain ⟨hfieldsClear, hfieldsRead⟩ := forall₂_fieldParts hnames hvalueLines
  have hclear : ∀ p ∈ parts key files parameters, p.Clear boundary := by
    intro p hp
    rcases List.mem_append.mp hp with hp | hp
    · exact hfilesClear p hp
    · exact hfieldsClear p hp
  have hread := read?_parts hboundary hclear (List.rel_append hfilesRead hfieldsRead)
  rw [readAnnounced?, announced?_contentType, Option.bind_some]
  exact hread

/-- A file that ends within the end of a line, one that ends with dashes and a piece of the boundary
`seam`, an empty one, and a delimiter of another boundary. -/
def crowdedFiles : List Bytes :=
  [[0x0D], octets "a\r\n--sea", [], octets "--sand\r\n"]

/-- A text of two lines, a number and an object. -/
def crowdedValues : Json.Members :=
  [("note", .text "b\r\n--"), ("n", .number (.natural 7)), ("o", .object [("k", .null)])]

/-- All of them come out of one form as they went in. -/
theorem crowded_read_back :
    readAnnounced? (contentType "seam") (body "seam" "reports[]" crowdedFiles crowdedValues) =
      some [.file "reports[]" 1 [0x0D], .file "reports[]" 2 (octets "a\r\n--sea"),
        .file "reports[]" 3 [], .file "reports[]" 4 (octets "--sand\r\n"),
        ⟨octets "note", none, octets "b\r\n--"⟩, ⟨octets "n", none, octets "7"⟩,
        ⟨octets "o", none, octets "\x7b\"k\":null\x7d"⟩] := by
  have hfiles : ∀ file ∈ crowdedFiles, ¬ octets ("--" ++ "seam") <:+: file := by decide +kernel
  have hvalues : ∀ p ∈ crowdedValues, ¬ octets ("--" ++ "seam") <:+: fieldValue p.2 := by
    decide +kernel
  have hkey : Quotable "reports[]" := by decide
  have hread := readAnnounced?_body (by decide) hkey (by decide) hfiles hvalues
  rw [hread]
  rfl

end CrashCourier.Http.Multipart
