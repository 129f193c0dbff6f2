import CrashCourier.Http.Multipart
import CrashCourier.Proofs.Json.Controls

/-!
# Reading a form back

What a collector makes of a form when it knows the boundary and nothing else. It goes by lines. A
line of two dashes and the boundary ends one section and begins the next, the same line with two more
dashes ends the last one. In a section the headers end at the first empty line, and the lines behind
it are the content.

A form is read as the parts it was made of if no line of a part is one of those two
(`sections_parts`). Nothing is asked of the boundary but that it is one line itself: it may well
occur inside the lines of a part.
-/

namespace CrashCourier

theorem octets_append (s t : String) : octets (s ++ t) = octets s ++ octets t := by
  rw [octets, octets, octets, String.toList_append, Text.Utf8.encode, List.flatMap_append]
  rfl

/-- An octet below 128 in a text is one of its characters. -/
theorem exists_char_of_mem_octets {s : String} {b : UInt8} (hb : b ∈ octets s)
    (hlow : b.toNat < 0x80) : ∃ c ∈ s.toList, c.toNat = b.toNat := by
  obtain ⟨c, hc, hb⟩ := List.mem_flatMap.mp hb
  rcases Text.Utf8.mem_encodeChar hb with ⟨hascii, rfl⟩ | hhigh
  · refine ⟨c, hc, ?_⟩
    rw [UInt8.toNat_ofNat']
    omega
  · omega

/-- A character of seven bits that is not in a text is not in its octets. -/
theorem not_mem_octets {s : String} {c : Char} (hlow : c.toNat < 0x80) (h : c ∉ s.toList) :
    UInt8.ofNat c.toNat ∉ octets s := by
  intro hb
  have hnat : (UInt8.ofNat c.toNat).toNat = c.toNat := by
    rw [UInt8.toNat_ofNat']
    omega
  obtain ⟨d, hd, heq⟩ := exists_char_of_mem_octets hb (by omega)
  exact h (Char.toNat_inj.mp (heq.trans hnat) ▸ hd)

namespace Http.Multipart

/-! ## Lines -/

/-- The lines of a text. What follows the last end of a line is a line as well, be it empty. -/
def lines : Bytes → List Bytes
  | [] => [[]]
  | [b] => [[b]]
  | b :: c :: rest =>
    if b = 0x0D ∧ c = 0x0A then [] :: lines rest
    else (lines (c :: rest)).modifyHead (b :: ·)

/-- The text of some lines. -/
def unlines (ls : List Bytes) : Bytes :=
  List.intercalate crlf ls

theorem exists_lines_cons (bs : Bytes) : ∃ l ls, lines bs = l :: ls := by
  induction bs using lines.induct with
  | case1 => exact ⟨[], [], rfl⟩
  | case2 b => exact ⟨[b], [], rfl⟩
  | case3 b c rest hend _ =>
      rw [lines, if_pos hend]
      exact ⟨_, _, rfl⟩
  | case4 b c rest hend ih =>
      obtain ⟨l, ls, hls⟩ := ih
      rw [lines, if_neg hend, hls]
      exact ⟨_, _, rfl⟩

/-- An end of a line parts the lines before it from those behind it. -/
theorem lines_append (bs rest : Bytes) : lines (bs ++ (crlf ++ rest)) = lines bs ++ lines rest := by
  induction bs using lines.induct with
  | case1 => rfl
  | case2 b =>
      -- a carriage return in front of the end of a line stays in the line
      have hb : ¬ (b = 0x0D ∧ (0x0D : UInt8) = 0x0A) := fun h => absurd h.2 (by decide)
      change lines (b :: 0x0D :: 0x0A :: rest) = [b] :: lines rest
      rw [lines, if_neg hb]
      rfl
  | case3 b c more hend ih =>
      change lines (b :: c :: (more ++ (crlf ++ rest))) = _
      rw [lines, if_pos hend, ih, lines, if_pos hend]
      rfl
  | case4 b c more hend ih =>
      obtain ⟨l, ls, hls⟩ := exists_lines_cons (c :: more)
      change lines (b :: c :: (more ++ (crlf ++ rest))) = _
      rw [List.cons_append] at ih
      rw [lines, if_neg hend, ih, lines, if_neg hend, hls]
      rfl

/-- A text without a carriage return is one line. -/
theorem lines_eq_singleton {bs : Bytes} (h : 0x0D ∉ bs) : lines bs = [bs] := by
  induction bs using lines.induct with
  | case1 => rfl
  | case2 b => rfl
  | case3 b c rest hend _ =>
      rw [hend.1] at h
      exact absurd List.mem_cons_self h
  | case4 b c rest hend ih =>
      rw [lines, if_neg hend, ih fun hmem => h (List.mem_cons_of_mem _ hmem)]
      rfl

theorem unlines_cons_cons (l l' : Bytes) (ls : List Bytes) :
    unlines (l :: l' :: ls) = l ++ (crlf ++ unlines (l' :: ls)) := by
  simp [unlines, List.intercalate]

/-- The lines of a text make it up again. -/
theorem unlines_lines (bs : Bytes) : unlines (lines bs) = bs := by
  induction bs using lines.induct with
  | case1 => rfl
  | case2 b => simp [lines, unlines, List.intercalate]
  | case3 b c rest hend ih =>
      obtain ⟨l, ls, hls⟩ := exists_lines_cons rest
      rw [lines, if_pos hend, hls, unlines_cons_cons, ← hls, ih, hend.1, hend.2]
      rfl
  | case4 b c rest hend ih =>
      obtain ⟨l, ls, hls⟩ := exists_lines_cons (c :: rest)
      rw [hls] at ih
      rw [lines, if_neg hend, hls, List.modifyHead_cons]
      cases ls with
      | nil =>
          rw [← ih]
          simp [unlines, List.intercalate]
      | cons l' ls =>
          rw [unlines_cons_cons] at ih ⊢
          rw [List.cons_append, ih]

/-! ## Sections -/

/-- Reads on in a section of which some lines are taken. The result has a section for every delimiter,
and in front what precedes the first. -/
def sectionsFrom? (boundary : String) (taken : List Bytes) :
    List Bytes → Option (List (List Bytes))
  | [] => none
  | line :: rest =>
    if line = octets ("--" ++ boundary) then (sectionsFrom? boundary [] rest).map (taken :: ·)
    else if line = octets ("--" ++ boundary ++ "--") then
      -- nothing follows the end of the last line
      if rest = [[]] then some [taken] else none
    else sectionsFrom? boundary (taken ++ [line]) rest

/-- The sections of a form that begins with a delimiter. -/
def sections? (boundary : String) (form : Bytes) : Option (List (List Bytes)) :=
  match sectionsFrom? boundary [] (lines form) with
  | some ([] :: sections) => some sections
  | _ => none

/-- The lines of a part, without the delimiter before it. -/
def Part.section (p : Part) : List Bytes :=
  p.headers.map octets ++ [] :: lines p.content

/-- Whether a line is one that stands around the parts. -/
def IsFrame (boundary : String) (line : Bytes) : Prop :=
  line = octets ("--" ++ boundary) ∨ line = octets ("--" ++ boundary ++ "--")

/-- A part in which nothing looks like what stands around the parts, and whose headers are lines. -/
structure Part.Clear (boundary : String) (p : Part) : Prop where
  header_line : ∀ h ∈ p.headers, lines (octets h) = [octets h]
  header_ne_nil : ∀ h ∈ p.headers, octets h ≠ []
  header_clear : ∀ h ∈ p.headers, ¬ IsFrame boundary (octets h)
  content_clear : ∀ line ∈ lines p.content, ¬ IsFrame boundary line

/-- What stands around the parts begins with a dash. -/
theorem not_isFrame_of_head {boundary : String} {line : Bytes} (h : line.head? ≠ some 0x2D) :
    ¬ IsFrame boundary line := by
  rintro (rfl | rfl)
  · rw [octets_append] at h
    exact h rfl
  · rw [octets_append, octets_append] at h
    exact h rfl

/-- A boundary without an end of a line. -/
def OneLine (boundary : String) : Prop :=
  ∀ c ∈ boundary.toList, c ≠ '\r' ∧ c ≠ '\n'

instance (boundary : String) : Decidable (OneLine boundary) :=
  decidable_of_iff (boundary.toList.all fun c => c ≠ '\r' ∧ c ≠ '\n') (by simp [OneLine])

section Sections

variable {boundary : String}

theorem OneLine.lines_delimiter (h : OneLine boundary) (rest : Bytes) :
    lines (delimiter boundary ++ rest) = octets ("--" ++ boundary) :: lines rest := by
  have hcr : (0x0D : UInt8) ∉ octets ("--" ++ boundary) := by
    refine not_mem_octets (c := '\r') (by decide) ?_
    rw [String.toList_append, List.mem_append, not_or]
    exact ⟨by decide, fun hc => (h _ hc).1 rfl⟩
  rw [delimiter, List.append_assoc, lines_append, lines_eq_singleton hcr]
  rfl

theorem OneLine.lines_closing (h : OneLine boundary) :
    lines (closing boundary) = [octets ("--" ++ boundary ++ "--"), []] := by
  have hcr : (0x0D : UInt8) ∉ octets ("--" ++ boundary ++ "--") := by
    refine not_mem_octets (c := '\r') (by decide) ?_
    rw [String.toList_append, String.toList_append, List.mem_append, List.mem_append, not_or, not_or]
    exact ⟨⟨by decide, fun hc => (h _ hc).1 rfl⟩, by decide⟩
  have hlines := lines_append (octets ("--" ++ boundary ++ "--")) []
  rw [List.append_nil, lines_eq_singleton hcr] at hlines
  exact hlines

theorem lines_headers {headers : List String} (h : ∀ header ∈ headers,
    lines (octets header) = [octets header]) (rest : Bytes) :
    lines (headers.flatMap (fun header => octets header ++ crlf) ++ rest) =
      headers.map octets ++ lines rest := by
  induction headers with
  | nil => rfl
  | cons header headers ih =>
      rw [List.flatMap_cons, List.append_assoc, List.append_assoc, lines_append,
        h header List.mem_cons_self, ih fun h' hh' => h h' (List.mem_cons_of_mem _ hh')]
      rfl

/-- The lines of a part: its delimiter, its headers, an empty line, and those of the content. -/
theorem Part.Clear.lines_write {p : Part} (hp : p.Clear boundary) (hboundary : OneLine boundary)
    (rest : Bytes) :
    lines (p.write boundary ++ rest) =
      octets ("--" ++ boundary) :: (p.section ++ lines rest) := by
  unfold Part.write
  simp only [List.append_assoc]
  rw [hboundary.lines_delimiter, lines_headers hp.header_line]
  have hempty := lines_append [] (p.content ++ (crlf ++ rest))
  rw [List.nil_append] at hempty
  rw [hempty, lines_append, Part.section, List.append_assoc]
  rfl

/-- The reader takes all lines that do not stand around the parts. -/
theorem sectionsFrom?_append {taken ls : List Bytes} (h : ∀ line ∈ ls, ¬ IsFrame boundary line)
    (rest : List Bytes) :
    sectionsFrom? boundary taken (ls ++ rest) = sectionsFrom? boundary (taken ++ ls) rest := by
  induction ls generalizing taken with
  | nil => rw [List.append_nil, List.nil_append]
  | cons line ls ih =>
      have hline := not_or.mp (h line List.mem_cons_self)
      rw [List.cons_append, sectionsFrom?, if_neg hline.1, if_neg hline.2,
        ih fun l hl => h l (List.mem_cons_of_mem _ hl), List.append_assoc]
      rfl

theorem Part.Clear.section_clear {p : Part} (hp : p.Clear boundary) :
    ∀ line ∈ p.section, ¬ IsFrame boundary line := by
  intro line hline
  rcases List.mem_append.mp hline with hheader | hcontent
  · obtain ⟨h, hh, rfl⟩ := List.mem_map.mp hheader
    exact hp.header_clear h hh
  · rcases List.mem_cons.mp hcontent with rfl | hcontent
    · exact not_isFrame_of_head (by decide)
    · exact hp.content_clear line hcontent

theorem closing_ne_delimiter : octets ("--" ++ boundary ++ "--") ≠ octets ("--" ++ boundary) := by
  intro h
  have hlength := congrArg List.length h
  rw [octets_append, List.length_append] at hlength
  have hdashes : (octets "--").length = 2 := by decide
  omega

theorem sectionsFrom?_parts (hboundary : OneLine boundary) {ps : List Part}
    (hps : ∀ p ∈ ps, p.Clear boundary) (taken : List Bytes) :
    sectionsFrom? boundary taken (lines (ps.flatMap (·.write boundary) ++ closing boundary)) =
      some (taken :: ps.map Part.section) := by
  induction ps generalizing taken with
  | nil =>
      rw [List.flatMap_nil, List.nil_append, hboundary.lines_closing, sectionsFrom?,
        if_neg closing_ne_delimiter, if_pos rfl, if_pos rfl]
      rfl
  | cons p ps ih =>
      have hp := hps p List.mem_cons_self
      have hrest := ih (fun q hq => hps q (List.mem_cons_of_mem _ hq)) p.section
      rw [List.flatMap_cons, List.append_assoc, hp.lines_write hboundary, sectionsFrom?, if_pos rfl,
        sectionsFrom?_append hp.section_clear, List.nil_append, hrest]
      rfl

/-- **A form has the sections of its parts**, if no line in them stands around parts. -/
theorem sections_parts (hboundary : OneLine boundary) {ps : List Part}
    (hps : ∀ p ∈ ps, p.Clear boundary) :
    sections? boundary (ps.flatMap (·.write boundary) ++ closing boundary) =
      some (ps.map Part.section) := by
  rw [sections?, sectionsFrom?_parts hboundary hps]

end Sections

/-! ## What a section says -/

/-- A part as a collector gets it. -/
structure Received where
  name : Bytes
  /-- The name of the file, if the part is one. -/
  fileName : Option Bytes
  content : Bytes
  deriving DecidableEq

/-- Takes what stands before the quote that ends it, and leaves what follows that quote. A backslash
stands before an octet that is meant as it is. -/
def quoted? : Bytes → Option (Bytes × Bytes)
  | [] => none
  | [b] => if b = 0x22 then some ([], []) else none
  | b :: c :: rest =>
    if b = 0x22 then some ([], c :: rest)
    else if b = 0x5C then (quoted? rest).map fun (s, after) => (c :: s, after)
    else (quoted? (c :: rest)).map fun (s, after) => (b :: s, after)

/-- The name, and the name of the file if there is one, that a header gives to its part. -/
def disposition? (header : Bytes) : Option (Bytes × Option Bytes) := do
  let rest ← (octets "Content-Disposition: form-data; name=\"").isPrefixOf? header
  let (name, rest) ← quoted? rest
  if rest = [] then
    return (name, none)
  let rest ← (octets "; filename=\"").isPrefixOf? rest
  let (fileName, rest) ← quoted? rest
  if rest = [] then
    return (name, some fileName)
  none

/-- The part that a section holds. -/
def received? (lines : List Bytes) : Option Received :=
  match lines.dropWhile (· ≠ []) with
  | [] => none
  | _ :: content => do
    let (name, fileName) ← (lines.takeWhile (· ≠ [])).findSome? disposition?
    return ⟨name, fileName, unlines content⟩

/-- Reads a form. -/
def read? (boundary : String) (form : Bytes) : Option (List Received) := do
  let sections ← sections? boundary form
  sections.mapM received?

section Dispositions

variable {s rest : Bytes}

/-- Quoted octets without quotes and backslashes are taken as they are. -/
theorem quoted?_append (hs : ∀ b ∈ s, b ≠ 0x22 ∧ b ≠ 0x5C) :
    quoted? (s ++ 0x22 :: rest) = some (s, rest) := by
  induction s with
  | nil =>
      cases rest with
      | nil => rfl
      | cons c rest => rfl
  | cons b s ih =>
      have hb := hs b List.mem_cons_self
      have hrest := ih fun c hc => hs c (List.mem_cons_of_mem _ hc)
      -- something follows the octet: the rest of the quoted, or the quote
      obtain ⟨c, more, hmore⟩ : ∃ c more, s ++ 0x22 :: rest = c :: more := by
        cases s with
        | nil => exact ⟨_, _, rfl⟩
        | cons c s => exact ⟨_, _, rfl⟩
      rw [hmore] at hrest
      rw [List.cons_append, hmore, quoted?, if_neg hb.1, if_neg hb.2, hrest]
      rfl

/-- A text that can stand in quotes as it is, on one line. -/
def Quotable (s : String) : Prop :=
  ∀ c ∈ s.toList, c ≠ '"' ∧ c ≠ '\\' ∧ c ≠ '\r' ∧ c ≠ '\n'

instance (s : String) : Decidable (Quotable s) :=
  decidable_of_iff (s.toList.all fun c => c ≠ '"' ∧ c ≠ '\\' ∧ c ≠ '\r' ∧ c ≠ '\n')
    (by simp [Quotable])

theorem Quotable.append {s t : String} (hs : Quotable s) (ht : Quotable t) : Quotable (s ++ t) := by
  intro c hc
  rw [String.toList_append, List.mem_append] at hc
  exact hc.elim (hs c) (ht c)

theorem Quotable.octets {s : String} (h : Quotable s) :
    ∀ b ∈ octets s, b ≠ 0x22 ∧ b ≠ 0x5C := by
  intro b hb
  refine ⟨?_, ?_⟩
  · rintro rfl
    exact not_mem_octets (c := '"') (by decide) (fun hc => (h _ hc).1 rfl) hb
  · rintro rfl
    exact not_mem_octets (c := '\\') (by decide) (fun hc => (h _ hc).2.1 rfl) hb

theorem quotable_toString (n : Nat) : Quotable (toString n) := by
  intro c hc
  rw [Nat.toString_eq_ofList_toDigits, String.toList_ofList] at hc
  have hdigit := Json.Reader.allDigits_toDigits n c hc
  refine ⟨?_, ?_, ?_, ?_⟩ <;> rintro rfl <;> revert hdigit <;> decide

/-- The name of the `n`th file of a form. -/
def fileName (n : Nat) : String :=
  "report" ++ toString n ++ ".json"

theorem quotable_fileName (n : Nat) : Quotable (fileName n) :=
  (Quotable.append (by decide) (quotable_toString n)).append
    (by decide)

/-- The header of a file says the name of the field and that of the file. -/
theorem disposition?_file {key file : String} (hkey : Quotable key) (hfile : Quotable file) :
    disposition? (octets ("Content-Disposition: form-data; name=\"" ++ key ++ "\"; filename=\"" ++
      file ++ "\"")) = some (octets key, some (octets file)) := by
  have hheader : octets ("Content-Disposition: form-data; name=\"" ++ key ++ "\"; filename=\"" ++
      file ++ "\"") = octets "Content-Disposition: form-data; name=\"" ++ (octets key ++
        0x22 :: (octets "; filename=\"" ++ (octets file ++ [0x22]))) := by
    simp only [octets_append, List.append_assoc]
    rfl
  have hname : (octets "Content-Disposition: form-data; name=\"").isPrefixOf?
      (octets "Content-Disposition: form-data; name=\"" ++ (octets key ++
        0x22 :: (octets "; filename=\"" ++ (octets file ++ [0x22])))) = some _ :=
    List.isPrefixOf?_eq_some_iff_append_eq.mpr rfl
  have hafter : (octets "; filename=\"").isPrefixOf?
      (octets "; filename=\"" ++ (octets file ++ [0x22])) = some _ :=
    List.isPrefixOf?_eq_some_iff_append_eq.mpr rfl
  have hsome : octets "; filename=\"" ++ (octets file ++ [0x22]) ≠ [] := fun h =>
    absurd (List.append_eq_nil_iff.mp h).1 (by decide)
  unfold disposition?
  rw [hheader, hname, Option.bind_eq_bind, Option.bind_some, quoted?_append hkey.octets]
  simp only [Option.bind_eq_bind, Option.bind_some]
  rw [if_neg hsome, hafter, Option.bind_some, quoted?_append hfile.octets]
  rfl

/-- What is received of a part is what the first header that gives it a name says, and its content. -/
theorem Part.Clear.received?_section {boundary : String} {p : Part} (hp : p.Clear boundary) :
    received? p.section = ((p.headers.map octets).findSome? disposition?).map
      fun (name, fileName) => ⟨name, fileName, p.content⟩ := by
  have hheaders : ∀ line ∈ p.headers.map octets, decide (line ≠ []) = true := by
    intro line hline
    obtain ⟨h, hh, rfl⟩ := List.mem_map.mp hline
    exact decide_eq_true (hp.header_ne_nil h hh)
  have htake : p.section.takeWhile (· ≠ []) = p.headers.map octets := by
    rw [Part.section, List.takeWhile_append_of_pos hheaders]
    exact List.append_nil _
  have hdrop : p.section.dropWhile (· ≠ []) = [] :: lines p.content := by
    rw [Part.section, List.dropWhile_append_of_pos hheaders]
    rfl
  unfold received?
  rw [htake, hdrop]
  dsimp only
  rw [unlines_lines]
  cases (p.headers.map octets).findSome? disposition? <;> rfl

end Dispositions

/-! ## Forms -/

section Forms

variable {boundary key : String}

/-- **A form is read as the parts it was made of.** -/
theorem read?_parts (hboundary : OneLine boundary) {ps : List Part} {rs : List Received}
    (hps : ∀ p ∈ ps, p.Clear boundary)
    (hrs : List.Forall₂ (fun p r => received? p.section = some r) ps rs) :
    read? boundary (ps.flatMap (·.write boundary) ++ closing boundary) = some rs := by
  unfold read?
  rw [sections_parts hboundary hps, Option.bind_eq_bind, Option.bind_some]
  clear hps
  induction hrs with
  | nil => rfl
  | cons hr _ ih =>
      rw [List.map_cons, List.mapM_cons, hr, ih]
      rfl

/-- The file as it is received: under its field, with its number, octet for octet. -/
def Received.file (key : String) (n : Nat) (content : Bytes) : Received :=
  ⟨octets key, some (octets (Multipart.fileName n)), content⟩

theorem filePart_headers (key : String) (n : Nat) (content : Bytes) :
    (filePart key n content).headers =
      ["Content-Disposition: form-data; name=\"" ++ key ++ "\"; filename=\"" ++ fileName n ++ "\"",
        "Content-Type: json"] := by
  simp only [filePart, fileName, List.cons.injEq, and_true]
  rw [← String.toList_inj]
  simp only [String.toList_append, List.append_assoc]
  rfl

/-- Headers are clear if each is one line and begins with a letter. -/
theorem Part.Clear.of_headers {p : Part} (hline : ∀ h ∈ p.headers, '\r' ∉ h.toList)
    (hhead : ∀ h ∈ p.headers, (octets h).head? = some 0x43)
    (hcontent : ∀ line ∈ lines p.content, ¬ IsFrame boundary line) : p.Clear boundary := by
  refine ⟨?_, ?_, ?_, hcontent⟩
  · intro h hh
    exact lines_eq_singleton (not_mem_octets (c := '\r') (by decide) (hline h hh))
  · intro h hh hnil
    have hletter := hhead h hh
    rw [hnil] at hletter
    cases hletter
  · intro h hh
    refine not_isFrame_of_head ?_
    rw [hhead h hh]
    decide

theorem Part.Clear.filePart (hkey : Quotable key) (n : Nat) {content : Bytes}
    (hcontent : ∀ line ∈ lines content, ¬ IsFrame boundary line) :
    (filePart key n content).Clear boundary := by
  refine .of_headers ?_ ?_ hcontent
  · intro h hh
    rw [filePart_headers, List.mem_cons, List.mem_singleton] at hh
    rcases hh with rfl | rfl
    · simp only [String.toList_append, List.mem_append, not_or]
      exact ⟨⟨⟨⟨by decide, fun h => (hkey _ h).2.2.1 rfl⟩, by decide⟩,
        fun h => (quotable_fileName n _ h).2.2.1 rfl⟩, by decide⟩
    · decide
  · intro h hh
    rw [filePart_headers, List.mem_cons, List.mem_singleton] at hh
    rcases hh with rfl | rfl
    · simp only [octets_append, List.append_assoc]
      rfl
    · rfl

theorem received?_filePart (hkey : Quotable key) (n : Nat) {content : Bytes}
    (hcontent : ∀ line ∈ lines content, ¬ IsFrame boundary line) :
    received? (filePart key n content).section = some (.file key n content) := by
  rw [(Part.Clear.filePart hkey n hcontent).received?_section, filePart_headers, List.map_cons,
    List.findSome?_cons, disposition?_file hkey (quotable_fileName n)]
  rfl

/-- The parts of files, and what is received of them, go together. -/
theorem forall₂_fileParts (hkey : Quotable key) {files : List Bytes}
    (hfiles : ∀ file ∈ files, ∀ line ∈ lines file, ¬ IsFrame boundary line) (n : Nat) :
    (∀ p ∈ fileParts key n files, p.Clear boundary) ∧
      List.Forall₂ (fun p r => received? p.section = some r) (fileParts key n files)
        (files.mapIdx fun i file => .file key (i + n) file) := by
  induction files generalizing n with
  | nil => exact ⟨fun _ hp => absurd hp List.not_mem_nil, .nil⟩
  | cons file files ih =>
      have hfile := hfiles file List.mem_cons_self
      obtain ⟨hclear, hrest⟩ := ih (fun f hf => hfiles f (List.mem_cons_of_mem _ hf)) (n + 1)
      refine ⟨?_, ?_⟩
      · intro p hp
        rcases List.mem_cons.mp hp with rfl | hp
        · exact Part.Clear.filePart hkey n hfile
        · exact hclear p hp
      · rw [List.mapIdx_cons, Nat.zero_add]
        refine .cons (received?_filePart hkey n hfile) ?_
        simp only [Nat.add_assoc, Nat.add_comm 1 n]
        exact hrest

/-- **The files of a form are read back**, each under its field and with its number. -/
theorem read?_files (hboundary : OneLine boundary) (hkey : Quotable key) {files : List Bytes}
    (hfiles : ∀ file ∈ files, ∀ line ∈ lines file, ¬ IsFrame boundary line) :
    read? boundary (body boundary key files []) =
      some (files.mapIdx fun i file => .file key (i + 1) file) := by
  obtain ⟨hclear, hrs⟩ := forall₂_fileParts hkey hfiles 1
  have hread := read?_parts hboundary hclear hrs
  unfold body parts
  rw [List.map_nil, List.append_nil]
  exact hread

end Forms

end Http.Multipart

end CrashCourier
