import DesignCompiler.Proofs.Document.Wrapping
import DesignCompiler.Proofs.Markup.Tags
import DesignCompiler.Proofs.Project.Saving
import Mathlib.Data.List.ReduceOption

/-!
# DesignCompiler — stylesheets that documents name

A document names its stylesheet when the page is compiled, and the file is named a second time when
the page is saved. Read as a document of its dialect, with the tags or the lines of the whole text,
it names one stylesheet, and this is the file beside it.

* `Document.stylesheets` — the stylesheets that a document names, in tags of HTML or imports of JSX;
* `Links`, `links_head`, `links_body` — the parts of an HTML page, of which one names a stylesheet;
* `imported_append`, `imported_indentBlock` — the lines of a module;
* `stylesheets_render` — a document names the stylesheet that it was made for;
* `NamesStylesheets` — pages that name the files which are saved with them;
* `compile_namesStylesheets` — the wrapped pages of every design.
-/

namespace DesignCompiler

open Markup

namespace Document

/-! ## Reading what a document names -/

/-- The stylesheet that a tag links. -/
def linkedFile? : Tag → Option String
  | .start name attributes _ =>
    if name = "link" ∧ attributes.lookup "rel" = some (some "stylesheet") then
      (attributes.lookup "href").join
    else none
  | .stop _ => none

/-- The stylesheet that a piece of a document links. Every tag has to say something. -/
def linkedBy (d : Dialect) : Mark → Option (Option String)
  | .char _ => some none
  | .tag body => (readTag d body).map linkedFile?

def linked (d : Dialect) (ms : List Mark) : Option (List String) :=
  (ms.mapM (linkedBy d)).map List.reduceOption

/-- The file that a line of a module imports from the folder of the module. A name with a quote or a
backslash would not stand for itself. -/
def importedFile? (line : List Char) : Option String := do
  let rest ← line.dropPrefix? "import './".toList
  let file ← rest.dropSuffix? "';".toList
  if file.all fun c => c != '\'' && c != '\\' then some (String.ofList file) else none

def imported (document : List Char) : List String :=
  (Text.pieces '\n' document).filterMap importedFile?

/-- The stylesheets that a document names. -/
def stylesheets (d : Dialect) (document : List Char) : Option (List String) :=
  match d with
  | .html => (cut none document).bind (linked .html)
  | .jsx => some (imported document)

/-- How a document names a stylesheet. -/
def reference (d : Dialect) (file : String) : String :=
  match d with
  | .html => "<link rel=\"stylesheet\" href=\"" ++ file ++ "\">"
  | .jsx => "import './" ++ file ++ "';"

theorem reference_html (file : String) :
    reference .html file = "<link rel=\"stylesheet\" href=\"" ++ file ++ "\">" := rfl

theorem reference_jsx (file : String) : reference .jsx file = "import './" ++ file ++ "';" := rfl

/-! ## Names of files -/

/-- No character of a file name is escaped in the head of a document. -/
theorem escapeHead_eq_self {file : String} (h : ∀ c ∈ file.toList, isFileChar c = true) :
    escapeHead file = file := by
  have hchar : ∀ c ∈ file.toList, escapeHeadChar c = [c] := by
    intro c hc
    have hfile := h c hc
    unfold escapeHeadChar
    split
    case h_7 => rfl
    all_goals exact absurd hfile (by decide)
  rw [escapeHead, List.flatMap_congr hchar, List.flatMap_singleton', String.ofList_toList]

/-- Nor is any in the value of an attribute. -/
theorem escapeValue_eq_self {file : String} (h : ∀ c ∈ file.toList, isFileChar c = true) :
    escapeValue .html file.toList = file.toList := by
  have hchar : ∀ c ∈ file.toList, escapeValueChar .html c = [c] := by
    intro c hc
    have hfile := h c hc
    unfold escapeValueChar escapeTextChar
    split
    · rename_i hq
      rw [hq] at hfile
      exact absurd hfile (by decide)
    · split
      case h_6 => rfl
      all_goals exact absurd hfile (by decide)
  rw [escapeValue, List.flatMap_congr hchar, List.flatMap_singleton']

/-! ## Tags of an HTML page -/

section Html

variable {d : Dialect} {ms ns : List Mark} {files files' : List String} {s t : String}

theorem linked_append (h : linked d ms = some files) (h' : linked d ns = some files') :
    linked d (ms ++ ns) = some (files ++ files') := by
  obtain ⟨xs, hxs, rfl⟩ := Option.map_eq_some_iff.mp h
  obtain ⟨ys, hys, rfl⟩ := Option.map_eq_some_iff.mp h'
  rw [linked, List.mapM_append, hxs, hys, ← List.reduceOption_append]
  rfl

/-- Pieces that link nothing. -/
theorem linked_eq_nil (h : ∀ m ∈ ms, linkedBy d m = some none) : linked d ms = some [] := by
  induction ms with
  | nil => rfl
  | cons m ms ih =>
    obtain ⟨hm, hms⟩ := List.forall_mem_cons.mp h
    have hfirst : linked d [m] = some [] := by
      simp [linked, hm, List.reduceOption]
    exact linked_append hfirst (ih hms)

/-- A text in which these stylesheets are linked. -/
def Links (d : Dialect) (s : String) (files : List String) : Prop :=
  ∃ ms, Cuts s.toList ms ∧ linked d ms = some files

theorem Links.append (h : Links d s files) (h' : Links d t files') :
    Links d (s ++ t) (files ++ files') := by
  obtain ⟨ms, hms, hfiles⟩ := h
  obtain ⟨ns, hns, hfiles'⟩ := h'
  exact ⟨ms ++ ns, String.toList_append ▸ hms.append hns, linked_append hfiles hfiles'⟩

theorem links_chars (h : ∀ c ∈ s.toList, c ≠ '<') : Links d s [] := by
  refine ⟨_, cuts_chars h, linked_eq_nil fun m hm => ?_⟩
  obtain ⟨c, -, rfl⟩ := List.mem_map.mp hm
  rfl

/-- What a text links can be evaluated. -/
theorem links_of_cut (h : ∃ ms ∈ cut none s.toList, linked d ms = some files) :
    Links d s files := by
  obtain ⟨ms, hms, hfiles⟩ := h
  exact ⟨ms, cuts_of_cut hms, hfiles⟩

/-- The elements of a page link nothing. -/
theorem linkedBy_of_met {tags : List String} (htags : "link" ∉ tags) {m : Mark}
    (h : Met d tags m) : linkedBy d m = some none := by
  cases m with
  | char c => rfl
  | tag body =>
    obtain ⟨tag, hread, hstart⟩ := h
    rw [linkedBy, hread, Option.map_some, Option.some.injEq]
    cases tag with
    | stop name => rfl
    | start name attributes closed =>
      have hname : name ≠ "link" := by
        rintro rfl
        rcases hstart _ _ _ rfl with hbr | hmem
        · exact absurd hbr (by decide)
        · exact htags hmem
      rw [linkedFile?, if_neg fun h => hname h.1]

theorem linked_tag {body : List Char} {tag : Tag} (h : readTag d body = some tag) :
    linked d [.tag body] = some (linkedFile? tag).toList := by
  simp only [linked, List.mapM_cons, List.mapM_nil, linkedBy, h]
  cases hfile : linkedFile? tag <;> simp [hfile, List.reduceOption]

/-- What the tag of a stylesheet says. -/
def linkAttributes (file : String) : List Attribute :=
  [("rel", some "stylesheet"), ("href", some file)]

theorem isPlainName_linkAttributes (file : String) :
    ∀ a ∈ linkAttributes file, isPlainName a.1.toList = true := by
  simp only [linkAttributes, List.forall_mem_cons, List.not_mem_nil, false_imp_iff, implies_true,
    and_true]
  decide

theorem readTag_link (file : String) :
    readTag .html ("link".toList ++ (linkAttributes file).flatMap (attributeText .html)) =
      some (.start "link" (linkAttributes file) false) := by
  have hend : readAttributes .html [] = some ([], false) := by
    rw [readAttributes]
  have hattributes := readAttributes_attributes (isPlainName_linkAttributes file) (by simp) hend
  rw [List.append_nil] at hattributes
  rw [readTag_name (by decide) (by simp [linkAttributes, attributeText]), hattributes]
  rfl

/-- The name of the file is a value that nothing is escaped in. -/
theorem toList_reference {file : String} (h : ∀ c ∈ file.toList, isFileChar c = true) :
    (reference .html file).toList =
      '<' :: ("link".toList ++ (linkAttributes file).flatMap (attributeText .html)) ++ ['>'] := by
  have hbegin : "<link rel=\"stylesheet\" href=\"".toList =
      '<' :: ("link".toList ++ " rel=\"stylesheet\"".toList ++ " href=\"".toList) := by
    cbv
  have hend : "\">".toList = ['"', '>'] := by cbv
  have hrel : attributeText .html ("rel", some "stylesheet") = " rel=\"stylesheet\"".toList := by
    cbv
  -- the name would be escaped here as it is in the head
  have hhref : attributeText .html ("href", some file) =
      " href=\"".toList ++ file.toList ++ ['"'] := by
    rw [attributeText, escapeValue_eq_self h]
    simp
  rw [reference_html, String.toList_append, String.toList_append, hbegin, hend, linkAttributes,
    List.flatMap_cons, List.flatMap_cons, List.flatMap_nil, hrel, hhref]
  simp only [List.append_assoc, List.cons_append, List.append_nil, List.nil_append]

/-- The tag of a stylesheet links it. -/
theorem links_reference {file : String} (h : ∀ c ∈ file.toList, isFileChar c = true) :
    Links .html (reference .html file) [file] := by
  refine ⟨_, toList_reference h ▸ cuts_tag fun c hc => ?_, linked_tag (readTag_link file)⟩
  rcases List.mem_append.mp hc with hc | hc
  · exact (by simp : ∀ x ∈ "link".toList, x ≠ '>') c hc
  · obtain ⟨a, ha, hc⟩ := List.mem_flatMap.mp hc
    exact mem_attributeText (isPlainName_linkAttributes file a ha) hc

/-- The line of the head that names the stylesheet. -/
theorem headLine_eq {file : String} (h : ∀ c ∈ file.toList, isFileChar c = true) :
    "  <link rel=\"stylesheet\" href=\"" ++ escapeHead file ++ "\">\n" =
      "  " ++ reference .html file ++ "\n" := by
  have hbefore : "  <link rel=\"stylesheet\" href=\"" =
      "  " ++ "<link rel=\"stylesheet\" href=\"" := by cbv
  have hbehind : "\">\n" = "\">" ++ "\n" := by cbv
  rw [escapeHead_eq_self h, reference_html, hbefore, hbehind]
  simp only [String.append_assoc]

/-- The head of a page links its stylesheet, whatever the page is called. -/
theorem links_head (title : String) {file : String} (h : ∀ c ∈ file.toList, isFileChar c = true) :
    Links .html (head .html title file) [file] := by
  have htitle : Links .html (escapeHead title) [] :=
    links_chars fun c hc => (mem_escapeHead hc).1
  have hbegin : Links .html ("<!DOCTYPE html>\n<html lang=\"en\">\n<head>\n" ++
      "  <meta charset=\"utf-8\">\n" ++
      "  <meta name=\"viewport\" content=\"width=device-width, initial-scale=1\">\n" ++
      "  <title>") [] := links_of_cut (by decide +kernel)
  have hbehind : Links .html "</title>\n" [] := links_of_cut (by decide +kernel)
  have hlink : Links .html ("  <link rel=\"stylesheet\" href=\"" ++ escapeHead file ++ "\">\n")
      [file] := by
    rw [headLine_eq h]
    exact ((links_chars (by simp)).append (links_reference h)).append (links_chars (by simp))
  have hend : Links .html "</head>\n" [] := links_of_cut (by decide +kernel)
  exact (((hbegin.append htitle).append hbehind).append hlink).append hend

/-- No element of a page is the tag of a stylesheet. -/
theorem link_notMem_tags (f : Forest PageElement) (d : Dialect) (w : Nat) :
    "link" ∉ ((f.map (·.entry d)).map (Entry.reflow w)).labels.map Entry.tag := by
  simp only [Forest.labels_map, List.map_map, List.mem_map, not_exists, not_and]
  intro e _ htag
  have hmem := tag_mem e
  have hlink : e.tag = "link" := (e.tag_entry d).symm.trans htag
  rw [hlink] at hmem
  exact absurd hmem (by decide)

/-- The body of a page links nothing. -/
theorem links_body {cs : List Component} {s : Settings} {t : PageTree} {code : Code}
    (h : emitComponents s cs = .ok (t, code)) (w : Nat) :
    Links s.dialect (indentBlock w code.markup ++ "\n") [] := by
  obtain ⟨f, hne, hnests, hclass, hmarkup⟩ := exists_rendering h
  -- the body is read as the elements of the page, and these account for all its tags
  obtain ⟨ms, hcut, hmet⟩ := exists_met (readIndented_rendering hne hnests hclass w)
  refine ⟨ms, ?_, linked_eq_nil fun m hm => linkedBy_of_met (link_notMem_tags f _ w) (hmet m hm)⟩
  rw [hmarkup, String.toList_append]
  exact cuts_of_cut hcut

end Html

/-! ## Lines of a module -/

section Module

theorem imported_append (a b : List Char) :
    imported (a ++ '\n' :: b) = imported a ++ imported b := by
  rw [imported, Text.pieces_append, List.filterMap_append]
  rfl

theorem imported_of_notMem {line : List Char} (h : '\n' ∉ line) :
    imported line = (importedFile? line).toList := by
  rw [imported, Text.pieces_of_notMem h]
  cases hfile : importedFile? line <;> simp [hfile]

/-- A line that begins otherwise imports nothing. -/
theorem importedFile?_eq_none {line : List Char} (h : line.head? ≠ some 'i') :
    importedFile? line = none := by
  have hdrop : line.dropPrefix? "import './".toList = none := by
    rw [Option.eq_none_iff_forall_ne_some]
    intro rest hrest
    obtain ⟨start, rfl, hstart⟩ := List.dropPrefix?_eq_some_iff.mp hrest
    rw [beq_iff_eq] at hstart
    exact h (by rw [hstart]; rfl)
  rw [importedFile?, hdrop]
  rfl

theorem importedFile?_reference {file : String} (h : ∀ c ∈ file.toList, isFileChar c = true) :
    importedFile? (reference .jsx file).toList = some file := by
  have hprefix : (reference .jsx file).toList.dropPrefix? "import './".toList =
      some (file.toList ++ "';".toList) := by
    rw [reference_jsx, String.toList_append, String.toList_append, List.append_assoc,
      List.dropPrefix?_eq_some_iff]
    exact ⟨_, rfl, beq_self_eq_true _⟩
  have hsuffix : (file.toList ++ "';".toList).dropSuffix? "';".toList = some file.toList := by
    rw [List.dropSuffix?_eq_some_iff]
    exact ⟨_, rfl, beq_self_eq_true _⟩
  -- nothing in the name of the file would have to be escaped
  have hplain : (file.toList.all fun c => c != '\'' && c != '\\') = true := by
    refine List.all_eq_true.mpr fun c hc => ?_
    rw [Bool.and_eq_true, bne_iff_ne, bne_iff_ne]
    constructor <;> rintro rfl <;> exact absurd (h _ hc) (by decide)
  simp only [importedFile?, hprefix, hsuffix, bind, Option.bind, hplain, if_true,
    String.ofList_toList]

theorem notMem_of_mem_lines {text l : List Char} (h : l ∈ lines text) : '\n' ∉ l := by
  rcases List.mem_append.mp h with h | h
  · obtain ⟨p, hp, rfl⟩ := List.mem_map.mp h
    exact notMem_dropReturn (Text.mem_pieces (List.mem_of_mem_dropLast hp))
  · obtain ⟨hl, -⟩ := List.mem_filter.mp h
    exact Text.mem_pieces (List.mem_of_getLast? (Option.mem_toList.mp hl))

/-- No line of the body imports anything: it is empty or begins with a blank. -/
theorem imported_indentBlock {w : Nat} (hw : 0 < w) (text : String) :
    imported (indentBlock w text).toList = [] := by
  have hempty : importedFile? [] = none := importedFile?_eq_none (by simp)
  rw [indentBlock, String.toList_ofList, imported]
  by_cases hnil : lines text.toList = []
  · rw [hnil, List.map_nil, List.intercalate_nil, Text.pieces, List.filterMap_cons_none hempty]
    rfl
  · rw [Text.pieces_intercalate (by simpa using hnil), List.filterMap_eq_nil_iff]
    · intro line hline
      obtain ⟨l, -, rfl⟩ := List.mem_map.mp hline
      split
      · exact hempty
      · -- a line that is not empty begins with the margin
        refine importedFile?_eq_none ?_
        rw [List.head?_append_of_ne_nil _ (by simpa using hw.ne'), List.head?_replicate,
          if_neg hw.ne']
        decide
    · intro line hline
      obtain ⟨l, hl, rfl⟩ := List.mem_map.mp hline
      split
      · exact List.not_mem_nil
      · rw [List.mem_append, not_or]
        exact ⟨fun h => absurd (List.eq_of_mem_replicate h) (by decide), notMem_of_mem_lines hl⟩

/-- The line that imports the stylesheet. -/
theorem imported_reference {file : String} (h : ∀ c ∈ file.toList, isFileChar c = true) :
    imported (reference .jsx file).toList = [file] := by
  rw [imported_of_notMem, importedFile?_reference h, Option.toList_some]
  rw [reference_jsx, String.toList_append, String.toList_append, List.mem_append, List.mem_append]
  rintro ((hc | hc) | hc)
  · exact absurd hc (by decide)
  · exact absurd (h _ hc) (by decide)
  · exact absurd hc (by decide)

/-- The line that begins the component. -/
theorem imported_export (title : String) :
    imported ("export default function " ++ componentName title ++ "() \x7b").toList = [] := by
  rw [imported_of_notMem, importedFile?_eq_none, Option.toList_none]
  · rw [String.toList_append, String.toList_append]
    simp
  · rw [String.toList_append, String.toList_append, List.mem_append, List.mem_append]
    rintro ((hc | hc) | hc)
    · exact absurd hc (by decide)
    · exact absurd (isAlphanum_of_mem_componentName hc) (by decide)
    · exact absurd hc (by decide)

theorem imported_intercalate {ls : List String} {files : List (List String)} (hne : ls ≠ [])
    (h : List.Forall₂ (fun l fs => imported l.toList = fs) ls files) :
    imported ("\n".intercalate ls).toList = files.flatten := by
  rw [String.toList_intercalate]
  induction h with
  | nil => exact absurd rfl hne
  | @cons l fs ls files hl hrest ih =>
    cases hrest with
    | nil => simpa using hl
    | @cons l' fs' ls files hl' hrest =>
      -- the first line ends before the separator, so the others are read on their own
      have hlater := ih (List.cons_ne_nil l' ls)
      rw [List.map_cons] at hlater
      rw [List.map_cons, List.map_cons, List.intercalate_cons_cons, List.append_assoc,
        List.flatten_cons, ← hl, ← hlater]
      exact imported_append _ _

/-- A module, with its body as one of its lines. -/
theorem renderJsx_eq (title file markup : String) :
    renderJsx title file markup = "\n".intercalate
      ["import React from 'react';", reference .jsx file, "",
        "export default function " ++ componentName title ++ "() \x7b", "  return (",
        indentBlock 4 markup, "  );", "\x7d", ""] := by
  have hbegin : "import React from 'react';\nimport './" =
      "import React from 'react';" ++ "\n" ++ "import './" := by cbv
  have himport : "';\n\n" = "';" ++ "\n" ++ "" ++ "\n" := by cbv
  have hexport : "() \x7b\n  return (\n" = "() \x7b" ++ "\n" ++ "  return (" ++ "\n" := by
    cbv
  have hend : "\n  );\n\x7d\n" = "\n" ++ "  );" ++ "\n" ++ "\x7d" ++ "\n" ++ "" := by
    cbv
  unfold renderJsx
  rw [reference_jsx, hbegin, himport, hexport, hend]
  simp only [String.intercalate_cons_cons, String.intercalate_singleton, String.append_assoc]

/-- A module imports its stylesheet, whatever the page is called and whatever stands in it. -/
theorem imported_renderJsx (title markup : String) {file : String}
    (h : ∀ c ∈ file.toList, isFileChar c = true) :
    imported (renderJsx title file markup).toList = [file] := by
  have hreact : imported "import React from 'react';".toList = [] := by cbv
  have hempty : imported "".toList = [] := by cbv
  have hreturn : imported "  return (".toList = [] := by cbv
  have hbody : imported (indentBlock 4 markup).toList = [] :=
    imported_indentBlock (by decide) markup
  have hclose : imported "  );".toList = [] := by cbv
  have hbrace : imported "\x7d".toList = [] := by cbv
  rw [renderJsx_eq, imported_intercalate (List.cons_ne_nil _ _)
    (.cons hreact (.cons (imported_reference h) (.cons hempty (.cons (imported_export title)
      (.cons hreturn (.cons hbody (.cons hclose (.cons hbrace (.cons hempty .nil)))))))))]
  rfl

end Module

/-! ## Documents -/

theorem infix_append (a b c : String) : b.toList <:+: (a ++ b ++ c).toList :=
  ⟨a.toList, c.toList, by rw [String.toList_append, String.toList_append]⟩

theorem infix_intercalate {sep l : String} {ls : List String} (h : l ∈ ls) :
    l.toList <:+: (sep.intercalate ls).toList := by
  induction ls with
  | nil => exact absurd h List.not_mem_nil
  | cons first ls ih =>
    cases ls with
    | nil => rw [List.mem_singleton.mp h, String.intercalate_singleton]
    | cons second ls =>
      rw [String.intercalate_cons_cons]
      rcases List.mem_cons.mp h with rfl | h
      · rw [String.append_assoc, String.toList_append]
        exact (List.prefix_append _ _).isInfix
      · rw [String.toList_append]
        exact (ih h).trans (List.suffix_append _ _).isInfix

section Render

variable {slug : String} (hslug : ClassName.isClassName slug) (title : String)

include hslug

/-- **A document names one stylesheet.** It is the one that the document was made for, as it is
called. -/
theorem stylesheets_render {cs : List Component} {s : Settings} {t : PageTree} {code : Code}
    (h : emitComponents s cs = .ok (t, code)) :
    stylesheets s.dialect (render s.dialect title (stylesheetFile slug) code.markup).toList =
      some [stylesheetFile slug] := by
  have hfile := isFileChar_of_mem hslug
  cases hd : s.dialect with
  | html =>
    have hbody := links_body h (margin .html)
    rw [hd] at hbody
    have hstart : Links .html (bodyStart .html) [] := links_of_cut (by decide +kernel)
    have hend : Links .html (bodyEnd .html) [] := links_of_cut (by decide +kernel)
    -- one link in the head, and none elsewhere
    obtain ⟨ms, hcuts, hfiles⟩ :=
      ((links_head title hfile).append hstart).append (hbody.append hend)
    rw [stylesheets, render_eq, hcuts.cut_eq]
    exact hfiles
  | jsx => exact congrArg some (imported_renderJsx title code.markup hfile)

/-- The name stands in the document character for character, in either dialect. -/
theorem reference_infix (d : Dialect) (markup : String) :
    (reference d (stylesheetFile slug)).toList <:+:
      (render d title (stylesheetFile slug) markup).toList := by
  have hfile := isFileChar_of_mem hslug
  cases d with
  | html =>
    -- the link is the last line in the head
    have hline := infix_append "  " (reference .html (stylesheetFile slug)) "\n"
    rw [← headLine_eq hfile] at hline
    have hhead : _ <:+: (head .html title (stylesheetFile slug)).toList :=
      hline.trans (infix_append _ _ "</head>\n")
    rw [render_eq, String.append_assoc, String.toList_append]
    exact hhead.trans (List.prefix_append _ _).isInfix
  | jsx =>
    change _ <:+: (renderJsx title (stylesheetFile slug) markup).toList
    rw [renderJsx_eq]
    exact infix_intercalate (List.mem_cons_of_mem _ (List.mem_cons_self ..))

end Render

end Document

/-! ## Pages -/

open Document ClassName

/-- Pages that refer to the files which are saved with them. -/
structure NamesStylesheets (pages : List CompiledPage) : Prop where
  /-- The document of a page names one stylesheet, which is its own. -/
  names : ∀ p ∈ pages, stylesheets p.dialect p.markup.toList = some [p.stylesheetFile]
  /-- Neither dialect writes the name otherwise than it is. -/
  verbatim : ∀ p ∈ pages, (reference p.dialect p.stylesheetFile).toList <:+: p.markup.toList
  /-- No two pages have one stylesheet. -/
  apart : (pages.map (·.stylesheetFile)).Nodup
  /-- When pages are saved into one folder, all of them or some, the file that a document names is
  beside it, with the rules of its page. -/
  saved : ∀ (ps : List CompiledPage) (dir : Path) (disk disk' : Disk) (written : List (List Path)),
    ps.Sublist pages → (ps.mapM (CompiledPage.save · dir)).run.run disk = (.ok written, disk') →
    ∀ p ∈ ps, disk'.readText (dir.join ⟨p.markupFile⟩) = .ok p.markup ∧
      ∀ files, stylesheets p.dialect p.markup.toList = some files →
        ∀ file ∈ files, disk'.readText (dir.join ⟨file⟩) = .ok p.stylesheet

/-- A wrapped page is a document that was made for its stylesheet. -/
theorem exists_render {s : Settings} {d : Design} {pages : List CompiledPage}
    (h : d.compile s = .ok pages) (hwrap : s.wrapDocument = true) {p : CompiledPage}
    (hp : p ∈ pages) :
    ∃ cs t code title, emitComponents s cs = .ok (t, code) ∧ isClassName p.slug ∧
      p.dialect = s.dialect ∧
      p.markup = render s.dialect title (stylesheetFile p.slug) code.markup := by
  obtain ⟨q, -, slugs, slugs', hnamed⟩ := exists_compileNamed h hp
  obtain ⟨t, code, hemit, rfl, -⟩ := compileNamed_eq_ok_iff.mp hnamed
  exact ⟨_, t, code, pageName q.name t, hemit, allocate_isClassName slugs _ "page", rfl,
    if_pos hwrap⟩

/--
**Every document names the stylesheet that is saved with it.** Whatever the pages of a design are
called, and whatever stands in them: each wrapped page refers to one stylesheet, by the name of the
file that is written beside it, and no two pages refer to the same.
-/
theorem compile_namesStylesheets {s : Settings} {d : Design} {pages : List CompiledPage}
    (h : d.compile s = .ok pages) (hwrap : s.wrapDocument = true) : NamesStylesheets pages := by
  obtain ⟨hslugs, hnodup⟩ := Design.compile_slugs h
  have hnames : ∀ p ∈ pages, stylesheets p.dialect p.markup.toList = some [p.stylesheetFile] := by
    intro p hp
    obtain ⟨cs, t, code, title, hemit, hslug, hdialect, hmarkup⟩ := exists_render h hwrap hp
    rw [hdialect, hmarkup]
    exact stylesheets_render hslug title hemit
  refine ⟨hnames, fun p hp => ?_, ?_, fun ps dir disk disk' written hps hsave p hp => ?_⟩
  · obtain ⟨cs, t, code, title, -, hslug, hdialect, hmarkup⟩ := exists_render h hwrap hp
    rw [hdialect, hmarkup]
    exact reference_infix hslug title _ _
  · -- a name without its extension is the slug
    have hinj : Function.Injective stylesheetFile := by
      intro slug slug' heq
      rw [stylesheetFile, stylesheetFile, ← String.toList_inj, String.toList_append,
        String.toList_append] at heq
      exact String.toList_inj.mp (List.append_cancel_right heq)
    have hfiles := hnodup.map hinj
    rwa [List.map_map] at hfiles
  · obtain ⟨hmarkup, hstylesheet⟩ := CompiledPage.readText_saved
      (fun q hq => hslugs q (hps.mem hq)) (hnodup.sublist (hps.map _)) hsave hp
    refine ⟨hmarkup, fun files hfiles file hfile => ?_⟩
    obtain rfl := Option.some.inj ((hnames p (hps.mem hp)).symm.trans hfiles)
    rwa [List.mem_singleton.mp hfile]

/-- A page with a picture. -/
def pictureNamed (id : UInt64) (name : String) : Page :=
  { id := ⟨id⟩, name := some name, components := [describedPicture] }

/-- Two pages whose names have one slug, and a page whose name has none. -/
def namesakes : Design :=
  { id := 1, pages := [pictureNamed 1 "Über 'uns' & <Co>", pictureNamed 2 "über: uns/\"co\"",
      pictureNamed 3 "日本"] }

theorem namesakes_compiled (d : Dialect) :
    ∃ pages, namesakes.compile { dialect := d, wrapDocument := true } = .ok pages ∧
      pages.map (·.stylesheetFile) = ["ber-uns-co.css", "ber-uns-co-2.css", "page.css"] := by
  have hbuild : PageTree.build [describedPicture] = .ok describedTree := by cbv
  have hfiles : (namesakes.compile { dialect := d, wrapDocument := true }).map
      (·.map (·.stylesheetFile)) = .ok ["ber-uns-co.css", "ber-uns-co-2.css", "page.css"] := by
    simp only [namesakes, Design.compile, compilePages, pictureNamed, compileNamed,
      emitComponents_eq, hbuild]
    cases d <;> decide +kernel
  exact map_eq_ok_iff.mp hfiles

theorem namesakes_nameStylesheets :
    (∃ pages, namesakes.compile { dialect := .html, wrapDocument := true } = .ok pages ∧
      pages.map (·.stylesheetFile) = ["ber-uns-co.css", "ber-uns-co-2.css", "page.css"] ∧
      NamesStylesheets pages) ∧
    ∃ pages, namesakes.compile { dialect := .jsx, wrapDocument := true } = .ok pages ∧
      pages.map (·.stylesheetFile) = ["ber-uns-co.css", "ber-uns-co-2.css", "page.css"] ∧
      NamesStylesheets pages := by
  obtain ⟨ps, hhtml, hfiles⟩ := namesakes_compiled .html
  obtain ⟨ps', hjsx, hfiles'⟩ := namesakes_compiled .jsx
  exact ⟨⟨ps, hhtml, hfiles, compile_namesStylesheets hhtml rfl⟩,
    ps', hjsx, hfiles', compile_namesStylesheets hjsx rfl⟩

end DesignCompiler
