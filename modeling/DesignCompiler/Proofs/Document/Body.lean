import DesignCompiler.Emission.Compile
import DesignCompiler.Proofs.Document.Margin

/-!
# DesignCompiler — the body of a document

A document is markup between two texts of its dialect: what stands before the body names the page and
its stylesheet, and what stands behind it is always the same.

* `body?` — the part of a document that was made from the markup;
* `render_eq` — a document is its head, the body and its end;
* `body?_render` — the body is found, whatever the page is called;
* `cuts_render` — the mark that ends a document stands nowhere else in it.
-/

namespace DesignCompiler.Document

open Markup

/-! ## Finding the body -/

/-- What stands behind the first place at which a text has a mark. -/
def afterFirst? (mark : List Char) : List Char → Option (List Char)
  | [] => none
  | c :: cs =>
    if mark.isPrefixOf (c :: cs) then some ((c :: cs).drop mark.length) else afterFirst? mark cs

/-- The line before the body. -/
def bodyStart : Dialect → String
  | .html => "<body>\n"
  | .jsx => "() \x7b\n  return (\n"

/-- The lines behind the body. -/
def bodyEnd : Dialect → String
  | .html => "</body>\n</html>\n"
  | .jsx => "  );\n\x7d\n"

/-- The blanks before every line of the body. -/
def margin : Dialect → Nat
  | .html => 2
  | .jsx => 4

/-- The lines of the body of a document. -/
def body? (d : Dialect) (document : List Char) : Option (List Char) :=
  (afterFirst? (bodyStart d).toList document).bind (·.dropSuffix? (bodyEnd d).toList)

/-- A text in which a mark does not begin. -/
def Skips (mark cs : List Char) : Prop :=
  ∀ rest, afterFirst? mark (cs ++ rest) = afterFirst? mark rest

theorem Skips.append {mark a b : List Char} (ha : Skips mark a) (hb : Skips mark b) :
    Skips mark (a ++ b) := by
  intro rest
  rw [List.append_assoc, ha, hb]

theorem skips_of_notMem {m : Char} {mark cs : List Char} (h : m ∉ cs) : Skips (m :: mark) cs := by
  intro rest
  induction cs with
  | nil => rfl
  | cons c cs ih =>
    rw [List.mem_cons, not_or] at h
    have hm : (m == c) = false := by simpa using h.1
    rw [List.cons_append, afterFirst?, List.isPrefixOf, hm, Bool.false_and, if_neg (by decide),
      ih h.2]

/-- Whether a mark begins nowhere in a text, whatever follows it: at no place is one of them the
beginning of the other. -/
def neverBegins (mark : List Char) : List Char → Bool
  | [] => true
  | c :: cs =>
    !mark.isPrefixOf (c :: cs) && !(c :: cs).isPrefixOf mark && neverBegins mark cs

theorem skips_of_neverBegins {mark cs : List Char} (h : neverBegins mark cs = true) :
    Skips mark cs := by
  intro rest
  induction cs with
  | nil => rfl
  | cons c cs ih =>
    simp only [neverBegins, Bool.and_eq_true, Bool.not_eq_true', ← Bool.not_eq_true,
      List.isPrefixOf_iff_prefix] at h
    obtain ⟨⟨hlong, hshort⟩, hcs⟩ := h
    -- a mark that begins here would go on behind the text, or end in it
    have hno : mark.isPrefixOf (c :: cs ++ rest) = false := by
      rw [← Bool.not_eq_true, List.isPrefixOf_iff_prefix]
      intro hpre
      rcases List.prefix_or_prefix_of_prefix hpre (List.prefix_append _ _) with h | h
      · exact hlong h
      · exact hshort h
    rw [List.cons_append] at hno ⊢
    rw [afterFirst?, hno, if_neg (by decide), ih hcs]

theorem afterFirst?_append {mark : List Char} (hne : mark ≠ []) (rest : List Char) :
    afterFirst? mark (mark ++ rest) = some rest := by
  obtain ⟨m, ms, rfl⟩ := List.exists_cons_of_ne_nil hne
  have hpre : (m :: ms).isPrefixOf (m :: (ms ++ rest)) = true := by
    rw [List.isPrefixOf_iff_prefix]
    exact List.prefix_append (m :: ms) rest
  rw [List.cons_append, afterFirst?, if_pos hpre, ← List.cons_append, List.drop_left]

/-! ## The head -/

def headHtml (title stylesheet : String) : String :=
  "<!DOCTYPE html>\n<html lang=\"en\">\n<head>\n  <meta charset=\"utf-8\">\n" ++
  "  <meta name=\"viewport\" content=\"width=device-width, initial-scale=1\">\n" ++
  "  <title>" ++ escapeHead title ++ "</title>\n" ++
  ("  <link rel=\"stylesheet\" href=\"" ++ escapeHead stylesheet ++ "\">\n") ++ "</head>\n"

def headJsx (title stylesheet : String) : String :=
  "import React from 'react';\nimport './" ++ stylesheet ++ "';\n\n" ++
  "export default function " ++ componentName title

/-- What stands before the line before the body. -/
def head (d : Dialect) (title stylesheet : String) : String :=
  match d with
  | .html => headHtml title stylesheet
  | .jsx => headJsx title stylesheet

/-- **A document.** The head, the line before the body, the moved markup, and the lines behind it. -/
theorem render_eq (d : Dialect) (title stylesheet markup : String) :
    render d title stylesheet markup = head d title stylesheet ++ bodyStart d ++
      (indentBlock (margin d) markup ++ "\n" ++ bodyEnd d) := by
  -- the written texts are split where the body begins and ends
  have hstart : "</head>\n<body>\n" = "</head>\n" ++ "<body>\n" := by cbv
  have hend : "\n</body>\n</html>\n" = "\n" ++ "</body>\n</html>\n" := by cbv
  have hclose : "\n  );\n\x7d\n" = "\n" ++ "  );\n\x7d\n" := by cbv
  cases d with
  | html =>
    change renderHtml title stylesheet markup = headHtml title stylesheet ++ "<body>\n" ++
      (indentBlock 2 markup ++ "\n" ++ "</body>\n</html>\n")
    unfold renderHtml headHtml
    rw [hstart, hend]
    simp only [String.append_assoc]
  | jsx =>
    change renderJsx title stylesheet markup = headJsx title stylesheet ++
      "() \x7b\n  return (\n" ++ (indentBlock 4 markup ++ "\n" ++ "  );\n\x7d\n")
    unfold renderJsx headJsx
    rw [hclose]
    simp only [String.append_assoc]

/-- A part of the head, in which neither the body begins nor the document ends. -/
structure InHead (d : Dialect) (s : String) : Prop where
  skips : Skips (bodyStart d).toList s.toList
  cuts : ∃ ms, Cuts s.toList ms ∧ closing d ∉ ms

theorem InHead.append {d : Dialect} {s t : String} (hs : InHead d s) (ht : InHead d t) :
    InHead d (s ++ t) where
  skips := by
    rw [String.toList_append]
    exact hs.skips.append ht.skips
  cuts := by
    obtain ⟨ms, hms, hin⟩ := hs.cuts
    obtain ⟨ns, hns, hin'⟩ := ht.cuts
    refine ⟨ms ++ ns, String.toList_append ▸ hms.append hns, ?_⟩
    rw [List.mem_append, not_or]
    exact ⟨hin, hin'⟩

/-- A text that is cut to its end is cut so whatever follows it. -/
theorem cuts_of_cut {body : Option (List Char)} {cs : List Char} {ms : List Mark}
    (h : cut body cs = some ms) (rest : List Char) :
    cut body (cs ++ rest) = (cut none rest).map (ms ++ ·) := by
  -- inside a tag, and outside of one
  fun_induction cut body cs generalizing ms with
  | case1 => simp_all
  | case2 => exact nomatch h
  | case3 cs ih => rw [List.cons_append, cut, if_pos rfl, ih h]
  | case4 c cs hc ih =>
    obtain ⟨ms, hms, rfl⟩ := Option.map_eq_some_iff.mp h
    rw [List.cons_append, cut, if_neg hc, ih hms, Option.map_map]
    rfl
  | case5 body cs ih =>
    obtain ⟨ms, hms, rfl⟩ := Option.map_eq_some_iff.mp h
    rw [List.cons_append, cut, if_pos rfl, ih hms, Option.map_map]
    rfl
  | case6 body c cs hc ih => rw [List.cons_append, cut, if_neg hc, ih h]

/-- Text of the head that has none of the characters that count. -/
theorem inHead_text {d : Dialect} {s : String}
    (h : ∀ c ∈ s.toList, c ≠ '<' ∧ (d = .jsx → c ≠ '(' ∧ c ≠ '\x7d')) : InHead d s where
  skips := by
    cases d with
    | html =>
      have hstart : (bodyStart .html).toList = '<' :: "body>\n".toList := by decide
      rw [hstart]
      exact skips_of_notMem fun hmem => (h _ hmem).1 rfl
    | jsx =>
      have hstart : (bodyStart .jsx).toList = '(' :: ") \x7b\n  return (\n".toList := by decide
      rw [hstart]
      exact skips_of_notMem fun hmem => ((h _ hmem).2 rfl).1 rfl
  -- one mark for each character, and none of them ends the body
  cuts := by
    refine ⟨_, cuts_chars fun c hc => (h c hc).1, fun hmem => ?_⟩
    obtain ⟨c, hc, heq⟩ := List.mem_map.mp hmem
    cases d with
    | html => exact nomatch heq
    | jsx => exact ((h c hc).2 rfl).2 (Mark.char.inj heq)

/-- Whether a text stands in the head can be evaluated. -/
theorem inHead_of_all {d : Dialect} {s : String}
    (hskips : neverBegins (bodyStart d).toList s.toList = true)
    (hcut : ∃ ms ∈ cut none s.toList, closing d ∉ ms) : InHead d s where
  skips := skips_of_neverBegins hskips
  cuts := by
    obtain ⟨ms, hms, hin⟩ := hcut
    exact ⟨ms, cuts_of_cut hms, hin⟩

/-! ## Names in the head -/

theorem mem_escapeHead {s : String} {c : Char} (h : c ∈ (escapeHead s).toList) :
    c ≠ '<' ∧ c ≠ '>' := by
  rw [escapeHead, String.toList_ofList, List.mem_flatMap] at h
  obtain ⟨x, -, hx⟩ := h
  unfold escapeHeadChar at hx
  split at hx
  case h_7 hlt hgt _ _ _ =>
    rw [List.mem_singleton.mp hx]
    exact ⟨hlt, hgt⟩
  -- no entity has such a sign
  all_goals constructor <;> rintro rfl <;> exact absurd hx (by decide)

theorem isAlphanum_toUpper {c : Char} (h : c.isAlphanum = true) : c.toUpper.isAlphanum = true := by
  by_cases hlower : c.isLower = true
  · have halpha : c.isAlpha = true := by simp [Char.isAlpha, hlower]
    rw [Char.isAlphanum, Char.isAlpha_toUpper_eq_isAlpha, halpha, Bool.true_or]
  · rwa [Char.toUpper_eq_of_not_isLower hlower]

/-- The name of a component is made of letters and digits. -/
theorem isAlphanum_of_mem_componentName {title : String} {c : Char}
    (h : c ∈ (componentName title).toList) : c.isAlphanum = true := by
  have hname : ∀ x ∈ (Text.words Char.isAlphanum title.toList).flatMap capitalize,
      x.isAlphanum = true := by
    intro x hx
    obtain ⟨word, hword, hx⟩ := List.mem_flatMap.mp hx
    have hall : ∀ y ∈ word, y.isAlphanum = true := fun y hy => Text.mem_of_mem_words hword hy
    cases word with
    | nil => simp [capitalize] at hx
    | cons y ys =>
      rcases List.mem_cons.mp hx with rfl | hx
      · exact isAlphanum_toUpper (hall y (List.mem_cons_self ..))
      · exact hall x (List.mem_cons_of_mem _ hx)
  have hpage : ∀ x ∈ "Page".toList, x.isAlphanum = true := by simp
  unfold componentName at h
  simp only at h
  -- the name is `Page` alone, `Page` before a digit, or the words
  split at h
  · exact hpage c h
  · split at h
    · rw [String.toList_append, List.mem_append] at h
      rcases h with h | h
      · exact hpage c h
      · rw [String.toList_ofList] at h
        exact hname c h
    · rw [String.toList_ofList] at h
      exact hname c h

/-- A character that can be in the name of a stylesheet's file. -/
def isFileChar (c : Char) : Bool :=
  ClassName.isPrefixChar c || c == '.'

/-- The name of the file of a stylesheet has no signs but dots. -/
theorem isFileChar_of_mem {slug : String} (h : ClassName.isClassName slug) :
    ∀ c ∈ (stylesheetFile slug).toList, isFileChar c = true := by
  intro c hc
  rw [stylesheetFile, String.toList_append, List.mem_append] at hc
  rcases hc with hc | hc
  · rw [isFileChar, h c hc, Bool.true_or]
  · have hext : (".css".toList.all isFileChar) = true := by decide
    exact List.all_eq_true.mp hext c hc

theorem mem_stylesheetFile {slug : String} (h : ClassName.isClassName slug) {c : Char}
    (hc : c ∈ (stylesheetFile slug).toList) : c ≠ '<' ∧ c ≠ '(' ∧ c ≠ '\x7d' := by
  have hfile := isFileChar_of_mem h c hc
  refine ⟨?_, ?_, ?_⟩ <;> rintro rfl <;> exact absurd hfile (by decide)

/-- The tag that links a stylesheet. -/
theorem inHead_link (s : String) :
    InHead .html ("  <link rel=\"stylesheet\" href=\"" ++ escapeHead s ++ "\">\n") where
  skips := by
    have hbefore : Skips (bodyStart .html).toList "  <link rel=\"stylesheet\" href=\"".toList :=
      skips_of_neverBegins (by decide +kernel)
    have hname : InHead .html (escapeHead s) :=
      inHead_text fun c hc => ⟨(mem_escapeHead hc).1, nofun⟩
    have hbehind : Skips (bodyStart .html).toList "\">\n".toList := skips_of_neverBegins (by decide +kernel)
    rw [String.toList_append, String.toList_append]
    exact (hbefore.append hname.skips).append hbehind
  cuts := by
    -- the name is part of the tag
    let body := "link rel=\"stylesheet\" href=\"".toList ++ (escapeHead s).toList ++ ['"']
    have hgt : ∀ c ∈ body, c ≠ '>' := by
      intro c hc
      simp only [body, List.mem_append] at hc
      rcases hc with (hc | hc) | hc
      · exact (by simp : ∀ x ∈ "link rel=\"stylesheet\" href=\"".toList, x ≠ '>') c hc
      · exact (mem_escapeHead hc).2
      · exact List.mem_singleton.mp hc ▸ by decide
    have hcuts : Cuts (List.replicate 2 ' ' ++ ('<' :: body ++ ['>'] ++ ['\n']))
        (List.replicate 2 (.char ' ') ++ ([.tag body] ++ [.char '\n'])) :=
      (cuts_blanks 2).append ((cuts_tag hgt).append cuts_newline)
    have htext : ("  <link rel=\"stylesheet\" href=\"" ++ escapeHead s ++ "\">\n").toList =
        List.replicate 2 ' ' ++ ('<' :: body ++ ['>'] ++ ['\n']) := by
      simp [body, String.toList_append]
    exact ⟨_, htext ▸ hcuts, by simp [closing, body]⟩

/-- The head is the same text for all pages but for their names. -/
theorem inHead_head (d : Dialect) (title : String) {slug : String}
    (h : ClassName.isClassName slug) : InHead d (head d title (stylesheetFile slug)) := by
  cases d with
  | html =>
    have htitle : InHead .html (escapeHead title) :=
      inHead_text fun c hc => ⟨(mem_escapeHead hc).1, nofun⟩
    have hbegin : InHead .html ("<!DOCTYPE html>\n<html lang=\"en\">\n<head>\n" ++
        "  <meta charset=\"utf-8\">\n" ++
        "  <meta name=\"viewport\" content=\"width=device-width, initial-scale=1\">\n" ++
        "  <title>") := inHead_of_all (by decide +kernel) (by decide +kernel)
    have hbehind : InHead .html "</title>\n" := inHead_of_all (by decide +kernel) (by decide +kernel)
    have hend : InHead .html "</head>\n" := inHead_of_all (by decide +kernel) (by decide +kernel)
    -- what stands around the title and the link is fixed
    exact (((hbegin.append htitle).append hbehind).append (inHead_link _)).append hend
  | jsx =>
    -- of the head only the file and the name of the component are not fixed
    have hplain : ∀ s : String, (s.toList.all fun c => c != '<' && c != '(' && c != '\x7d') = true →
        InHead .jsx s := by
      intro s hs
      refine inHead_text fun c hc => ?_
      simpa [and_assoc] using List.all_eq_true.mp hs c hc
    have hname : InHead .jsx (componentName title) := by
      refine inHead_text fun c hc => ?_
      have halphanum := isAlphanum_of_mem_componentName hc
      refine ⟨?_, fun _ => ⟨?_, ?_⟩⟩ <;> rintro rfl <;> exact absurd halphanum (by decide)
    have hfile : InHead .jsx (stylesheetFile slug) :=
      inHead_text fun c hc => (mem_stylesheetFile h hc).imp_right fun h _ => h
    exact ((((hplain _ (by decide +kernel)).append hfile).append (hplain _ (by decide +kernel))).append
      (hplain _ (by decide +kernel))).append hname

/-! ## The whole document -/

theorem cuts_bodyStart (d : Dialect) : ∃ ms, Cuts (bodyStart d).toList ms ∧ closing d ∉ ms := by
  have hcut : ∃ ms ∈ cut none (bodyStart d).toList, closing d ∉ ms := by
    cases d <;> decide +kernel
  obtain ⟨ms, hms, hin⟩ := hcut
  exact ⟨ms, cuts_of_cut hms, hin⟩

theorem cuts_bodyEnd (d : Dialect) :
    ∃ ms, Cuts (bodyEnd d).toList (ms ++ [closing d, .char '\n']) ∧ closing d ∉ ms := by
  have hcut : ∃ ms, cut none (bodyEnd d).toList = some (ms ++ [closing d, .char '\n']) ∧
      closing d ∉ ms := by
    cases d with
    | html => exact ⟨[.tag ['/', 'b', 'o', 'd', 'y'], .char '\n'], by decide +kernel⟩
    | jsx => exact ⟨[' ', ' ', ')', ';', '\n'].map .char, by decide +kernel⟩
  obtain ⟨ms, hms, hin⟩ := hcut
  exact ⟨ms, cuts_of_cut hms, hin⟩

section Render

variable {d : Dialect} {slug : String} (h : ClassName.isClassName slug) (title markup : String)

include h

/-- **The body is found.** It is the markup with its lines moved, whatever the page is called. -/
theorem body?_render :
    body? d (render d title (stylesheetFile slug) markup).toList =
      some ((indentBlock (margin d) markup).toList ++ ['\n']) := by
  have hne : (bodyStart d).toList ≠ [] := by cases d <;> decide
  have hafter : afterFirst? (bodyStart d).toList
      (render d title (stylesheetFile slug) markup).toList =
      some ((indentBlock (margin d) markup).toList ++ ['\n'] ++ (bodyEnd d).toList) := by
    rw [render_eq, String.toList_append, String.toList_append, List.append_assoc,
      (inHead_head d title h).skips, afterFirst?_append hne, String.toList_append,
      String.toList_append]
    rfl
  rw [body?, hafter, Option.bind_some, List.dropSuffix?_eq_some_iff]
  exact ⟨_, rfl, beq_self_eq_true _⟩

/-- The mark that ends a document stands only at its end, if it does not stand in the body. -/
theorem cuts_render {ns : List Mark}
    (hbody : Cuts ((indentBlock (margin d) markup).toList ++ ['\n']) ns) (hns : closing d ∉ ns) :
    ∃ ms, Cuts (render d title (stylesheetFile slug) markup).toList
      (ms ++ [closing d, .char '\n']) ∧ closing d ∉ ms := by
  obtain ⟨hs, hhead, hin⟩ := (inHead_head d title h).cuts
  obtain ⟨ss, hss, hin'⟩ := cuts_bodyStart d
  obtain ⟨es, hes, hin''⟩ := cuts_bodyEnd d
  refine ⟨hs ++ ss ++ (ns ++ es), ?_, ?_⟩
  · rw [render_eq, String.toList_append, String.toList_append, String.toList_append,
      String.toList_append]
    have hall := (hhead.append hss).append (hbody.append hes)
    simp only [List.append_assoc] at hall ⊢
    exact hall
  · simp only [List.mem_append, not_or]
    exact ⟨⟨hin, hin'⟩, hns, hin''⟩

end Render

end DesignCompiler.Document
