import DesignCompiler.Proofs.Document.Links

/-!
# DesignCompiler — names that a module declares

A JSX module imports `React`, and exports a component that is named after its page. The markup of
the page has no braces, so no other name is declared, and the two are different ones unless the page
is called `React` itself.

* `declaredNames` — the names at the top level of a module;
* `IsComponentName`, `SaysReact` — names of components, and the titles of which `React` is made;
* `Braceless`, `braceless_rendering` — the markup of a page in JSX;
* `componentName_eq_react_iff` — which titles take the name that is imported;
* `render_declares` — what the modules of all pages declare.
-/

namespace DesignCompiler.Document

open Markup

/-! ## Reading what a module declares -/

/-- What stands outside all braces. -/
def outside : (depth : Nat) → List Char → List Char
  | _, [] => []
  | depth, c :: cs =>
    if c = '\x7b' then outside (depth + 1) cs
    else if c = '\x7d' then outside (depth - 1) cs
    else if depth = 0 then c :: outside depth cs
    else outside depth cs

def isIdentifierChar (c : Char) : Bool :=
  c.isAlphanum || c == '_' || c == '$'

/-- The name that a text begins with. -/
def leadingName? (text : List Char) : Option String :=
  let name := text.takeWhile isIdentifierChar
  if name = [] then none else some (String.ofList name)

/-- The name that a line at the top level declares. No other lines than these may stand there: empty
ones, imports, and the beginning of the exported function. -/
def declaredBy (line : List Char) : Option (Option String) :=
  if line = [] then some none
  else ((line.dropPrefix? "import ".toList).or
    (line.dropPrefix? "export default function ".toList)).map leadingName?

/-- The names that a module declares at its top level. -/
def declaredNames (module : List Char) : Option (List String) :=
  ((Text.pieces '\n' (outside 0 module)).mapM declaredBy).map List.reduceOption

/-- A capital letter, and then letters and digits of ASCII. -/
def IsComponentName (name : String) : Prop :=
  ∃ c cs, name.toList = c :: cs ∧ c.isUpper = true ∧ ∀ d ∈ cs, d.isAlphanum = true

/-- A title with `React` as its only word. Its first letter may be a small one. -/
def SaysReact (title : String) : Prop :=
  ∃ before word after, title.toList = before ++ word ++ after ∧
    (word = "React".toList ∨ word = "react".toList) ∧
    ∀ c ∈ before ++ after, c.isAlphanum = false

/-! ## Texts without braces -/

/-- A text that opens and closes nothing. -/
def Braceless (cs : List Char) : Prop :=
  ∀ c ∈ cs, c ≠ '\x7b' ∧ c ≠ '\x7d'

theorem Braceless.append {a b : List Char} (ha : Braceless a) (hb : Braceless b) :
    Braceless (a ++ b) := by
  intro c hc
  rcases List.mem_append.mp hc with hc | hc
  · exact ha c hc
  · exact hb c hc

theorem Braceless.flatMap {α : Type} {xs : List α} {f : α → List Char}
    (h : ∀ x ∈ xs, Braceless (f x)) : Braceless (xs.flatMap f) := by
  intro c hc
  obtain ⟨x, hx, hc⟩ := List.mem_flatMap.mp hc
  exact h x hx c hc

theorem Braceless.intercalate {sep : List Char} {ls : List (List Char)} (hsep : Braceless sep)
    (h : ∀ l ∈ ls, Braceless l) : Braceless (sep.intercalate ls) := by
  intro c hc
  rcases Text.mem_intercalate hc with hc | ⟨l, hl, hc⟩
  · exact hsep c hc
  · exact h l hl c hc

theorem braceless_replicate (n : Nat) {c : Char} (h : Braceless [c]) :
    Braceless (List.replicate n c) := by
  intro d hd
  exact h d (List.mem_singleton.mpr (List.eq_of_mem_replicate hd))

/-- Whether a text is without braces can be evaluated. -/
theorem braceless_of_all {cs : List Char}
    (h : (cs.all fun c => c != '\x7b' && c != '\x7d') = true) : Braceless cs := by
  intro c hc
  simpa using List.all_eq_true.mp h c hc

theorem outside_append {a : List Char} (ha : Braceless a) (depth : Nat) (b : List Char) :
    outside depth (a ++ b) = (if depth = 0 then a else []) ++ outside depth b := by
  induction a with
  | nil => simp
  | cons c a ih =>
    obtain ⟨hopen, hclose⟩ := ha c (List.mem_cons_self ..)
    have hrest := ih fun d hd => ha d (List.mem_cons_of_mem _ hd)
    rw [List.cons_append, outside, if_neg hopen, if_neg hclose, hrest]
    split
    · rfl
    · rfl

theorem outside_open (depth : Nat) (cs : List Char) :
    outside depth ('\x7b' :: cs) = outside (depth + 1) cs := by
  rw [outside, if_pos rfl]

theorem outside_close (depth : Nat) (cs : List Char) :
    outside depth ('\x7d' :: cs) = outside (depth - 1) cs := by
  rw [outside, if_neg (by decide), if_pos rfl]

/-- A text in braces is not outside of them. -/
theorem outside_block {a inner b : List Char} (ha : Braceless a) (hinner : Braceless inner) :
    outside 0 (a ++ '\x7b' :: (inner ++ '\x7d' :: b)) = a ++ outside 0 b := by
  rw [outside_append ha, outside_open, outside_append hinner, outside_close]
  rfl

/-! ## Markup in JSX -/

/-- Braces are escaped in texts. -/
theorem braceless_escapeTextChar (c : Char) : Braceless (escapeTextChar .jsx c) := by
  unfold escapeTextChar
  split
  case h_6 hopen hclose =>
    intro d hd
    rw [List.mem_singleton.mp hd]
    exact ⟨fun heq => hopen heq rfl, fun heq => hclose heq rfl⟩
  all_goals exact braceless_of_all (by decide)

theorem braceless_escapeText (cs : List Char) : Braceless (escapeText .jsx cs) :=
  .flatMap fun c _ => braceless_escapeTextChar c

theorem braceless_escapeValue (cs : List Char) : Braceless (escapeValue .jsx cs) := by
  refine .flatMap fun c _ => ?_
  rw [escapeValueChar]
  split
  · exact braceless_of_all (by decide)
  · exact braceless_escapeTextChar c

theorem braceless_attributeText {a : Attribute} (hname : Braceless a.1.toList) :
    Braceless (attributeText .jsx a) := by
  have hblank : Braceless [' '] := braceless_of_all (by decide)
  have hequals : Braceless ['=', '"'] := braceless_of_all (by decide)
  have hend : Braceless ['"'] := braceless_of_all (by decide)
  obtain ⟨name, _ | value⟩ := a
  · exact hblank.append hname
  · exact (((hblank.append hname).append hequals).append (braceless_escapeValue _)).append hend

/-- Names of tags and attributes come from short lists. -/
theorem braceless_of_mem {names : List String} {w : String}
    (hnames : ∀ w ∈ names, (w.toList.all fun c => c != '\x7b' && c != '\x7d') = true)
    (h : w ∈ names) : Braceless w.toList :=
  braceless_of_all (hnames w h)

theorem braceless_tag (e : PageElement) : Braceless e.tag.toList :=
  braceless_of_mem (by decide) (tag_mem e)

theorem braceless_openTag {e : PageElement} (hclass : ClassName.isClassName e.className) :
    Braceless (openTag .jsx e) := by
  rw [openTag_eq .jsx hclass, startBody]
  have hopen : Braceless ['<'] := braceless_of_all (by decide)
  have hclassName : Braceless Dialect.jsx.classAttribute.toList := braceless_of_all (by decide)
  have hattributes : ∀ a ∈ e.attributes .jsx, Braceless (attributeText .jsx a) := by
    intro a ha
    refine braceless_attributeText ?_
    rcases List.mem_cons.mp ha with rfl | ha
    · exact hclassName
    · exact braceless_of_mem (by decide) (name_mem_ownAttributes e a ha)
  exact hopen.append ((braceless_tag e).append (.flatMap hattributes))

theorem braceless_startTag {e : PageElement} (hclass : ClassName.isClassName e.className) :
    Braceless (startTag .jsx e) :=
  (braceless_openTag hclass).append (braceless_of_all (by decide))

theorem braceless_endTag (e : PageElement) : Braceless (endTag e) :=
  ((braceless_of_all (by decide)).append (braceless_tag e)).append (braceless_of_all (by decide))

theorem braceless_content (lines : List (List Char)) : Braceless (content .jsx lines) := by
  refine .intercalate (braceless_of_all (by decide)) fun l hl => ?_
  obtain ⟨text, -, rfl⟩ := List.mem_map.mp hl
  exact braceless_escapeText text

theorem braceless_leaf {e : PageElement} (hclass : ClassName.isClassName e.className) :
    Braceless (leaf .jsx e) := by
  unfold leaf
  split
  · exact ((braceless_startTag hclass).append (braceless_content _)).append (braceless_endTag e)
  · exact (braceless_openTag hclass).append (braceless_of_all (by decide))
  · rename_i hdialect
    exact nomatch hdialect

theorem braceless_line (indent depth : Nat) {text : List Char} (h : Braceless text) :
    Braceless (line indent depth text) :=
  ((braceless_replicate _ (braceless_of_all (by decide))).append h).append
    (braceless_of_all (by decide))

theorem braceless_opening {s : Settings} (hd : s.dialect = .jsx) (depth : Nat) {e : PageElement}
    (hclass : ClassName.isClassName e.className) : Braceless (opening s depth e) := by
  rw [opening, hd]
  refine (braceless_line _ _ (braceless_startTag hclass)).append ?_
  split
  · exact braceless_line _ _ (braceless_content _)
  · exact braceless_of_all rfl

/-- The markup of a page has no braces. -/
theorem braceless_rendering {s : Settings} (hd : s.dialect = .jsx) (depth : Nat)
    {f : Forest PageElement} (hclass : ∀ e ∈ f.labels, ClassName.isClassName e.className) :
    Braceless (rendering s depth f) := by
  fun_induction rendering s depth f with
  | case1 => exact braceless_of_all rfl
  | case2 depth e rest ih =>
    obtain ⟨he, hrest⟩ := List.forall_mem_cons.mp hclass
    rw [hd]
    exact (braceless_line _ _ (braceless_leaf he)).append (ih hrest)
  | case3 depth e a below others rest ihb ihr =>
    obtain ⟨he, hlabels⟩ := List.forall_mem_cons.mp hclass
    obtain ⟨hbelow, hrest⟩ := List.forall_mem_append.mp hlabels
    exact (((braceless_opening hd _ he).append (ihb hbelow)).append
      (braceless_line _ _ (braceless_endTag e))).append (ihr hrest)

/-! ## The body of a module -/

theorem mem_of_mem_dropReturn {l : List Char} {c : Char} (h : c ∈ dropReturn l) : c ∈ l := by
  unfold dropReturn at h
  split at h
  · rename_i rest heq
    rw [List.mem_reverse] at h
    rw [← List.mem_reverse, heq]
    exact List.mem_cons_of_mem _ h
  · exact h

theorem mem_of_mem_lines {cs l : List Char} (hl : l ∈ lines cs) {c : Char} (hc : c ∈ l) :
    c ∈ cs := by
  rcases List.mem_append.mp hl with hl | hl
  · obtain ⟨p, hp, rfl⟩ := List.mem_map.mp hl
    exact Text.mem_of_mem_pieces (List.mem_of_mem_dropLast hp) (mem_of_mem_dropReturn hc)
  · obtain ⟨hl, -⟩ := List.mem_filter.mp hl
    exact Text.mem_of_mem_pieces (List.mem_of_getLast? (Option.mem_toList.mp hl)) hc

/-- Moving a text to the right adds blanks only. -/
theorem braceless_indentBlock (w : Nat) {text : String} (h : Braceless text.toList) :
    Braceless (indentBlock w text).toList := by
  rw [indentBlock, String.toList_ofList]
  refine .intercalate (braceless_of_all (by decide)) fun l hl => ?_
  obtain ⟨line, hline, rfl⟩ := List.mem_map.mp hl
  split
  · exact braceless_of_all rfl
  · exact (braceless_replicate _ (braceless_of_all (by decide))).append
      fun c hc => h c (mem_of_mem_lines hline hc)

/-! ## Names of components -/

/-- In upper case a letter or digit is a capital letter unless it is a digit. -/
theorem isUpper_toUpper {c : Char} (h : c.isAlphanum = true) (hdigit : c.toUpper.isDigit = false) :
    c.toUpper.isUpper = true := by
  have halphanum := isAlphanum_toUpper h
  rw [Char.isAlphanum, Char.isAlpha, Char.isLower_toUpper_eq_false, hdigit, Bool.or_false,
    Bool.or_false] at halphanum
  exact halphanum

/-- The words of a title, put together, begin with a letter or a digit in upper case. -/
theorem exists_capitalized {title : String} {w : List Char} {ws : List (List Char)}
    (h : Text.words Char.isAlphanum title.toList = w :: ws) :
    ∃ x xs, w = x :: xs ∧ x.isAlphanum = true ∧
      (w :: ws).flatMap capitalize = x.toUpper :: (xs ++ ws.flatMap capitalize) := by
  have hmem : w ∈ Text.words Char.isAlphanum title.toList := h ▸ List.mem_cons_self ..
  obtain ⟨x, xs, rfl⟩ := List.exists_cons_of_ne_nil (Text.ne_nil_of_mem_words hmem)
  exact ⟨x, xs, rfl, Text.mem_of_mem_words hmem (List.mem_cons_self ..), rfl⟩

/-- A name begins with a capital, whatever the title is. -/
theorem head?_componentName (title : String) :
    ∃ c ∈ (componentName title).toList.head?, c.isUpper = true := by
  have hpage : ∀ cs : String, ∃ c ∈ ("Page" ++ cs).toList.head?, c.isUpper = true := by
    intro cs
    exact ⟨'P', by simp, by decide⟩
  cases hwords : Text.words Char.isAlphanum title.toList with
  | nil =>
    simp only [componentName, hwords, List.flatMap_nil]
    exact hpage ""
  | cons w ws =>
    obtain ⟨x, xs, -, hx, hname⟩ := exists_capitalized hwords
    simp only [componentName, hwords, hname]
    -- a name that would begin with a digit gets `Page` in front
    by_cases hdigit : x.toUpper.isDigit = true
    · rw [if_pos hdigit]
      exact hpage _
    · rw [if_neg hdigit, String.toList_ofList]
      exact ⟨_, rfl, isUpper_toUpper hx (Bool.not_eq_true _ ▸ hdigit)⟩

theorem componentName_isComponentName (title : String) : IsComponentName (componentName title) := by
  obtain ⟨c, hc, hupper⟩ := head?_componentName title
  obtain ⟨cs, hcs⟩ := List.head?_eq_some_iff.mp hc
  refine ⟨c, cs, hcs, hupper, fun d hd => ?_⟩
  exact isAlphanum_of_mem_componentName (hcs ▸ List.mem_cons_of_mem _ hd)

/-- Only two letters have this capital. -/
theorem toUpper_eq_iff {c : Char} : c.toUpper = 'R' ↔ c = 'R' ∨ c = 'r' := by
  constructor
  · intro h
    by_cases hlower : c.isLower = true
    · -- a small letter is the small letter of its capital
      have hback : c.toUpper.toLower = c.toLower := Char.toLower_toUpper_eq_toLower c
      rw [h, Char.toLower_eq_of_not_isUpper (Char.not_isUpper_of_isLower hlower)] at hback
      exact Or.inr hback.symm
    · exact Or.inl ((Char.toUpper_eq_of_not_isLower hlower).symm.trans h)
  · rintro (rfl | rfl)
    · decide
    · decide

/-- Nothing is put in front of the words that become this name. -/
theorem flatMap_capitalize_of_componentName {title : String} (h : componentName title = "React") :
    (Text.words Char.isAlphanum title.toList).flatMap capitalize = "React".toList := by
  unfold componentName at h
  simp only at h
  split at h
  · exact absurd h (by decide)
  · split at h
    · -- with `Page` in front it does not begin with an `R`
      exact absurd (congrArg (fun name => name.toList.head?) h) (by simp)
    · rw [← h, String.toList_ofList]

/-- Only one word, with a small or a capital letter, becomes this name. -/
theorem exists_word_of_flatMap {title : String}
    (h : (Text.words Char.isAlphanum title.toList).flatMap capitalize = "React".toList) :
    ∃ w, (w = "React".toList ∨ w = "react".toList) ∧
      Text.words Char.isAlphanum title.toList = [w] := by
  cases hwords : Text.words Char.isAlphanum title.toList with
  | nil =>
    rw [hwords] at h
    exact absurd h (by decide)
  | cons w ws =>
    obtain ⟨x, xs, rfl, -, hname⟩ := exists_capitalized hwords
    rw [hwords, hname] at h
    obtain ⟨hx, hxs⟩ : x.toUpper = 'R' ∧ xs ++ ws.flatMap capitalize = "eact".toList := by
      simpa using h
    cases ws with
    | nil =>
      rw [List.flatMap_nil, List.append_nil] at hxs
      refine ⟨x :: xs, ?_, rfl⟩
      rw [hxs]
      rcases toUpper_eq_iff.mp hx with rfl | rfl
      · exact Or.inl (by simp)
      · exact Or.inr (by simp)
    | cons v vs =>
      -- a second word would begin with a capital or a digit among the small letters
      have hv : v ∈ Text.words Char.isAlphanum title.toList := by simp [hwords]
      obtain ⟨y, ys, rfl⟩ := List.exists_cons_of_ne_nil (Text.ne_nil_of_mem_words hv)
      have hmem : y.toUpper ∈ "eact".toList := by
        rw [← hxs]
        simp [capitalize]
      have hlower : ∀ c ∈ "eact".toList, c.isLower = true := by simp
      exact absurd ((Char.isLower_toUpper_eq_false y).symm.trans (hlower _ hmem)) (by decide)

/-- The title whose only word is the name that is imported, and no other. -/
theorem componentName_eq_react_iff {title : String} :
    componentName title = "React" ↔ SaysReact title := by
  have hwords : ∀ w : List Char, w = "React".toList ∨ w = "react".toList →
      w ≠ [] ∧ ∀ c ∈ w, c.isAlphanum = true := by
    rintro w (rfl | rfl)
    · simp
    · simp
  -- `React` has one capital, so it comes from one word
  constructor
  · intro h
    obtain ⟨w, hw, hsingle⟩ := exists_word_of_flatMap (flatMap_capitalize_of_componentName h)
    obtain ⟨before, after, htitle, hnone, -⟩ := Text.words_eq_singleton_iff.mp hsingle
    exact ⟨before, w, after, htitle, hw, hnone⟩
  · rintro ⟨before, w, after, htitle, hw, hnone⟩
    have hsingle := Text.words_eq_singleton_iff.mpr ⟨before, after, htitle, hnone, hwords w hw⟩
    simp only [componentName, hsingle]
    rcases hw with rfl | rfl
    · decide +kernel
    · decide +kernel

/-! ## Modules -/

theorem leadingName?_append {name rest : List Char} (hname : ∀ c ∈ name, isIdentifierChar c = true)
    (hne : name ≠ []) (hrest : ∀ c ∈ rest.head?, isIdentifierChar c = false) :
    leadingName? (name ++ rest) = some (String.ofList name) := by
  simp only [leadingName?, takeWhile_append_stop hname hrest, if_neg hne]

theorem dropPrefix?_append (word text : List Char) :
    (word ++ text).dropPrefix? word = some text := by
  rw [List.dropPrefix?_eq_some_iff]
  exact ⟨word, rfl, beq_self_eq_true _⟩

theorem declaredBy_import (text : List Char) :
    declaredBy ("import ".toList ++ text) = some (leadingName? text) := by
  rw [declaredBy, if_neg (by simp), dropPrefix?_append, Option.some_or, Option.map_some]

theorem declaredBy_function (text : List Char) :
    declaredBy ("export default function ".toList ++ text) = some (leadingName? text) := by
  have hdrop : ("export default function ".toList ++ text).dropPrefix? "import ".toList = none := by
    rw [Option.eq_none_iff_forall_ne_some]
    intro rest hrest
    obtain ⟨start, heq, hstart⟩ := List.dropPrefix?_eq_some_iff.mp hrest
    rw [beq_iff_eq.mp hstart] at heq
    exact absurd (congrArg List.head? heq) (by simp)
  rw [declaredBy, if_neg (by simp), hdrop, Option.none_or, dropPrefix?_append, Option.map_some]

/-- The line that imports the stylesheet declares no name. -/
theorem declaredBy_reference (file : String) :
    declaredBy (reference .jsx file).toList = some none := by
  have hline : (reference .jsx file).toList =
      "import ".toList ++ ("'./".toList ++ (file.toList ++ "';".toList)) := by
    rw [reference_jsx]
    simp
  rw [hline, declaredBy_import]
  rfl

/-- The line that begins the component, up to its brace. -/
def exportLine (title : String) : String :=
  "export default function " ++ componentName title ++ "() "

theorem declaredBy_exportLine (title : String) :
    declaredBy (exportLine title).toList = some (some (componentName title)) := by
  have hname : ∀ c ∈ (componentName title).toList, isIdentifierChar c = true := by
    intro c hc
    rw [isIdentifierChar, isAlphanum_of_mem_componentName hc]
    rfl
  have hne : (componentName title).toList ≠ [] := by
    obtain ⟨c, hc, -⟩ := head?_componentName title
    intro hnil
    rw [hnil] at hc
    exact nomatch hc
  -- the name ends where the parentheses begin
  have hrest : ∀ c ∈ "() ".toList.head?, isIdentifierChar c = false := by
    simp [isIdentifierChar]
  have hline := declaredBy_function ((componentName title).toList ++ "() ".toList)
  rw [leadingName?_append hname hne hrest, String.ofList_toList, ← String.toList_append,
    ← String.toList_append, ← String.append_assoc] at hline
  exact hline

/-- The lines before the brace of a module. -/
def moduleHead (title file : String) : List String :=
  ["import React from 'react';", reference .jsx file, "", exportLine title]

/-- The lines in the braces of a module. -/
def functionLines (markup : String) : List String :=
  ["", "  return (", indentBlock 4 markup, "  );", ""]

theorem renderJsx_eq_block (title file markup : String) :
    renderJsx title file markup = "\n".intercalate (moduleHead title file) ++ "\x7b" ++
      ("\n".intercalate (functionLines markup) ++ "\x7d" ++ "\n") := by
  have hexport : "() \x7b" = "() " ++ "\x7b" := by cbv
  unfold moduleHead functionLines exportLine
  simp only [renderJsx_eq, hexport, String.intercalate_cons_cons, String.intercalate_singleton,
    String.append_assoc, String.empty_append, String.append_empty]

section Module

variable {file : String} (hfile : ∀ c ∈ file.toList, isFileChar c = true)

include hfile

/-- No line before the brace has a brace or a line feed in it. -/
theorem plain_moduleHead (title : String) :
    ∀ l ∈ moduleHead title file, Braceless l.toList ∧ '\n' ∉ l.toList := by
  have hfileChar : ∀ c ∈ file.toList, (c ≠ '\x7b' ∧ c ≠ '\x7d') ∧ c ≠ '\n' := by
    intro c hc
    have h := hfile c hc
    refine ⟨⟨?_, ?_⟩, ?_⟩ <;> rintro rfl <;> exact absurd h (by decide)
  have hnameChar : ∀ c ∈ (componentName title).toList, (c ≠ '\x7b' ∧ c ≠ '\x7d') ∧ c ≠ '\n' := by
    intro c hc
    have h := isAlphanum_of_mem_componentName hc
    refine ⟨⟨?_, ?_⟩, ?_⟩ <;> rintro rfl <;> exact absurd h (by decide)
  -- all other characters of the head are fixed
  have hchars : ∀ l ∈ moduleHead title file,
      ∀ c ∈ l.toList, (c ≠ '\x7b' ∧ c ≠ '\x7d') ∧ c ≠ '\n' := by
    simp only [moduleHead, List.forall_mem_cons, List.not_mem_nil, false_imp_iff, implies_true,
      and_true]
    refine ⟨by simp, ?_, by simp, ?_⟩
    · rw [reference_jsx]
      simp only [String.toList_append, List.forall_mem_append]
      exact ⟨⟨by simp, hfileChar⟩, by simp⟩
    · unfold exportLine
      simp only [String.toList_append, List.forall_mem_append]
      exact ⟨⟨by simp, hnameChar⟩, by simp⟩
  intro l hl
  exact ⟨fun c hc => (hchars l hl c hc).1, fun hc => (hchars l hl _ hc).2 rfl⟩

/-- Nothing but the lines before the brace is at the top level of a module. -/
theorem outside_renderJsx (title : String) {markup : String} (hmarkup : Braceless markup.toList) :
    outside 0 (renderJsx title file markup).toList =
      ("\n".intercalate (moduleHead title file)).toList ++ ['\n'] := by
  have hnewline : Braceless "\n".toList := braceless_of_all (by decide)
  have hhead : Braceless ("\n".intercalate (moduleHead title file)).toList := by
    rw [String.toList_intercalate]
    refine .intercalate hnewline fun l hl => ?_
    obtain ⟨line, hline, rfl⟩ := List.mem_map.mp hl
    exact (plain_moduleHead hfile title line hline).1
  have hbody : Braceless ("\n".intercalate (functionLines markup)).toList := by
    rw [String.toList_intercalate]
    refine .intercalate hnewline ?_
    simp only [functionLines, List.map_cons, List.map_nil, List.forall_mem_cons, List.not_mem_nil,
      false_imp_iff, implies_true, and_true]
    exact ⟨braceless_of_all (by simp), braceless_of_all (by simp),
      braceless_indentBlock 4 hmarkup, braceless_of_all (by simp), braceless_of_all (by simp)⟩
  have hopen : "\x7b".toList = ['\x7b'] := by cbv
  have hclose : "\x7d".toList = ['\x7d'] := by cbv
  have hend : "\n".toList = ['\n'] := by cbv
  -- so all braces in the module are those around the body
  rw [renderJsx_eq_block]
  simp only [String.toList_append, hopen, hclose, hend, List.append_assoc, List.singleton_append]
  rw [outside_block hhead hbody]
  rfl

/-- **A module declares two names.** They are that of the import and that of the page. -/
theorem declaredNames_renderJsx (title : String) {markup : String}
    (hmarkup : Braceless markup.toList) :
    declaredNames (renderJsx title file markup).toList = some ["React", componentName title] := by
  have hpieces : Text.pieces '\n' (outside 0 (renderJsx title file markup).toList) =
      (moduleHead title file).map String.toList ++ [[]] := by
    have hend : "\n".toList = ['\n'] := by cbv
    rw [outside_renderJsx hfile title hmarkup, Text.pieces_append, String.toList_intercalate, hend,
      Text.pieces_intercalate]
    · rfl
    · simp [moduleHead]
    · intro l hl
      obtain ⟨line, hline, rfl⟩ := List.mem_map.mp hl
      exact (plain_moduleHead hfile title line hline).2
  -- the four lines of the head, and the empty one behind them
  have hreact : declaredBy "import React from 'react';".toList = some (some "React") := by cbv
  have hempty : declaredBy [] = some none := rfl
  have hblank : declaredBy "".toList = some none := rfl
  rw [declaredNames, hpieces]
  simp only [moduleHead, List.map_cons, List.map_nil, List.cons_append, List.nil_append,
    List.mapM_cons, List.mapM_nil, hreact, declaredBy_reference, hblank, declaredBy_exportLine,
    hempty]
  rfl

end Module

/-- What the module of a page declares. -/
structure Declares (title : String) (module : List Char) : Prop where
  wellFormed : IsComponentName (componentName title)
  names : declaredNames module = some ["React", componentName title]
  /-- No name is declared twice, but for pages that are called like what is imported. -/
  distinct : ["React", componentName title].Nodup ↔ ¬ SaysReact title

/--
**Names at the top level of a module.** Whatever a page is called and whatever stands in it, its
module declares the name that it imports and a well-formed name of its own. These two are the same
exactly if `React` is the only word of the title.
-/
theorem render_declares {cs : List Component} {s : Settings} {t : PageTree} {code : Code}
    (h : emitComponents s cs = .ok (t, code)) (hd : s.dialect = .jsx) {slug : String}
    (hslug : ClassName.isClassName slug) (title : String) :
    Declares title (render .jsx title (stylesheetFile slug) code.markup).toList := by
  obtain ⟨f, -, -, hclass, hmarkup⟩ := exists_rendering h
  have hbraceless : Braceless code.markup.toList := by
    rw [hmarkup, String.toList_ofList]
    exact braceless_rendering hd 0 hclass
  refine ⟨componentName_isComponentName title,
    declaredNames_renderJsx (isFileChar_of_mem hslug) title hbraceless, ?_⟩
  rw [← componentName_eq_react_iff]
  simp [eq_comm]

/-- A box that gives its name to the page. -/
def reactBox : Component :=
  { id := ⟨1⟩, kind := "box", name := "react" }

def reactTree : PageTree where
  nodes := [{ component := reactBox, parent := none, children := [], depth := 0 }]
  root := 0
  pageId := none

theorem reactBox_emitted (wrap : Bool) :
    ∃ code : Code, code.markup = "<div className=\"react\" />\n" ∧
      emitComponents { dialect := .jsx, wrapDocument := wrap } [reactBox] =
        .ok (reactTree, code) := by
  have hmarkup : (reactTree.emit { dialect := .jsx }).map Code.markup =
      .ok "<div className=\"react\" />\n" := by decide +kernel
  obtain ⟨code, hcode, hmarkup⟩ := map_eq_ok_iff.mp hmarkup
  have hemit : emitComponents { dialect := .jsx } [reactBox] = .ok (reactTree, code) :=
    emitComponents_eq_ok_iff.mpr ⟨by cbv, hcode⟩
  exact ⟨code, hmarkup, (emitComponents_wrap { dialect := .jsx } wrap _).trans hemit⟩

theorem isClassName_react : ClassName.isClassName "react" := by
  have hchars : ("react".toList.all ClassName.isPrefixChar) = true := by decide +kernel
  exact List.all_eq_true.mp hchars

theorem reactBox_declares :
    ∃ t code, emitComponents { dialect := .jsx } [reactBox] = .ok (t, code) ∧
      Declares "react" (render .jsx "react" (stylesheetFile "react") code.markup).toList ∧
      Declares "2nd home" (render .jsx "2nd home" (stylesheetFile "react") code.markup).toList := by
  obtain ⟨code, -, hemit⟩ := reactBox_emitted false
  exact ⟨reactTree, code, hemit, render_declares hemit rfl isClassName_react "react",
    render_declares hemit rfl isClassName_react "2nd home"⟩

/-- The module of this page imports a name and declares it once more. -/
theorem reactBox_collides :
    ∃ page slugs', compileNamed { dialect := .jsx, wrapDocument := true } [reactBox] none noSlugs =
        .ok (page, slugs') ∧
      declaredNames page.markup.toList = some ["React", "React"] := by
  obtain ⟨code, hmarkup, hemit⟩ := reactBox_emitted true
  have hbraceless : Braceless code.markup.toList := by
    rw [hmarkup]
    exact braceless_of_all (by decide +kernel)
  -- the title and the slug do not depend on the code
  have htitle : pageName none reactTree = "react" := by decide +kernel
  have hslug : (noSlugs.allocate "react" "page").1 = "react" := by decide +kernel
  have hname : componentName "react" = "React" := by decide +kernel
  refine ⟨_, _, compileNamed_eq_ok_iff.mpr ⟨reactTree, code, hemit, rfl, rfl⟩, ?_⟩
  rw [htitle, hslug]
  have hnames := declaredNames_renderJsx (isFileChar_of_mem isClassName_react) "react" hbraceless
  rw [hname] at hnames
  exact htitle ▸ hnames

end DesignCompiler.Document
