import DesignCompiler.Proofs.Element.Bounds
import DesignCompiler.Proofs.Stylesheet.Values
import DesignCompiler.Proofs.Text.Pieces

/-!
# DesignCompiler — strings in stylesheets

The source of a background picture is written between double quotes. A reader of strings that knows
nothing but backslashes and quotes comes to the quote that was written last, never to one before, and has
read the source then. So no source can end its own string, whatever backslashes and quotes it has and
wherever they stand.

* `scanString` — the reader: what a string stands for, and what follows it;
* `scanString_escapes` — the characters of a text, read back;
* `replace_escapes` — backslashes are doubled first, and quotes get theirs afterwards;
* `IsStringOf` — what is written between the quotes for a source;
* `source_isStringOf` — the sources of all pictures that are lowered.
-/

namespace DesignCompiler

namespace Stylesheet

/-! ## The reader -/

/-- What a string stands for, read from behind the quote that begins it, and what follows the quote that
ends it. A backslash stands with the character behind it for that character; `escaped` says that one has
just been read. A text without a quote that ends it is no string. -/
def scanString : (escaped : Bool) → List Char → Option (List Char × List Char)
  | _, [] => none
  | true, c :: cs => (scanString false cs).map fun (text, rest) => (c :: text, rest)
  | false, c :: cs =>
    if c = '\\' then scanString true cs
    else if c = '"' then some ([], cs)
    else (scanString false cs).map fun (text, rest) => (c :: text, rest)

variable {cs rest : List Char}

theorem scanString_quote (cs : List Char) : scanString false ('"' :: cs) = some ([], cs) := rfl

/-- A character that is written for a string is read as what it was. -/
theorem scanString_escape (c : Char) (cs : List Char) :
    scanString false (escape c ++ cs) =
      (scanString false cs).map fun (text, rest) => (c :: text, rest) := by
  rcases escape_cases c with ⟨-, hescape⟩ | ⟨⟨hslash, hquote⟩, hescape⟩
  · rw [hescape]
    rfl
  · rw [hescape, List.singleton_append, scanString, if_neg hslash, if_neg hquote]

theorem scanString_escapes (source cs : List Char) :
    scanString false (source.flatMap escape ++ cs) =
      (scanString false cs).map fun (text, rest) => (source ++ text, rest) := by
  induction source with
  | nil => simp
  | cons c source ih =>
    rw [List.flatMap_cons, List.append_assoc, scanString_escape, ih, Option.map_map]
    rfl

/-- A string ends where it ends, whatever follows. -/
theorem scanString_append {escaped : Bool} {text : List Char}
    (h : scanString escaped cs = some (text, rest)) (more : List Char) :
    scanString escaped (cs ++ more) = some (text, rest ++ more) := by
  fun_induction scanString escaped cs generalizing text with
  | case1 => exact nomatch h
  | case2 c cs ih =>
    obtain ⟨⟨inner, rest⟩, hinner, heq⟩ := Option.map_eq_some_iff.mp h
    obtain ⟨rfl, rfl⟩ := Prod.mk.inj heq
    rw [List.cons_append, scanString, ih hinner]
    rfl
  | case3 cs ih => exact ih h
  | case4 cs hslash =>
    obtain ⟨rfl, rfl⟩ := Prod.mk.inj (Option.some.inj h)
    rfl
  | case5 c cs hslash hquote ih =>
    obtain ⟨⟨inner, rest⟩, hinner, heq⟩ := Option.map_eq_some_iff.mp h
    obtain ⟨rfl, rfl⟩ := Prod.mk.inj heq
    rw [List.cons_append, scanString, if_neg hslash, if_neg hquote, ih hinner]
    rfl

/-- No part of what is written for a text ends its string. -/
theorem scanString_of_prefix {source before : List Char} (h : before <+: source.flatMap escape) :
    scanString false before = none := by
  obtain ⟨more, hmore⟩ := h
  have hwhole := scanString_escapes source []
  rw [List.append_nil] at hwhole
  cases hbefore : scanString false before with
  | none => rfl
  | some r =>
    have hended := scanString_append hbefore more
    rw [hmore, hwhole] at hended
    exact nomatch hended

/-! ## Replacing -/

/-- Strings can be written in two steps: backslashes are doubled, and then every quote gets one. -/
theorem replace_escapes (source : List Char) :
    Text.replace '"' ['\\', '"'] (Text.replace '\\' ['\\', '\\'] source) =
      source.flatMap escape := by
  rw [Text.replace_eq_flatMap, Text.replace_eq_flatMap, List.flatMap_assoc]
  refine List.flatMap_congr fun c _ => ?_
  rcases escape_cases c with ⟨rfl | rfl, hescape⟩ | ⟨⟨hslash, hquote⟩, hescape⟩
  · rw [hescape]
    rfl
  · rw [hescape]
    rfl
  · rw [hescape, if_neg hslash, List.flatMap_singleton, if_neg hquote]

-- In the other order the backslash of a quote is doubled too, and the quote ends the string.
example : scanString false (Text.replace '\\' ['\\', '\\'] (Text.replace '"' ['\\', '"'] ['"'])) =
    some (['\\'], []) := by decide

theorem notMem_breakingChars_escapes {source : List Char} (h : ∀ c ∈ source, c ∉ breakingChars) :
    ∀ c ∈ source.flatMap escape, c ∉ breakingChars := by
  intro c hc
  obtain ⟨x, hx, hc⟩ := List.mem_flatMap.mp hc
  have hslash : '\\' ∉ breakingChars := by decide
  rcases escape_cases x with ⟨-, hescape⟩ | ⟨-, hescape⟩
  · rw [hescape, List.mem_cons, List.mem_singleton] at hc
    rcases hc with rfl | rfl
    · exact hslash
    · exact h c hx
  · rw [hescape, List.mem_singleton] at hc
    exact hc ▸ h x hx

/-! ## Sources of pictures -/

/-- What is written between the quotes for a source. -/
structure IsStringOf (source written : List Char) : Prop where
  /-- The string is read as the source, up to the quote behind it and no further. -/
  scanned : ∀ rest, scanString false (written ++ '"' :: rest) = some (source, rest)
  /-- No quote before that one ends it. -/
  unended : ∀ before, before <+: written → scanString false before = none
  /-- Nor does a line break, or a character at which other readers stop. -/
  unbroken : ∀ c ∈ written, c ∉ breakingChars
  replaced : written = Text.replace '"' ['\\', '"'] (Text.replace '\\' ['\\', '\\'] source)

/-- The only background that an element declares is its picture. -/
theorem background_mem_iff {e : PageElement} {p : Picture} (h : e.backdrop? = some p) (v : String) :
    ⟨"background-image", v⟩ ∈ e.declarations ↔ v = "url(" ++ quote p.source ++ ")" := by
  obtain ⟨himage, -, -⟩ := e.declares_picture
  rw [himage v, h, Option.map_some, Option.some.injEq]
  exact eq_comm

end Stylesheet

open Stylesheet

/--
**No source ends its own string.** The source of a picture that is lowered is written between two quotes,
of which a reader finds the second one and no other, and reads the source; and wherever the picture is
the background of a box, this is what the box declares.
-/
theorem source_isStringOf {c : Component} {p : Picture} (h : c.element = .ok (.image p)) :
    IsStringOf p.source.toList (p.source.toList.flatMap escape) ∧
      ∀ e : PageElement, e.element = .image p → e.hasChildren = true → ∀ v,
        ⟨"background-image", v⟩ ∈ e.declarations ↔
          v = "url(\"" ++ String.ofList (p.source.toList.flatMap escape) ++ "\")" := by
  have hsource := ((Component.element_isBounded h).source p rfl).1
  refine ⟨⟨fun rest => ?_, fun before hbefore => scanString_of_prefix hbefore, ?_, ?_⟩, ?_⟩
  · rw [scanString_escapes, scanString_quote, Option.map_some]
    simp only [List.append_nil]
  · exact notMem_breakingChars_escapes hsource
  · exact (replace_escapes _).symm
  · intro e he hchildren v
    have hbackdrop : e.backdrop? = some p := by
      rw [PageElement.backdrop?, he, hchildren]
      rfl
    -- The quotes of the string are those of the address.
    have hvalue : "url(" ++ quote p.source ++ ")" =
        "url(\"" ++ String.ofList (p.source.toList.flatMap escape) ++ "\")" := by
      rw [← String.toList_inj]
      simp [quote]
    rw [background_mem_iff hbackdrop, hvalue]

/-- A picture whose source has backslashes before quotes and at its end. -/
def slashedPicture : Component where
  id := ⟨1⟩
  kind := "image"
  appearance := [("src", .string "a\\\"b\"\\")]

/-- The box that it is if there are other components in it. -/
def slashedBox (p : Picture) : PageElement where
  id := ⟨1⟩
  className := "image"
  geometry := none
  isRoot := true
  hasChildren := true
  element := .image p

theorem slashedPicture_isStringOf : ∃ p, slashedPicture.element = .ok (.image p) ∧
    IsStringOf p.source.toList "a\\\\\\\"b\\\"\\\\".toList ∧
      ⟨"background-image", "url(\"a\\\\\\\"b\\\"\\\\\")"⟩ ∈ (slashedBox p).declarations := by
  let p : Picture :=
    { source := "a\\\"b\"\\", alt := none, fit := none
      style := { fill := none, border := none, radius := none, opacity := none } }
  have hlowered : slashedPicture.element = .ok (.image p) := by decide +kernel
  have hwritten : p.source.toList.flatMap escape = "a\\\\\\\"b\\\"\\\\".toList := by decide
  obtain ⟨hstring, hdeclared⟩ := source_isStringOf hlowered
  rw [hwritten] at hstring hdeclared
  exact ⟨p, hlowered, hstring, (hdeclared (slashedBox p) rfl rfl _).mpr (by decide)⟩

end DesignCompiler
