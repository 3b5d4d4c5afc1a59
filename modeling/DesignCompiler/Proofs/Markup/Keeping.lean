import DesignCompiler.Proofs.Markup.RoundTrip
import DesignCompiler.Proofs.Tree.Descent

/-!
# DesignCompiler — elements that close others

Where HTML is read, some start tags close an element that is still open: a link closes a link, a button
closes a button, and a paragraph has no blocks inside it. Elements that are written inside each other
then end up behind each other. The tag of a component depends on its own children and not on those
above it, so paragraphs and pictures are safe, but links and buttons are not.

* `Markup.KeepsNesting` — no element of a forest is closed by one that is written inside it;
* `Component.pressTag?` — the tag of a component that can be pressed;
* `emit_keeps_nesting_iff` — when the markup of a page keeps its nesting;
* `pressedPage_closes` — a page that does not.
-/

namespace DesignCompiler

namespace Markup

/-- No element is closed by one that is written inside it. -/
structure KeepsNesting (g : Forest Entry) : Prop where
  links : ∀ x ∈ g.descents, x.1.tag = "a" → x.2.tag ≠ "a"
  buttons : ∀ x ∈ g.descents, x.1.tag = "button" → x.2.tag ≠ "button"
  /-- Paragraphs and pictures have no elements inside them. -/
  leaves : ∀ x ∈ g.links, x.1.tag ≠ "p" ∧ x.1.tag ≠ "img"

theorem keepsNesting_iff {g : Forest Entry}
    (hleaves : ∀ x ∈ g.links, x.1.tag ≠ "p" ∧ x.1.tag ≠ "img") :
    KeepsNesting g ↔ ∀ w ∈ ["a", "button"], ¬ ∃ x ∈ g.descents, x.1.tag = w ∧ x.2.tag = w := by
  simp only [List.forall_mem_cons, List.not_mem_nil, false_imp_iff, implies_true, and_true,
    not_exists, not_and]
  exact ⟨fun h => ⟨h.links, h.buttons⟩, fun h => ⟨h.1, h.2, hleaves⟩⟩

/-- Texts have nothing inside them either. -/
theorem tag_ne_p {e : PageElement} (h : e.hasChildren = true) : e.tag ≠ "p" := by
  unfold PageElement.tag
  split
  · simp
  · simp [h]
  · simp [h]
  · split <;> simp

/-- Where elements with others inside them say so, these are not paragraphs and pictures. -/
theorem Nests.tag_ne {f : Forest PageElement} (h : Nests f) :
    ∀ x ∈ f.links, x.1.tag ≠ "p" ∧ x.1.tag ≠ "img" := by
  induction f with
  | nil => exact fun _ hx => nomatch hx
  | cons e below rest ihb ihr =>
    obtain ⟨hchildren, hbelow, hrest⟩ := h
    intro x hx
    simp only [Forest.links, List.mem_append, List.mem_map] at hx
    rcases hx with (⟨top, htop, rfl⟩ | hx) | hx
    · have hne : below ≠ .nil := by
        rintro rfl
        cases htop
      exact ⟨tag_ne_p (hchildren hne), tag_ne_img (hchildren hne)⟩
    · exact ihb hbelow x hx
    · exact ihr hrest x hx

end Markup

open Markup

/-- The tag of a component that can be pressed: a link if it has a target, else a button. -/
def Component.pressTag? (c : Component) : Option String :=
  match c.element with
  | .ok (.button b) => some (if b.href.isSome then "a" else "button")
  | _ => none

/-- Only components that can be pressed are written as links and buttons. -/
theorem PageElement.Describes.tag_eq_iff {e : PageElement} {root slot : Nat} {n : Node}
    (h : e.Describes root slot n) {w : String} (hw : w ∈ ["a", "button"]) :
    e.tag = w ↔ n.component.pressTag? = some w := by
  have helement : n.component.element = .ok e.element := by
    obtain ⟨element, hel, hrest⟩ := bind_eq_ok_iff.mp h.lowered
    obtain ⟨geometry, -, hpair⟩ := bind_eq_ok_iff.mp hrest
    obtain ⟨rfl, -⟩ := Prod.mk.inj (Except.ok.inj hpair)
    exact hel
  -- No other element has a tag that is pressed.
  have hne : ∀ v ∈ ["div", "p", "img"], v ≠ w := by
    intro v hv
    simp only [List.mem_cons, List.not_mem_nil, or_false] at hv hw
    rcases hv with rfl | rfl | rfl <;> rcases hw with rfl | rfl <;> decide
  rw [Component.pressTag?, helement, PageElement.tag]
  cases e.element with
  | container style => simpa using hne "div" (by simp)
  | text block =>
    cases e.hasChildren with
    | true => simpa using hne "div" (by simp)
    | false => simpa using hne "p" (by simp)
  | image picture =>
    cases e.hasChildren with
    | true => simpa using hne "div" (by simp)
    | false => simpa using hne "img" (by simp)
  | button b => rw [Option.some.injEq]

theorem Component.mem_of_pressTag? {c : Component} {w : String} (h : c.pressTag? = some w) :
    w ∈ ["a", "button"] := by
  rw [pressTag?] at h
  split at h
  · rw [← Option.some.inj h]
    split <;> simp
  · exact nomatch h

namespace PageTree.Lists

variable {cs : List Component} {t : PageTree} {f : Forest (Nat × PageElement)}

theorem map_entry (f : Forest (Nat × PageElement)) (dialect : Dialect) :
    (f.map fun p => p.2.entry dialect) = (f.map Prod.snd).map (PageElement.entry dialect) := by
  rw [Forest.map_map]
  rfl

/-- No entry with others inside it is a paragraph or a picture. -/
theorem leaves (h : t.Lists f) (dialect : Dialect) :
    ∀ x ∈ (f.map fun p => p.2.entry dialect).links, x.1.tag ≠ "p" ∧ x.1.tag ≠ "img" := by
  rw [map_entry, Forest.links_map, List.forall_mem_map]
  simpa using (nests_of_fits h.unfolds.fits h.describes).tag_ne

/-- Links in links, and buttons in buttons, come from components that stand below each other. -/
theorem pressed_iff (h : t.Lists f) (hb : PageTree.build cs = .ok t) (dialect : Dialect) {w : String}
    (hw : w ∈ ["a", "button"]) :
    (∃ x ∈ (f.map fun p => p.2.entry dialect).descents, x.1.tag = w ∧ x.2.tag = w) ↔
      ∃ c p, StandsBelow cs c p ∧ p.pressTag? = some w ∧ c.pressTag? = some w := by
  have hdescent := h.descent_iff hb (q := (·.tag = w)) (r := (·.pressTag? = some w)) fun x hx n hn => by
    obtain ⟨m, hm, hdescribes⟩ := h.describes x hx
    obtain rfl : n = m := Option.some.inj (hn.symm.trans hm)
    exact hdescribes.tag_eq_iff hw
  rw [← hdescent, map_entry, Forest.descents_map]
  simp

end PageTree.Lists

/--
**When nesting is kept.** In the markup of a page that is emitted, no paragraph and no picture has an
element inside it. A link stands in a link, and a button in a button, exactly if a component of this
kind stands below another one on the page; the markup keeps its nesting exactly if there are no such.
-/
theorem emit_keeps_nesting_iff {cs : List Component} {t : PageTree} {s : Settings} {code : Code}
    (hb : PageTree.build cs = .ok t) (he : t.emit s = .ok code) :
    ∃ g, Markup.read s.dialect s.indent code.markup.toList = some g ∧
      (∀ x ∈ g.links, x.1.tag ≠ "p" ∧ x.1.tag ≠ "img") ∧
      (∀ w ∈ ["a", "button"], (∃ x ∈ g.descents, x.1.tag = w ∧ x.2.tag = w) ↔
        ∃ c p, StandsBelow cs c p ∧ p.pressTag? = some w ∧ c.pressTag? = some w) ∧
      (KeepsNesting g ↔
        ∀ c p, StandsBelow cs c p → ∀ w, p.pressTag? = some w → c.pressTag? ≠ some w) := by
  obtain ⟨f, es, hlists, hes, rfl⟩ := exists_lists hb he
  have hread := (read_rendering hlists s).1
  have hleaves := hlists.leaves s.dialect
  have hpressed := fun w hw => hlists.pressed_iff hb s.dialect (w := w) hw
  refine ⟨_, ?_, hleaves, hpressed, ?_⟩
  · simp only [markup_eq_rendering hlists hes, String.toList_ofList]
    exact hread
  · rw [keepsNesting_iff hleaves]
    constructor
    · intro hnone c p hbelow w hp hc
      -- no other tags are pressed
      have hw := Component.mem_of_pressTag? hp
      exact hnone w hw ((hpressed w hw).mpr ⟨c, p, hbelow, hp, hc⟩)
    · intro hnone w hw hex
      obtain ⟨c, p, hbelow, hp, hc⟩ := (hpressed w hw).mp hex
      exact hnone c p hbelow w hp hc

/-- A button. -/
def outerButton : Component :=
  { id := ⟨1⟩, kind := "button", appearance := [("label", .string "Outer")] }

/-- A button inside the other one. -/
def innerButton : Component :=
  { id := ⟨2⟩, parentId := some ⟨1⟩, kind := "button", appearance := [("label", .string "Inner")] }

def pressedPage : List Component := [outerButton, innerButton]

def pressedTree : PageTree where
  nodes := [{ component := outerButton, parent := none, children := [1], depth := 0 },
    { component := innerButton, parent := some 0, children := [], depth := 1 }]
  root := 0
  pageId := none

theorem build_pressedPage : PageTree.build pressedPage = .ok pressedTree := by
  cbv

theorem pressedPage_keeps_nesting_iff :
    ∃ t code, PageTree.build pressedPage = .ok t ∧ t.emit {} = .ok code ∧
      ∃ g, Markup.read .html 2 code.markup.toList = some g ∧
        (∀ x ∈ g.links, x.1.tag ≠ "p" ∧ x.1.tag ≠ "img") ∧
        (∀ w ∈ ["a", "button"], (∃ x ∈ g.descents, x.1.tag = w ∧ x.2.tag = w) ↔
          ∃ c p, StandsBelow pressedPage c p ∧ p.pressTag? = some w ∧ c.pressTag? = some w) ∧
        (KeepsNesting g ↔ ∀ c p, StandsBelow pressedPage c p →
          ∀ w, p.pressTag? = some w → c.pressTag? ≠ some w) := by
  obtain ⟨code, hcode⟩ := PageTree.exists_emit_of_all (t := pressedTree) (by decide +kernel) {}
  exact ⟨pressedTree, code, build_pressedPage, hcode, emit_keeps_nesting_iff build_pressedPage hcode⟩

/-- The markup of a page with a button in a button has one in the other too. -/
theorem pressedPage_closes :
    ∃ t code g, PageTree.build pressedPage = .ok t ∧ t.emit {} = .ok code ∧
      Markup.read .html 2 code.markup.toList = some g ∧ ¬ KeepsNesting g := by
  have hmarkup : (pressedTree.emit {}).map Code.markup =
      .ok ("<button class=\"button\" type=\"button\">\n  Outer\n" ++
        "  <button class=\"button-2\" type=\"button\">Inner</button>\n</button>\n") := by
    decide +kernel
  obtain ⟨code, hcode, hmarkup⟩ := map_eq_ok_iff.mp hmarkup
  have hread : Markup.read .html 2 code.markup.toList =
      some (.cons ⟨"button", [("class", some "button"), ("type", some "button")], ["Outer".toList]⟩
        (.cons ⟨"button", [("class", some "button-2"), ("type", some "button")],
          ["Inner".toList]⟩ .nil .nil) .nil) := by
    rw [hmarkup]
    decide +kernel
  exact ⟨pressedTree, code, _, build_pressedPage, hcode, hread, fun h =>
    h.buttons _ (List.mem_cons_self ..) rfl rfl⟩

end DesignCompiler
