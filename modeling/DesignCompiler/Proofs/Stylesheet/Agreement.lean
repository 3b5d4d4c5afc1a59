import DesignCompiler.Proofs.Element.Lowering
import DesignCompiler.Proofs.Markup.RoundTrip
import DesignCompiler.Proofs.Stylesheet.Reader

/-!
# DesignCompiler — the three parts of emitted code agree

Markup, stylesheet and class list are written by three procedures. They are about the same elements
in the same order: the elements of the tree in pre-order.

* `Lists.element_checked` — the elements of a tree carry checked texts;
* `PageTree.Agrees` — markup, stylesheet and class list that belong together;
* `emit_agrees` — what is emitted belongs together.
-/

namespace DesignCompiler

namespace PageTree

variable {t : PageTree} {f : Forest (Nat × PageElement)}

/-- The elements of a tree came out of lowering, so their texts are checked. -/
theorem Lists.element_checked (h : t.Lists f) {p : Nat × PageElement} (hp : p ∈ f.labels) :
    p.2.element.Checked := by
  obtain ⟨n, -, hdescribes⟩ := h.describes p hp
  obtain ⟨e, helement, hlower⟩ := bind_eq_ok_iff.mp hdescribes.lowered
  obtain ⟨g, -, hpair⟩ := bind_eq_ok_iff.mp hlower
  obtain ⟨rfl, rfl⟩ := Prod.mk.inj (Except.ok.inj hpair)
  exact Component.element_checked helement

theorem Lists.isClassName (h : t.Lists f) {p : Nat × PageElement} (hp : p ∈ f.labels) :
    ClassName.isClassName p.2.className := by
  obtain ⟨n, -, hdescribes⟩ := h.describes p hp
  exact hdescribes.className

/-- The stylesheet of a tree is read as one block for each element, in pre-order. -/
theorem Lists.read_stylesheet (h : t.Lists f) (indent : Nat) :
    Stylesheet.read (stylesheet indent (f.labels.map Prod.snd)).toList =
      some (f.labels.map (·.2.block)) := by
  have hclass : ∀ e ∈ f.labels.map Prod.snd, ClassName.isClassName e.className := by
    intro e he
    obtain ⟨p, hp, rfl⟩ := List.mem_map.mp he
    exact h.isClassName hp
  have hreadable : ∀ e ∈ f.labels.map Prod.snd, ∀ d ∈ e.declarations, Stylesheet.Readable d := by
    intro e he
    obtain ⟨p, hp, rfl⟩ := List.mem_map.mp he
    exact Stylesheet.readable_declarations (h.element_checked hp)
  rw [Stylesheet.read_stylesheet indent hclass hreadable, List.map_map]
  rfl

/-- Code in which markup, stylesheet and class list are about the same page elements, those of a
tree of components. -/
structure Agrees (t : PageTree) (cs : List Component) (s : Settings) (code : Code)
    (f : Forest (Nat × PageElement)) : Prop where
  lists : t.Lists f
  blocks : Stylesheet.read code.stylesheet.toList = some (f.labels.map (·.2.block))
  startTags : Markup.startClasses s.dialect code.markup.toList =
    some (code.classes.map (some ·.2))
  classes : code.classes = f.labels.map fun p => (p.2.id, p.2.className)
  distinct : (code.classes.map Prod.snd).Nodup
  complete : (code.classes.map Prod.fst).Perm (cs.map Component.id)

end PageTree

/--
**Markup, stylesheet and class list agree.** There is one block, one start tag and one entry of the
class list for each component, in pre-order and with the same class, the classes are all different,
and the block has the declarations of the element and no others.
-/
theorem emit_agrees {cs : List Component} {t : PageTree} {s : Settings} {code : Code}
    (hb : PageTree.build cs = .ok t) (he : t.emit s = .ok code) : ∃ f, t.Agrees cs s code f := by
  obtain ⟨f, es, hlists, hes, rfl⟩ := exists_lists hb he
  refine ⟨f, hlists, hlists.read_stylesheet s.indent, ?_, rfl, ?_, ?_⟩
  · have hstart := (Markup.read_rendering hlists s).2
    simp only [markup_eq_rendering hlists hes, String.toList_ofList, List.map_map]
    exact hstart
  · rw [List.map_map]
    exact hlists.classes
  · rw [List.map_map]
    exact hlists.ids_perm hb

theorem markedPage_agrees :
    ∃ t s code f, PageTree.build markedPage = .ok t ∧ t.emit s = .ok code ∧
      t.Agrees markedPage s code f := by
  let s : Settings := { dialect := .html, indent := maxIndent, classPrefix := some "x" }
  obtain ⟨code, hcode⟩ := exists_emit_markedTree s
  obtain ⟨f, hagrees⟩ := emit_agrees build_markedPage hcode
  exact ⟨markedTree, s, code, f, build_markedPage, hcode, hagrees⟩

end DesignCompiler
