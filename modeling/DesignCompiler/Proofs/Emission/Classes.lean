import DesignCompiler.Proofs.ClassName.Tokens
import DesignCompiler.Proofs.Emission.Elements

/-!
# DesignCompiler — the classes of a page

The classes of a page are handed out in a row, in pre-order and from one allocator; the name of a kind
stands in where a component has no name that would make a class. Kinds have names that do, so every class
is a token.

* `Node.naming?` — what the class of a node is made from;
* `emit_classes` — the classes of a page are those that are handed out for its nodes;
* `emit_classTokens` — they are tokens, behind the prefix as the project gives it.
-/

namespace DesignCompiler

open ClassName

/-- What the class of a node is made from: the name of its component, and that of its kind. -/
def Node.naming? (n : Node) : Option (String × String) :=
  match n.component.element with
  | .ok e => some (n.component.name, e.kind.name)
  | .error _ => none

namespace PageTree

variable {cs : List Component} {t : PageTree} {s : Settings} {code : Code}

/-- Slots get their classes in a row, one after the other. -/
theorem elementsOfSlots_classes {slots : List Nat} {names : Allocator}
    {ps : List (Nat × PageElement)} (h : t.elementsOfSlots slots names = .ok ps) :
    ps.map (·.2.className) =
      (names.allocateAll ((slots.filterMap (t.nodes[·]?)).filterMap Node.naming?)).1 := by
  induction slots generalizing names ps with
  | nil =>
    obtain rfl := Except.ok.inj h
    rfl
  | cons slot slots ih =>
    cases hn : t.nodes[slot]? with
    | none =>
      rw [List.filterMap_cons_none hn]
      simp only [elementsOfSlots, hn] at h
      exact ih h
    | some n =>
      simp only [elementsOfSlots, hn, PageElement.ofNode] at h
      obtain ⟨⟨e, names'⟩, he, h⟩ := bind_eq_ok_iff.mp h
      obtain ⟨⟨element, geometry⟩, hlower, he⟩ := bind_eq_ok_iff.mp he
      obtain ⟨rest, hrest, h⟩ := bind_eq_ok_iff.mp h
      obtain ⟨rfl, rfl⟩ := Prod.mk.inj (Except.ok.inj he)
      obtain rfl := Except.ok.inj h
      -- the node is named by the element that it is lowered to
      obtain ⟨element', helement, hgeometry⟩ := bind_eq_ok_iff.mp hlower
      obtain ⟨geometry', -, hpair⟩ := bind_eq_ok_iff.mp hgeometry
      obtain ⟨rfl, rfl⟩ := Prod.mk.inj (Except.ok.inj hpair)
      have hnaming : n.naming? = some (n.component.name, element'.kind.name) := by
        rw [Node.naming?, helement]
      rw [List.filterMap_cons_some hn, List.filterMap_cons_some hnaming, List.map_cons, ih hrest]
      rfl

end PageTree

variable {cs : List Component} {t : PageTree} {s : Settings} {code : Code}

/-- The classes of a page are handed out in a row for its nodes in pre-order. -/
theorem emit_classes (hb : PageTree.build cs = .ok t) (he : t.emit s = .ok code) :
    code.classes.map Prod.snd = (({ lead := s.classPrefix } : Allocator).allocateAll
      (t.preorderNodes.filterMap Node.naming?)).1 := by
  obtain ⟨f, es, hordered, -, -, rfl⟩ := exists_lists_inOrder hb he
  rw [List.map_map]
  exact PageTree.elementsOfSlots_classes hordered

theorem slug_kind_ne_nil (k : Kind) : (slug k.name).toList ≠ [] := by
  cases k <;> decide +kernel

/-- Every class of a page is a form of a class name with the name of a kind as its fallback. -/
theorem exists_identifier_of_mem (hb : PageTree.build cs = .ok t) (he : t.emit s = .ok code)
    {x : ComponentId × String} (hx : x ∈ code.classes) :
    ∃ (name : String) (k : Kind) (n : Nat),
      x.2 = candidate (identifier name k.name s.classPrefix) n := by
  have hmem : x.2 ∈ code.classes.map Prod.snd := List.mem_map_of_mem hx
  rw [emit_classes hb he] at hmem
  obtain ⟨call, hcall, n, hn⟩ := exists_call_of_mem hmem
  obtain ⟨node, -, hnaming⟩ := List.mem_filterMap.mp hcall
  rw [Node.naming?] at hnaming
  split at hnaming
  · rename_i e _
    obtain rfl := Option.some.inj hnaming
    exact ⟨node.component.name, e.kind, n, hn⟩
  · exact nomatch hnaming

theorem Settings.isPlainPrefix_of_check {s : Settings} {lead : String}
    (hlead : s.classPrefix = some lead) (h : s.check = .ok ()) :
    isPlainPrefix lead.toList = true := by
  rw [check, hlead] at h
  split at h
  · exact nomatch h
  · by_contra hplain
    simp only [hplain, if_false] at h
    exact nomatch h

/--
**Classes are tokens.** Every class of a page that is emitted is a letter or an underscore and then
letters, digits, underscores and dashes, whatever the names and the prefix are. If the prefix is one that
a project may have, every class is this prefix without the dashes at its end, a dash, and a text of small
letters, digits and dashes.
-/
theorem emit_classTokens (hb : PageTree.build cs = .ok t) (he : t.emit s = .ok code) :
    (∀ x ∈ code.classes, IsClassToken x.2) ∧
      ∀ lead, s.classPrefix = some lead →
        ({ classPrefix := some lead } : Settings).check = .ok () →
        ∀ x ∈ code.classes, IsPrefixed lead x.2 := by
  constructor
  · intro x hx
    obtain ⟨name, k, n, heq⟩ := exists_identifier_of_mem hb he hx
    rw [heq]
    exact (identifier_isClassToken (slug_kind_ne_nil k) name s.classPrefix).candidate n
  · intro lead hlead hcheck x hx
    obtain ⟨name, k, n, heq⟩ := exists_identifier_of_mem hb he hx
    rw [heq, hlead]
    exact (identifier_isPrefixed (slug_kind_ne_nil k)
      (Settings.isPlainPrefix_of_check rfl hcheck) name).candidate n

/-- A box whose name begins with a digit. -/
def countedBox : Component :=
  { id := ⟨1⟩, kind := "box", name := "404 Größe" }

/-- A box without a name that makes a class. -/
def starredBox : Component :=
  { id := ⟨2⟩, parentId := some ⟨1⟩, kind := "box", name := "***" }

def countedPage : List Component := [countedBox, starredBox]

def countedTree : PageTree where
  nodes := [{ component := countedBox, parent := none, children := [1], depth := 0 },
    { component := starredBox, parent := some 0, children := [], depth := 1 }]
  root := 0
  pageId := none

theorem countedPage_classTokens :
    let s : Settings := { classPrefix := some "Shop_9--" }
    ∃ t code, PageTree.build countedPage = .ok t ∧ t.emit s = .ok code ∧
      ({ classPrefix := some "Shop_9--" } : Settings).check = .ok () ∧
      (∀ x ∈ code.classes, IsClassToken x.2) ∧ ∀ x ∈ code.classes, IsPrefixed "Shop_9--" x.2 := by
  intro s
  have hbuild : PageTree.build countedPage = .ok countedTree := by cbv
  have hcheck : ({ classPrefix := some "Shop_9--" } : Settings).check = .ok () := by decide +kernel
  obtain ⟨code, hcode⟩ := PageTree.exists_emit_of_all (t := countedTree) (by decide +kernel) s
  obtain ⟨htokens, hbehind⟩ := emit_classTokens hbuild hcode
  exact ⟨countedTree, code, hbuild, hcode, hcheck, htokens, hbehind "Shop_9--" rfl hcheck⟩

-- Without a prefix the digit needs something in front; the prefix of a project is enough.
example : identifier "404 Größe" "container" none = "c-404-gr-e" := by decide +kernel

end DesignCompiler
