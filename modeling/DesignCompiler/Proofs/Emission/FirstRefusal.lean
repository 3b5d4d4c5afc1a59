import DesignCompiler.Proofs.Element.Refusals
import DesignCompiler.Proofs.Emission.Elements

/-!
# DesignCompiler — which component stops the emission

A tree is emitted if all its components are lowered, and otherwise it is refused because of the first
one in pre-order that is not. This is the order in which the page shows them, not that of the slots.
The settings have no say in it.

* `Component.IsLowered` — element and geometry of a component are accepted;
* `PageTree.RefusedAt` — the first node in pre-order whose component is not;
* `PageTree.Decides` — when a tree is emitted, and with which refusal it is not;
* `build_decides` — it holds of every built tree.
-/

namespace DesignCompiler

/-- The component has an element and an accepted geometry. -/
def Component.IsLowered (c : Component) : Prop :=
  (∃ e, c.element = .ok e) ∧ ∃ g, c.placement = .ok g

/-- `n` is the first node in pre-order whose component is refused: those of the nodes `before` it are
lowered, and `r` is what is wrong with its own. A fault of the element counts before one of the
geometry. -/
structure PageTree.RefusedAt (t : PageTree) (before : List Node) (n : Node) (r : Refusal) :
    Prop where
  preorder : ∃ after, t.preorderNodes = before ++ n :: after
  lowered : ∀ m ∈ before, m.component.IsLowered
  refused : n.component.element = .error r ∨
    (∃ e, n.component.element = .ok e) ∧ n.component.placement = .error r

/-- When the tree of some components is emitted. -/
structure PageTree.Decides (t : PageTree) (cs : List Component) (s : Settings) : Prop where
  emitted : (∃ code, t.emit s = .ok code) ↔ ∀ c ∈ cs, c.IsLowered
  refused : ∀ r, t.emit s = .error r ↔ ∃ before n, t.RefusedAt before n r
  /-- The refusal names the component at which it arose. -/
  named : ∀ before n r, t.RefusedAt before n r → r.componentId = n.component.id
  /-- Other settings change neither success nor the refusal. -/
  settings : ∀ s', outcome (t.emit s') = outcome (t.emit s)

theorem isLowered_iff {c : Component} : c.IsLowered ↔ outcome c.lower = .ok () := by
  rw [outcome_eq_ok_iff, Component.exists_lower_iff, Component.IsLowered]

/-- The refusal of an emission is that of the first node in pre-order. -/
theorem emit_eq_error_iff {t : PageTree} {s : Settings} {r : Refusal} :
    t.emit s = .error r ↔ ∃ before n, t.RefusedAt before n r := by
  rw [← outcome_eq_error_iff, PageTree.outcome_emit, forM_eq_error_iff]
  constructor
  · rintro ⟨before, n, after, hsplit, hbefore, hn⟩
    refine ⟨before, n, ⟨after, hsplit⟩, fun m hm => isLowered_iff.mpr (hbefore m hm), ?_⟩
    exact Component.lower_eq_error_iff.mp (outcome_eq_error_iff.mp hn)
  · rintro ⟨before, n, ⟨after, hsplit⟩, hbefore, hn⟩
    refine ⟨before, n, after, hsplit, fun m hm => isLowered_iff.mp (hbefore m hm), ?_⟩
    exact outcome_eq_error_iff.mpr (Component.lower_eq_error_iff.mpr hn)

/-- A tree is emitted if the components from which it was built are lowered. -/
theorem exists_emit_iff {cs : List Component} {t : PageTree} (h : PageTree.build cs = .ok t)
    {s : Settings} : (∃ code, t.emit s = .ok code) ↔ ∀ c ∈ cs, c.IsLowered := by
  rw [← outcome_eq_ok_iff, PageTree.outcome_emit, forM_eq_ok_iff, ← forall_mem_preorderNodes_iff h]
  simp only [isLowered_iff]

/--
**The first refusal in pre-order decides.** A tree is emitted under all settings or under none:
under all if every component it was built from is lowered, and otherwise the refusal is that of the
first component in pre-order that is not, whose identifier it carries.
-/
theorem build_decides {cs : List Component} {t : PageTree} (h : PageTree.build cs = .ok t)
    (s : Settings) : t.Decides cs s where
  emitted := exists_emit_iff h
  refused _ := emit_eq_error_iff
  named _ _ _ hr := Component.componentId_eq_of_lower (Component.lower_eq_error_iff.mpr hr.refused)
  settings s' := (PageTree.outcome_emit t s').trans (PageTree.outcome_emit t s).symm

/-- A page on which three components are refused. The one with the lowest identifier comes last in
pre-order. -/
def faultyPage : List Component :=
  [{ id := ⟨1⟩, parentId := some ⟨2⟩, kind := "spline" },
    { id := ⟨2⟩, parentId := some ⟨5⟩, kind := "text", order := 1 },
    { id := ⟨3⟩, parentId := some ⟨4⟩, kind := "box" },
    { id := ⟨4⟩, parentId := some ⟨5⟩, kind := "label", appearance := [("text", .string "a")] },
    { id := ⟨5⟩, kind := "box" },
    { id := ⟨6⟩, parentId := some ⟨4⟩, kind := "image" }]

def faultyTree : PageTree where
  nodes := PageTree.arena (sortById faultyPage) (reached (sortById faultyPage) 4)
  root := 4
  pageId := none

theorem faultyTree_decides :
    PageTree.build faultyPage = .ok faultyTree ∧
      faultyTree.Decides faultyPage { dialect := .jsx, indent := 8, classPrefix := some "x" } ∧
      faultyTree.preorder = [4, 3, 2, 5, 1, 0] ∧
      faultyTree.emit {} = .error (.missingField ⟨6⟩ (.appearance "src")) :=
  ⟨by cbv, build_decides (show PageTree.build faultyPage = _ by cbv) _, by cbv, by cbv⟩

end DesignCompiler
