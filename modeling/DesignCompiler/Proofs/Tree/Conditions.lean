import DesignCompiler.Proofs.Tree.Sorting

/-!
# DesignCompiler — what makes components a tree

The conditions on a list of components, said of its members and without slots, lists of children or
walks, and the defects, each as the first condition that fails.

* `SoundMembers`, `RootedMembers`, `LinkedMembers`, `IsTree` — each adds a condition to the one
  before it, in the order in which they are checked;
* `ReachesRoot` — the chain of parents of a component ends at the root;
* `FirstDefect` — the first condition that fails, with the components that show it.
-/

namespace DesignCompiler

/-- There are components, all on one page and all with different identifiers. -/
structure SoundMembers (cs : List Component) : Prop where
  nonempty : cs ≠ []
  samePage : ∀ a ∈ cs, ∀ b ∈ cs, a.pageId = b.pageId
  distinct : (cs.map Component.id).Nodup

/-- Also, exactly one component names no parent. -/
structure RootedMembers (cs : List Component) : Prop extends SoundMembers cs where
  oneRoot : (cs.filter (·.parentId = none)).length = 1

/-- Also, every parent that is named is a component of the list. -/
structure LinkedMembers (cs : List Component) : Prop extends RootedMembers cs where
  parents : ∀ c ∈ cs, ∀ id, c.parentId = some id → ∃ p ∈ cs, p.id = id

/-- Following the parents from a component leads to one that names none. -/
inductive ReachesRoot (cs : List Component) : Component → Prop where
  | root {c : Component} (hc : c ∈ cs) (hroot : c.parentId = none) : ReachesRoot cs c
  | child {c p : Component} (hc : c ∈ cs) (hparent : c.parentId = some p.id)
      (hp : ReachesRoot cs p) : ReachesRoot cs c

/-- Also, every chain of parents ends at the root: the components make a tree. -/
structure IsTree (cs : List Component) : Prop extends LinkedMembers cs where
  rooted : ∀ c ∈ cs, ReachesRoot cs c

/-- In the order of identifiers `c` comes after the components `before`, all of which stand on the
page of the very first component and have different identifiers. -/
structure SoundUpTo (cs before : List Component) (c first : Component) : Prop where
  sorted : ∃ after, StablySorted cs (before ++ c :: after)
  first_eq : (before ++ [c]).head? = some first
  samePage : ∀ b ∈ before, b.pageId = first.pageId
  distinct : (before.map Component.id).Nodup

/-- `ids` are in ascending order the identifiers of the components with a property. -/
structure AreIds (ids : List ComponentId) (cs : List Component) (p : Component → Prop) :
    Prop where
  ascending : ids.Pairwise fun a b => a.toNat < b.toNat
  mem_iff : ∀ id, id ∈ ids ↔ ∃ c ∈ cs, p c ∧ c.id = id

/-- The first condition that a list of components fails. -/
inductive FirstDefect (cs : List Component) : Defect → Prop where
  | empty (h : cs = []) : FirstDefect cs .empty
  | mixedPages {before : List Component} {c first : Component}
      (hb : SoundUpTo cs before c first) (hc : c.pageId ≠ first.pageId) :
      FirstDefect cs (.mixedPages c.id first.pageId c.pageId)
  | duplicateId {before : List Component} {c first : Component}
      (hb : SoundUpTo cs before c first) (hpage : c.pageId = first.pageId)
      (hc : ∃ b ∈ before, b.id = c.id) : FirstDefect cs (.duplicateId c.id)
  | noRoot (hm : SoundMembers cs) (h : ∀ c ∈ cs, c.parentId ≠ none) : FirstDefect cs .noRoot
  | multipleRoots {ids : List ComponentId} (hm : SoundMembers cs) (hlen : 2 ≤ ids.length)
      (hids : AreIds ids cs fun c => c.parentId = none) : FirstDefect cs (.multipleRoots ids)
  | danglingParent {c : Component} {parent : ComponentId} (hm : RootedMembers cs) (hc : c ∈ cs)
      (hparent : c.parentId = some parent) (hmissing : ∀ p ∈ cs, p.id ≠ parent)
      (hleast : ∀ d ∈ cs, ∀ id, d.parentId = some id → (∀ p ∈ cs, p.id ≠ id) →
        c.id.toNat ≤ d.id.toNat) :
      FirstDefect cs (.danglingParent c.id parent)
  | cycleOrOrphan {ids : List ComponentId} (hm : LinkedMembers cs) (hne : ids ≠ [])
      (hids : AreIds ids cs fun c => ¬ ReachesRoot cs c) : FirstDefect cs (.cycleOrOrphan ids)

end DesignCompiler
