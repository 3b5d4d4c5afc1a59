import DesignCompiler.Element.Kind
import DesignCompiler.Proofs.Text.Digits
import DesignCompiler.Proofs.Text.Pieces
import DesignCompiler.Proofs.Text.Spans
import DesignCompiler.Proofs.Tree.Traversal

/-!
# DesignCompiler — outlines, line by line

The outline of a tree has an entry for every component, in pre-order. Kinds and names are written as
they stand, also with line feeds in them, and so an entry can take several lines.

* `Node.entry` — what an outline says about a node;
* `outlineLines`, `readEntry` — the lines of an outline, and what can be read off one of them;
* `Component.feeds`, `IsLegible` — what stands in the way;
* `readEntry_entry_iff` — an entry is read back exactly if its kind is legible;
* `build_outlined` — entries, lines and readings of the outlines of all built trees.
-/

namespace DesignCompiler

/-! ## Entries and readings -/

/-- What an outline says about a node: its depth, as two blanks for each level, the kind, the
identifier, and the name between quotes unless it is empty. -/
def Node.entry (n : Node) : List Char :=
  List.replicate (2 * n.depth) ' ' ++ (n.component.kind.toList ++ ' ' :: '#' ::
    (n.component.id.text.toList ++
      if n.component.name = "" then [] else ' ' :: '"' :: n.component.name.toList ++ ['"']))

/-- The depth, the kind and the identifier of a node. -/
def Node.place (n : Node) : Nat × List Char × Nat :=
  (n.depth, n.component.kind.toList, n.component.id.toNat)

/-- How many line feeds are in the kind and in the name. -/
def Component.feeds (c : Component) : Nat :=
  c.kind.toList.count '\n' + c.name.toList.count '\n'

/-- The lines of a text in which every line ends with a line feed. -/
def outlineLines (text : String) : List (List Char) :=
  (Text.pieces '\n' text.toList).dropLast

/-- A text up to the sign in front of an identifier, and what follows this sign. -/
def cutAtId : List Char → List Char × List Char
  | [] => ([], [])
  | c :: cs =>
    if c = ' ' ∧ cs.head? = some '#' then ([], cs.tail)
    else (c :: (cutAtId cs).1, (cutAtId cs).2)

/-- What a line says: one level for every two blanks that it begins with, then the kind, and behind
the first sign the identifier. -/
def readEntry (line : List Char) : Nat × List Char × Nat :=
  let depth := (line.takeWhile (· = ' ')).length / 2
  let (kind, rest) := cutAtId (line.drop (2 * depth))
  (depth, kind, Nat.ofDigitChars 10 (rest.takeWhile Char.isDigit) 0)

/-- Kinds that look neither like a deeper level nor like another identifier. -/
structure IsLegible (kind : List Char) : Prop where
  unindented : ¬ [' ', ' '] <+: kind ++ [' ']
  unmarked : ¬ [' ', '#'] <:+: kind

theorem Node.toList_outline (n : Node) : n.outline.toList = n.entry ++ ['\n'] := by
  simp only [Node.outline, Node.entry, String.toList_append, String.toList_ofList,
    String.isEmpty_iff]
  split
  · simp
  · simp

/-! ## Reading an entry -/

theorem head?_cutAtId {cs : List Char} {c : Char} (h : c ∈ (cutAtId cs).1.head?) :
    c ∈ cs.head? := by
  cases cs with
  | nil => exact h
  | cons d ds =>
    rw [cutAtId] at h
    split at h
    · exact nomatch h
    · exact h

/-- The text is cut at the first sign. -/
theorem cutAtId_unmarked (cs : List Char) : ¬ [' ', '#'] <:+: (cutAtId cs).1 := by
  induction cs with
  | nil => simp [cutAtId]
  | cons c cs ih =>
    rw [cutAtId]
    split
    · simp
    · rename_i hsign
      rw [List.infix_cons_iff, not_or]
      refine ⟨fun hprefix => ?_, ih⟩
      rw [List.cons_prefix_cons] at hprefix
      obtain ⟨rfl, rest, hrest⟩ := hprefix
      exact hsign ⟨rfl, head?_cutAtId (by rw [← hrest]; rfl)⟩

theorem cutAtId_append_iff {kind rest : List Char} :
    cutAtId (kind ++ ' ' :: '#' :: rest) = (kind, rest) ↔ ¬ [' ', '#'] <:+: kind := by
  constructor
  · intro h
    have hunmarked := cutAtId_unmarked (kind ++ ' ' :: '#' :: rest)
    rwa [h] at hunmarked
  · intro h
    induction kind with
    | nil => rfl
    | cons c cs ih =>
      rw [List.infix_cons_iff, not_or] at h
      -- The mark does not begin here, so the cut is further on.
      have hsign : ¬ (c = ' ' ∧ (cs ++ ' ' :: '#' :: rest).head? = some '#') := by
        rintro ⟨rfl, hhead⟩
        cases cs with
        | nil => exact absurd hhead (by simp)
        | cons d ds =>
          obtain rfl : d = '#' := by simpa using hhead
          exact h.1 ⟨ds, rfl⟩
      rw [List.cons_append, cutAtId, if_neg hsign, ih h.2]

/-- The blanks that a text begins with. -/
theorem two_le_blanks_iff {cs : List Char} :
    2 ≤ (cs.takeWhile (· = ' ')).length ↔ [' ', ' '] <+: cs := by
  match cs with
  | [] => simp
  | [c] =>
    rw [List.takeWhile_cons]
    split <;> simp
  | c :: d :: cs =>
    by_cases hc : c = ' '
    · by_cases hd : d = ' '
      · simp [hc, hd]
      · simp [hc, hd, Ne.symm hd]
    · simp [hc, Ne.symm hc]

theorem blanks_prefix_iff {kind rest : List Char} :
    [' ', ' '] <+: kind ++ ' ' :: '#' :: rest ↔ [' ', ' '] <+: kind ++ [' '] := by
  match kind with
  | [] => simp
  | [c] => simp
  | c :: d :: cs => simp

/-- What is read off an indented text that does not begin with two blanks. -/
theorem readEntry_append {depth : Nat} {cs : List Char} (h : ¬ [' ', ' '] <+: cs) :
    readEntry (List.replicate (2 * depth) ' ' ++ cs) =
      (depth, (cutAtId cs).1, Nat.ofDigitChars 10 ((cutAtId cs).2.takeWhile Char.isDigit) 0) := by
  rw [← two_le_blanks_iff, Nat.not_le] at h
  have hdepth :
      ((List.replicate (2 * depth) ' ' ++ cs).takeWhile (· = ' ')).length / 2 = depth := by
    rw [List.takeWhile_append_of_pos (by simp), List.length_append, List.length_replicate]
    omega
  have hdrop : (List.replicate (2 * depth) ' ' ++ cs).drop (2 * depth) = cs :=
    List.drop_left' List.length_replicate
  simp only [readEntry, hdepth, hdrop]

/-- With two blanks more, a text seems to be deeper. -/
theorem lt_readEntry_append {depth : Nat} {cs : List Char} (h : [' ', ' '] <+: cs) :
    depth < (readEntry (List.replicate (2 * depth) ' ' ++ cs)).1 := by
  rw [← two_le_blanks_iff] at h
  simp only [readEntry]
  rw [List.takeWhile_append_of_pos (by simp), List.length_append, List.length_replicate]
  omega

theorem ComponentId.toList_text (id : ComponentId) :
    id.text.toList = Nat.toDigits 10 id.toNat := by
  rw [ComponentId.text, Nat.toString_eq_ofList_toDigits, String.toList_ofList, ComponentId.toNat]

/-- The digits of an identifier end where the name begins. -/
theorem ofDigitChars_text (id : ComponentId) {rest : List Char}
    (hrest : ∀ c ∈ rest.head?, c.isDigit = false) :
    Nat.ofDigitChars 10 ((id.text.toList ++ rest).takeWhile Char.isDigit) 0 = id.toNat := by
  have hdigits : ∀ c ∈ Nat.toDigits 10 id.toNat, c.isDigit = true := fun _ =>
    isDigit_of_mem_toDigits
  rw [ComponentId.toList_text, takeWhile_append_stop hdigits hrest,
    Nat.ofDigitChars_ten_toDigits]

theorem readEntry_entry_iff (n : Node) :
    readEntry n.entry = n.place ↔ IsLegible n.component.kind.toList := by
  constructor
  · intro h
    have hdepth : (readEntry n.entry).1 = n.depth := congrArg Prod.fst h
    -- Two more blanks would be read as a step of depth.
    have hunindented : ¬ [' ', ' '] <+: n.component.kind.toList ++ [' '] := by
      intro hblanks
      exact absurd hdepth (Nat.ne_of_gt (lt_readEntry_append (blanks_prefix_iff.mpr hblanks)))
    rw [Node.entry, readEntry_append (mt blanks_prefix_iff.mp hunindented), Node.place,
      Prod.mk.injEq, Prod.mk.injEq] at h
    refine ⟨hunindented, ?_⟩
    rw [← h.2.1]
    exact cutAtId_unmarked _
  · rintro ⟨hunindented, hunmarked⟩
    rw [← blanks_prefix_iff] at hunindented
    rw [Node.entry, readEntry_append hunindented, cutAtId_append_iff.mpr hunmarked, Node.place,
      ofDigitChars_text]
    intro c hc
    split at hc
    · exact nomatch hc
    · cases hc
      decide

/-! ## Lines -/

theorem count_entry (n : Node) : n.entry.count '\n' = n.component.feeds := by
  have hid : n.component.id.text.toList.count '\n' = 0 := by
    rw [List.count_eq_zero, ComponentId.toList_text]
    intro h
    exact absurd (isDigit_of_mem_toDigits h) (by decide)
  rw [Node.entry, Component.feeds, List.count_append, List.count_append,
    List.count_eq_zero_of_not_mem (by simp), Nat.zero_add,
    List.count_cons_of_ne (by decide), List.count_cons_of_ne (by decide), List.count_append, hid,
    Nat.zero_add]
  congr 1
  split
  · rename_i hname
    rw [hname]
    rfl
  · rw [List.cons_append, List.cons_append, List.count_cons_of_ne (by decide),
      List.count_cons_of_ne (by decide), List.count_append]
    rfl

theorem length_outlineLines (text : String) :
    (outlineLines text).length = text.toList.count '\n' := by
  rw [outlineLines, List.length_dropLast, Text.length_pieces, Nat.add_sub_cancel]

/-- Entries without line feeds are the lines of what they are put together to. -/
theorem outlineLines_eq {text : String} {entries : List (List Char)}
    (htext : text.toList = entries.flatMap (· ++ ['\n'])) :
    outlineLines text = entries ↔ ∀ e ∈ entries, '\n' ∉ e := by
  rw [outlineLines, htext]
  constructor
  · intro h e he
    rw [← h] at he
    exact Text.mem_pieces (List.mem_of_mem_dropLast he)
  · intro h
    rw [Text.pieces_flatMap h, List.dropLast_concat]

/-! ## Outlines of trees -/

theorem PageTree.toList_outline (t : PageTree) :
    t.outline.toList = (t.preorderNodes.map Node.entry).flatMap (· ++ ['\n']) := by
  rw [PageTree.outline, String.toList_join, List.flatMap_map, List.flatMap_map]
  exact List.flatMap_congr fun n _ => n.toList_outline

theorem filterMap_getElem?_range {α : Type} (xs : List α) :
    (List.range xs.length).filterMap (xs[·]?) = xs := by
  induction xs with
  | nil => rfl
  | cons x xs ih =>
    rw [List.length_cons, List.range_succ_eq_map, List.filterMap_cons, List.filterMap_map]
    exact congrArg (x :: ·) ih

/-- The walk in pre-order meets every component once. -/
theorem components_preorderNodes {cs : List Component} {t : PageTree}
    (h : PageTree.build cs = .ok t) : (t.preorderNodes.map Node.component).Perm cs := by
  obtain ⟨f, hf, hpre⟩ := exists_unfolds h
  have hnodes : t.preorderNodes.Perm t.nodes := by
    have hperm := hf.slots.filterMap (t.nodes[·]?)
    rwa [PageTree.size, filterMap_getElem?_range, ← hpre] at hperm
  have hcomponents := hnodes.map Node.component
  rw [map_component_nodes h] at hcomponents
  exact hcomponents.trans (sortById_perm cs)

/-- Each entry has as many lines more as there are line feeds in it. -/
theorem count_entries (ns : List Node) :
    ((ns.map Node.entry).flatMap (· ++ ['\n'])).count '\n' =
      ns.length + ((ns.map Node.component).map Component.feeds).sum := by
  induction ns with
  | nil => rfl
  | cons n ns ih =>
    simp only [List.map_cons, List.flatMap_cons, List.count_append, List.length_cons,
      List.sum_cons, ih, count_entry, List.count_singleton_self]
    omega

/-! ## Known kinds -/

theorem notMem_words (k : Kind) : ∀ word ∈ k.words, ' ' ∉ word.toList ∧ '\n' ∉ word.toList := by
  cases k <;> decide

theorem toList_toLower (word : String) : word.toLower.toList = word.toList.map Char.toLower := by
  rw [String.toLower, String.toList_map]

/-- Words for kinds have no blanks and no line feeds, in any letter case. -/
theorem notMem_of_ofText? {word : String} {k : Kind} (h : Kind.ofText? word = some k) :
    ' ' ∉ word.toList ∧ '\n' ∉ word.toList := by
  have hword : word.toLower ∈ k.words := by
    simpa using List.find?_some h
  obtain ⟨hblank, hfeed⟩ := notMem_words k _ hword
  rw [toList_toLower] at hblank hfeed
  exact ⟨fun hmem => hblank (List.mem_map_of_mem hmem),
    fun hmem => hfeed (List.mem_map_of_mem hmem)⟩

theorem isLegible_of_notMem {kind : List Char} (h : ' ' ∉ kind) : IsLegible kind where
  unindented := by
    rintro ⟨rest, hrest⟩
    cases kind with
    | nil => exact absurd hrest (by simp)
    | cons c cs =>
      obtain rfl : ' ' = c := (List.cons.inj hrest).1
      exact h (List.mem_cons_self ..)
  unmarked := fun hsign => h (hsign.subset (List.mem_cons_self ..))

/-- The outline of a tree of these components. -/
structure PageTree.Outlined (t : PageTree) (cs : List Component) : Prop where
  /-- It has an entry for every component, in pre-order, with a line feed behind it. -/
  entries : t.outline.toList = (t.preorderNodes.map Node.entry).flatMap (· ++ ['\n'])
  once : (t.preorderNodes.map Node.component).Perm cs
  size : t.size = cs.length
  /-- There is one line more for every line feed in a kind or a name. -/
  count : (outlineLines t.outline).length = t.size + (cs.map Component.feeds).sum
  lines : outlineLines t.outline = t.preorderNodes.map Node.entry ↔ ∀ c ∈ cs, c.feeds = 0
  /-- Depths, kinds and identifiers can be read back. -/
  readable : (outlineLines t.outline).map readEntry = t.preorderNodes.map Node.place ↔
    ∀ c ∈ cs, c.feeds = 0 ∧ IsLegible c.kind.toList
  /-- Where kinds are known, only the names stand in the way. -/
  known : (∀ c ∈ cs, (Kind.ofText? c.kind).isSome) →
    ((outlineLines t.outline).map readEntry = t.preorderNodes.map Node.place ↔
      ∀ c ∈ cs, '\n' ∉ c.name.toList)

/-- Lines and components are as many exactly if there is no line feed. -/
theorem forall_feeds_iff {cs : List Component} {k : Nat} :
    k + (cs.map Component.feeds).sum = k ↔ ∀ c ∈ cs, c.feeds = 0 := by
  rw [Nat.add_eq_left, List.sum_eq_zero_iff, List.forall_mem_map]

section Built

variable {cs : List Component} {t : PageTree} (h : PageTree.build cs = .ok t)

include h

theorem length_preorderNodes : t.preorderNodes.length = cs.length := by
  rw [← List.length_map Node.component, (components_preorderNodes h).length_eq]

theorem size_eq_length : t.size = cs.length := by
  rw [PageTree.size, ← List.length_map Node.component, map_component_nodes h,
    (sortById_perm cs).length_eq]

theorem length_outline :
    (outlineLines t.outline).length = t.size + (cs.map Component.feeds).sum := by
  rw [length_outlineLines, t.toList_outline, count_entries, length_preorderNodes h,
    size_eq_length h, ((components_preorderNodes h).map Component.feeds).sum_eq]

/-- The entries are the lines if no line feed is in one of them. -/
theorem outlineLines_outline_iff :
    outlineLines t.outline = t.preorderNodes.map Node.entry ↔ ∀ c ∈ cs, c.feeds = 0 := by
  rw [outlineLines_eq t.toList_outline, List.forall_mem_map,
    ← forall_mem_preorderNodes_iff h (p := fun c => c.feeds = 0)]
  refine forall₂_congr fun n _ => ?_
  rw [← count_entry, List.count_eq_zero]

theorem readings_iff :
    (t.preorderNodes.map Node.entry).map readEntry = t.preorderNodes.map Node.place ↔
      ∀ c ∈ cs, IsLegible c.kind.toList := by
  rw [List.map_map, List.map_inj_left,
    ← forall_mem_preorderNodes_iff h (p := fun c => IsLegible c.kind.toList)]
  exact forall₂_congr fun n _ => readEntry_entry_iff n

theorem readable_iff :
    (outlineLines t.outline).map readEntry = t.preorderNodes.map Node.place ↔
      ∀ c ∈ cs, c.feeds = 0 ∧ IsLegible c.kind.toList := by
  rw [forall₂_and, ← outlineLines_outline_iff h, ← readings_iff h]
  constructor
  · intro hread
    -- there are as many lines as components, so the lines are the entries
    have hlen := congrArg List.length hread
    rw [List.length_map, List.length_map, length_outline h, length_preorderNodes h,
      size_eq_length h, forall_feeds_iff, ← outlineLines_outline_iff h] at hlen
    exact ⟨hlen, hlen ▸ hread⟩
  · rintro ⟨hentries, hread⟩
    rw [hentries]
    exact hread

/-- **The outline of a built tree.** Its entries are those of all components in pre-order. They are
its lines exactly if no kind and no name has a line feed, and its lines can be read back exactly if
moreover every kind is legible. -/
theorem build_outlined : t.Outlined cs where
  entries := t.toList_outline
  once := components_preorderNodes h
  size := size_eq_length h
  count := length_outline h
  lines := outlineLines_outline_iff h
  readable := readable_iff h
  known := by
    intro hknown
    rw [readable_iff h]
    refine forall₂_congr fun c hc => ?_
    -- a known kind has no line feeds and is legible
    obtain ⟨k, hk⟩ := Option.isSome_iff_exists.mp (hknown c hc)
    obtain ⟨hblank, hfeed⟩ := notMem_of_ofText? hk
    rw [Component.feeds, List.count_eq_zero.mpr hfeed, Nat.zero_add, List.count_eq_zero]
    exact and_iff_left (isLegible_of_notMem hblank)

end Built

theorem nestedTree_outlined :
    PageTree.build nestedPage = .ok nestedTree ∧ nestedTree.Outlined nestedPage ∧
      outlineLines nestedTree.outline = ["box #5", "  box #4", "    box #3", "    box #6",
        "  box #2", "    box #1"].map String.toList :=
  ⟨by cbv, build_outlined (show PageTree.build nestedPage = _ by cbv), by cbv⟩

/-- A box whose name takes two lines. -/
def twoLineBox : Component :=
  { id := ⟨1⟩, kind := "box", name := "a\nb" }

/-- Three boxes, of which the last one is a child of the root and has two blanks in its kind. -/
def flatBoxes : List Component :=
  [nestedBox 1 none 0, nestedBox 2 (some 1) 0, { nestedBox 3 (some 1) 1 with kind := "  box" }]

/-- Three boxes, each of them in the one before. -/
def steepBoxes : List Component :=
  [nestedBox 1 none 0, nestedBox 2 (some 1) 0, nestedBox 3 (some 2) 0]

/-- A line feed in a name makes two lines of one component, and blanks in a kind make outlines of
different trees equal. -/
theorem outlines_mislead :
    (∃ t, PageTree.build [twoLineBox] = .ok t ∧ t.size = 1 ∧
      outlineLines t.outline = ["box #1 \"a", "b\""].map String.toList) ∧
    ∃ s t, PageTree.build flatBoxes = .ok s ∧ PageTree.build steepBoxes = .ok t ∧
      s.outline = t.outline ∧ s.preorderNodes.map Node.depth = [0, 1, 1] ∧
      t.preorderNodes.map Node.depth = [0, 1, 2] := by
  constructor
  · exact ⟨_, by cbv, by cbv, by cbv⟩
  · exact ⟨_, _, by cbv, by cbv, by cbv, by cbv, by cbv⟩

end DesignCompiler
