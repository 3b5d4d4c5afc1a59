import DesignCompiler.Proofs.Emission.Elements
import DesignCompiler.Proofs.Tree.Traversal

/-!
# DesignCompiler — markup along a forest

The markup is written by a loop over a stack of visits, which stops when the stack is empty. Written
by recursion along the forest of a tree, it is the same text: an element that stands above others is
opened, they are written one level deeper, and it is closed.

* `Markup.rendering` — the markup of a forest of page elements;
* `Markup.texts` — the same text, cut into what the single visits write;
* `Markup.next` — a step of the loop;
* `yields_texts` — the loop writes the forest that waits on its stack;
* `markup_eq_rendering` — the markup of a tree is a rendering.
-/

namespace DesignCompiler

namespace Markup

/-! ## Texts of a forest -/

/-- The markup of a forest whose trees stand at a depth. -/
def rendering (s : Settings) : (depth : Nat) → Forest PageElement → List Char
  | _, .nil => []
  | depth, .cons e .nil rest => line s.indent depth (leaf s.dialect e) ++ rendering s depth rest
  | depth, .cons e (.cons a below others) rest =>
    opening s depth e ++ rendering s (depth + 1) (.cons a below others) ++
      line s.indent depth (endTag e) ++ rendering s depth rest

theorem rendering_cons (s : Settings) (depth : Nat) (e : PageElement)
    (below rest : Forest PageElement) :
    rendering s depth (.cons e below rest) =
      rendering s depth (.cons e below .nil) ++ rendering s depth rest := by
  cases below with
  | nil => simp [rendering]
  | cons a below others => simp [rendering]

/-- The texts of the visits to a forest: one that enters each slot, and one that leaves it below its
children. -/
def texts (s : Settings) : (depth : Nat) → Forest PageElement → List (List Char)
  | _, .nil => []
  | depth, .cons e .nil rest => line s.indent depth (leaf s.dialect e) :: texts s depth rest
  | depth, .cons e (.cons a below others) rest =>
    opening s depth e :: (texts s (depth + 1) (.cons a below others) ++
      line s.indent depth (endTag e) :: texts s depth rest)

theorem flatten_texts (s : Settings) (depth : Nat) (f : Forest PageElement) :
    (texts s depth f).flatten = rendering s depth f := by
  fun_induction texts s depth f with
  | case1 => rfl
  | case2 depth e rest ih => rw [List.flatten_cons, ih, rendering]
  | case3 depth e a below others rest ihb ihr =>
    rw [List.flatten_cons, List.flatten_append, List.flatten_cons, ihb, ihr, rendering]
    simp only [List.append_assoc]

theorem length_texts_le (s : Settings) (depth : Nat) (f : Forest PageElement) :
    (texts s depth f).length ≤ 2 * f.labels.length := by
  fun_induction texts s depth f with
  | case1 => simp
  | case2 depth e rest ih =>
    simp only [Forest.labels, List.length_cons, List.length_append, List.length_nil]
    omega
  | case3 depth e a below others rest ihb ihr =>
    simp only [Forest.labels, List.length_cons, List.length_append] at ihb ⊢
    omega

/-! ## The loop -/

/-- A step of the loop: the text of the visit on top of the stack, and the stack with the visits
that come before all others in its place. -/
def next (s : Settings) (t : PageTree) (es : List PageElement) :
    List Visit → Option (List Char × List Visit)
  | [] => none
  | v :: rest => some ((step s t es v).1, (step s t es v).2 ++ rest)

section

variable {s : Settings} {t : PageTree} {es : List PageElement} {slot : Nat} {n : Node}
  {e : PageElement}

/-- Entering a slot without children writes its line. -/
theorem next_enter_leaf (hn : t.nodes[slot]? = some n) (he : es[slot]? = some e)
    (hc : n.children = []) (rest : List Visit) :
    next s t es (.enter slot :: rest) =
      some (line s.indent n.depth (leaf s.dialect e), rest) := by
  simp [next, step, hn, he, hc]

/-- Entering a slot with children writes its opening and leaves a visit that closes it. -/
theorem next_enter (hn : t.nodes[slot]? = some n) (he : es[slot]? = some e)
    (hc : n.children ≠ []) (rest : List Visit) :
    next s t es (.enter slot :: rest) =
      some (opening s n.depth e, n.children.map .enter ++ .leave slot :: rest) := by
  simp [next, step, hn, he, hc]

theorem next_leave (hn : t.nodes[slot]? = some n) (he : es[slot]? = some e) (rest : List Visit) :
    next s t es (.leave slot :: rest) = some (line s.indent n.depth (endTag e), rest) := by
  simp [next, step, hn, he]

end

/-- A loop that ends has written the same within every bound that it does not exceed. -/
theorem run_eq_flatten {s : Settings} {t : PageTree} {es : List PageElement} {visits : List Visit}
    {written : List (List Char)} (h : Yields (next s t es) visits written) {limit : Nat}
    (hlimit : written.length ≤ limit) : run s t es limit visits = written.flatten := by
  induction h generalizing limit with
  | @done visits h =>
    cases visits with
    | nil => cases limit <;> rfl
    | cons v rest => exact nomatch h
  | @item visits after text written h _ ih =>
    cases visits with
    | nil => exact nomatch h
    | cons v rest =>
      obtain ⟨rfl, rfl⟩ := Prod.mk.inj (Option.some.inj h)
      obtain ⟨limit, rfl⟩ := Nat.exists_eq_succ_of_ne_zero (Nat.ne_zero_of_lt hlimit)
      simp only [run, ih (Nat.le_of_succ_le_succ hlimit), List.flatten_cons]

/--
The loop that enters the tops of a forest writes its texts, and then those of what waits behind
them. The induction follows the forest: an element above others waits below its children's visits.
-/
theorem yields_texts {s : Settings} {t : PageTree} {es : List PageElement}
    {f : Forest (Nat × PageElement)} (hfits : (f.map Prod.fst).Fits t.children)
    (hes : ∀ p ∈ f.labels, es[p.1]? = some p.2) {depth : Nat}
    (hdepth : ∀ slot d, (slot, d) ∈ (f.map Prod.fst).depths depth →
      ∃ n, t.nodes[slot]? = some n ∧ n.depth = d)
    {rest : List Visit} {written : List (List Char)} (h : Yields (next s t es) rest written) :
    Yields (next s t es) ((f.map Prod.fst).tops.map .enter ++ rest)
      (texts s depth (f.map Prod.snd) ++ written) := by
  induction f generalizing depth rest written with
  | nil => exact h
  | cons p below others ihb ihr =>
    obtain ⟨slot, e⟩ := p
    obtain ⟨htops, hb, hr⟩ := hfits
    obtain ⟨n, hn, rfl⟩ := hdepth slot depth (by simp [Forest.map, Forest.depths])
    have he : es[slot]? = some e := hes (slot, e) (by simp [Forest.labels])
    have hchildren : t.children slot = n.children := by simp only [PageTree.children, hn]
    rw [hchildren] at htops
    have hrest : Yields (next s t es) ((others.map Prod.fst).tops.map .enter ++ rest)
        (texts s n.depth (others.map Prod.snd) ++ written) :=
      ihr hr (fun q hq => hes q (by simp [Forest.labels, hq]))
        (fun i d hi => hdepth i d (by simp [Forest.map, Forest.depths, hi])) h
    have hbelow : ∀ {rest written}, Yields (next s t es) rest written →
        Yields (next s t es) ((below.map Prod.fst).tops.map .enter ++ rest)
          (texts s (n.depth + 1) (below.map Prod.snd) ++ written) :=
      ihb hb (fun q hq => hes q (by simp [Forest.labels, hq]))
        (fun i d hi => hdepth i d (by simp [Forest.map, Forest.depths, hi]))
    cases below with
    | nil => exact .item (next_enter_leaf hn he htops.symm _) hrest
    | cons q below others' =>
      have hc : n.children ≠ [] := by
        rw [← htops]
        simp [Forest.map, Forest.tops]
      -- between the visits that open and close the element stand those of its children
      have hclose := hbelow (.item (next_leave hn he _) hrest)
      rw [htops] at hclose
      simp only [Forest.map, texts, List.cons_append, List.append_assoc]
      exact .item (next_enter hn he hc _) hclose

end Markup

open Markup

/-- The loop from the root of a tree writes the texts of its forest, and stops then. -/
theorem PageTree.Lists.yields_texts {t : PageTree} {f : Forest (Nat × PageElement)} (h : t.Lists f)
    {es : List PageElement} (hes : ∀ p ∈ f.labels, es[p.1]? = some p.2) (s : Settings) :
    Yields (Markup.next s t es) [.enter t.root] (texts s 0 (f.map Prod.snd)) := by
  have hempty : Yields (Markup.next s t es) [] [] := .done rfl
  have hloop := Markup.yields_texts h.unfolds.fits hes h.unfolds.depth hempty
  rwa [h.unfolds.tops, List.append_nil, List.append_nil] at hloop

/-- It takes at most two visits for each node. -/
theorem PageTree.Lists.length_texts_le {t : PageTree} {f : Forest (Nat × PageElement)}
    (h : t.Lists f) (s : Settings) : (texts s 0 (f.map Prod.snd)).length ≤ 2 * t.size := by
  have hslots := h.unfolds.slots.length_eq
  rw [Forest.labels_map, List.length_map, List.length_range] at hslots
  have hle := Markup.length_texts_le s 0 (f.map Prod.snd)
  rwa [Forest.labels_map, List.length_map, hslots] at hle

/-- The markup of a tree is the rendering of its forest. -/
theorem markup_eq_rendering {t : PageTree} {f : Forest (Nat × PageElement)} (h : t.Lists f)
    {es : List PageElement} (hes : ∀ p ∈ f.labels, es[p.1]? = some p.2) (s : Settings) :
    t.markup s es = String.ofList (rendering s 0 (f.map Prod.snd)) := by
  rw [PageTree.markup, run_eq_flatten (h.yields_texts hes s) (h.length_texts_le s), flatten_texts]

end DesignCompiler
