import DesignCompiler.Tree.Basic

/-!
# DesignCompiler — forests

An arena keeps the children of a node as a list of slots. A *forest* keeps them as a forest below
the node, so that what a stack of slots does can be proved by induction on the data.

* `Forest` — labelled forests; `labels` lists them in pre-order, `depths` with their depths;
* `Forest.Fits` — the labels are slots, and below each slot stand the children that an arena lists;
* `walk_fits` — a walk over the top slots of a fitting forest meets its slots in pre-order;
* `Forest.exists_fits` — slots whose children lie ever deeper, but not deeper than a bound, are the
  tops of a fitting forest.
-/

namespace DesignCompiler

/-- A forest is empty, or a first tree, which is a label over a forest, and the trees behind it. -/
inductive Forest (α : Type) where
  | nil
  | cons (label : α) (below rest : Forest α)
deriving DecidableEq, Repr

namespace Forest

variable {α β : Type}

/-- All labels, each before those below it. -/
def labels : Forest α → List α
  | nil => []
  | cons a below rest => a :: (below.labels ++ rest.labels)

/-- All labels in that order with their depths, the top ones at depth `d`. -/
def depths (d : Nat) : Forest α → List (α × Nat)
  | nil => []
  | cons a below rest => (a, d) :: (below.depths (d + 1) ++ rest.depths d)

/-- The labels at the top. -/
def tops : Forest α → List α
  | nil => []
  | cons a _ rest => a :: rest.tops

/-- The forest with every label replaced. -/
def map (f : α → β) : Forest α → Forest β
  | nil => nil
  | cons a below rest => cons (f a) (below.map f) (rest.map f)

/-- The trees of one forest, then those of another. -/
def append : Forest α → Forest α → Forest α
  | nil, g => g
  | cons a below rest, g => cons a below (rest.append g)

/-- Below every slot stand exactly the children that it has, in their order. -/
def Fits (children : Nat → List Nat) : Forest Nat → Prop
  | nil => True
  | cons slot below rest => below.tops = children slot ∧ below.Fits children ∧ rest.Fits children

@[simp] theorem labels_map (f : α → β) (t : Forest α) : (t.map f).labels = t.labels.map f := by
  induction t with
  | nil => rfl
  | cons a below rest ihb ihr => simp [map, labels, ihb, ihr]

@[simp] theorem map_map {γ : Type} (f : α → β) (g : β → γ) (t : Forest α) :
    (t.map f).map g = t.map (g ∘ f) := by
  induction t with
  | nil => rfl
  | cons a below rest ihb ihr => simp [map, ihb, ihr]

theorem map_id (t : Forest α) : t.map id = t := by
  induction t with
  | nil => rfl
  | cons a below rest ihb ihr => rw [map, ihb, ihr, id]

theorem map_eq_map_iff {f g : α → β} {t : Forest α} :
    t.map f = t.map g ↔ ∀ a ∈ t.labels, f a = g a := by
  induction t with
  | nil => simp [map, labels]
  | cons a below rest ihb ihr =>
    simp only [map, labels, cons.injEq, ihb, ihr, List.mem_cons, List.mem_append]
    grind

@[simp] theorem map_fst_depths (t : Forest α) (d : Nat) :
    (t.depths d).map Prod.fst = t.labels := by
  induction t generalizing d with
  | nil => rfl
  | cons a below rest ihb ihr => simp [depths, labels, ihb, ihr]

@[simp] theorem append_nil (t : Forest α) : t.append nil = t := by
  induction t with
  | nil => rfl
  | cons a below rest _ ihr => rw [append, ihr]

theorem labels_append (t u : Forest α) : (t.append u).labels = t.labels ++ u.labels := by
  induction t with
  | nil => rfl
  | cons a below rest _ ihr => simp only [append, labels, ihr, List.cons_append, List.append_assoc]

theorem append_assoc (t u v : Forest α) : (t.append u).append v = t.append (u.append v) := by
  induction t with
  | nil => rfl
  | cons a below rest _ ihr => simp only [append, ihr]

theorem mem_labels_of_mem_tops {t : Forest α} {a : α} (h : a ∈ t.tops) : a ∈ t.labels := by
  induction t with
  | nil => simp [tops] at h
  | cons b below rest _ ihr =>
    rw [labels, List.mem_cons, List.mem_append]
    rcases List.mem_cons.mp h with rfl | hr
    · exact Or.inl rfl
    · exact Or.inr (Or.inr (ihr hr))

/-- Labels can be replaced by a list of their own. -/
theorem exists_labels_eq {t : Forest α} {f : β → α} {l : List β} (h : l.map f = t.labels) :
    ∃ u : Forest β, u.map f = t ∧ u.labels = l := by
  induction t generalizing l with
  | nil =>
    rw [labels, List.map_eq_nil_iff] at h
    exact ⟨nil, rfl, h.symm⟩
  | cons a below rest ihb ihr =>
    rw [labels, List.map_eq_cons_iff] at h
    obtain ⟨b, l, rfl, rfl, h⟩ := h
    -- the list splits where the labels below end
    obtain ⟨lb, lr, rfl, hb, hr⟩ := List.map_eq_append_iff.mp h
    obtain ⟨ub, rfl, rfl⟩ := ihb hb
    obtain ⟨ur, rfl, rfl⟩ := ihr hr
    exact ⟨cons b ub ur, rfl, rfl⟩

/-- The children of a slot in a fitting forest stand in it too. -/
theorem Fits.mem_labels {children : Nat → List Nat} {t : Forest Nat} (h : t.Fits children)
    {slot child : Nat} (hs : slot ∈ t.labels) (hc : child ∈ children slot) :
    child ∈ t.labels := by
  induction t with
  | nil => simp [labels] at hs
  | cons a below rest ihb ihr =>
    obtain ⟨htops, hb, hr⟩ := h
    rw [labels, List.mem_cons, List.mem_append] at hs ⊢
    rcases hs with rfl | hs | hs
    · exact Or.inr (Or.inl (mem_labels_of_mem_tops (htops ▸ hc)))
    · exact Or.inr (Or.inl (ihb hb hs))
    · exact Or.inr (Or.inr (ihr hr hs))

/--
Slots have a fitting forest if the children of a slot at one level are at the next one and all
levels lie below `n`. The induction is on the number `m` of levels that are left.
-/
theorem exists_fits {children : Nat → List Nat} (level : Nat → Nat → Prop) {n : Nat}
    (hlt : ∀ {slot k}, level slot k → k < n)
    (hchild : ∀ {slot k child}, level slot k → child ∈ children slot → level child (k + 1))
    (m : Nat) (slots : List Nat) (h : ∀ slot ∈ slots, ∃ k, level slot k ∧ n ≤ k + m) :
    ∃ t : Forest Nat, t.tops = slots ∧ t.Fits children := by
  induction m generalizing slots with
  | zero =>
    cases slots with
    | nil => exact ⟨nil, rfl, trivial⟩
    | cons slot rest =>
      -- no level is left for a slot to be on
      obtain ⟨k, hk, hn⟩ := h slot (List.mem_cons_self ..)
      have := hlt hk
      omega
  | succ m ihm =>
    induction slots with
    | nil => exact ⟨nil, rfl, trivial⟩
    | cons slot rest ihs =>
      obtain ⟨k, hk, hn⟩ := h slot (List.mem_cons_self ..)
      obtain ⟨below, hbtops, hbelow⟩ := ihm (children slot) fun child hc =>
        ⟨k + 1, hchild hk hc, by omega⟩
      obtain ⟨others, hrtops, hrest⟩ := ihs fun s hs => h s (List.mem_cons_of_mem _ hs)
      exact ⟨cons slot below others, by rw [tops, hrtops], hbtops, hbelow, hrest⟩

end Forest

theorem walk_nil (children : Nat → List Nat) (limit : Nat) : walk children limit [] = [] := by
  cases limit <;> rfl

/-- A walk that has to meet a fitting forest first meets its slots in pre-order, and then goes on
with what waits behind it. -/
theorem walk_fits {children : Nat → List Nat} {t : Forest Nat} (h : t.Fits children)
    (limit d : Nat) (rest : List (Nat × Nat)) :
    walk children (t.labels.length + limit) (t.tops.map (·, d) ++ rest) =
      t.depths d ++ walk children limit rest := by
  induction t generalizing limit d rest with
  | nil => simp [Forest.labels, Forest.tops, Forest.depths]
  | cons slot below others ihb ihr =>
    obtain ⟨htops, hb, hr⟩ := h
    have hlen : (Forest.cons slot below others).labels.length + limit =
        below.labels.length + (others.labels.length + limit) + 1 := by
      simp only [Forest.labels, List.length_cons, List.length_append]
      omega
    -- the slot goes, its children take its place, and behind them wait the other tops
    rw [hlen, Forest.tops, List.map_cons, List.cons_append, walk, ← htops, ihb hb, ihr hr]
    simp [Forest.depths]

end DesignCompiler
