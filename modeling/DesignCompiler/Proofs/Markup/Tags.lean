import DesignCompiler.Proofs.Document.Margin

/-!
# DesignCompiler — tags that a reader has met

The reader of markup overlooks no tag. Whatever it has read, every tag of the text says something,
and every start tag is a line break or that of an element which has been read. So what the elements
of a markup are called says which tags its text can have.

* `Reading.tags` — the tags of all elements that have been read;
* `Met` — a piece of markup that these account for;
* `met_mark`, `met_foldlM` — one piece, and all pieces of a text;
* `exists_met` — markup that can be read behind a margin.
-/

namespace DesignCompiler.Markup

namespace Reading

/-- The tags of the elements that have been read, the open ones and those that are closed. -/
def tags (r : Reading) : List String :=
  r.outer.flatMap (fun o => o.tag :: o.inside.labels.map Entry.tag) ++ r.page.labels.map Entry.tag

variable {r r' : Reading} {w : String}

theorem mem_tags_put {f : Forest Entry} :
    w ∈ (r.put f).tags ↔ w ∈ r.tags ∨ w ∈ f.labels.map Entry.tag := by
  obtain ⟨_ | ⟨o, outer⟩, page, padding⟩ := r
  · simp only [put, tags, Forest.labels_append, List.map_append, List.flatMap_nil,
      List.nil_append, List.mem_append]
  · simp only [put, tags, Forest.labels_append, List.map_append, List.flatMap_cons,
      List.cons_append, List.mem_cons, List.mem_append]
    tauto

theorem tags_write {f : List (List Char) → List (List Char)} (h : r.write f = some r') :
    r'.tags = r.tags := by
  obtain ⟨_ | ⟨o, outer⟩, page, padding⟩ := r
  · exact nomatch h
  · simp only [write] at h
    split at h
    · obtain rfl := Option.some.inj h
      rfl
    · exact nomatch h

theorem tags_char {indent : Nat} {c : Char} (h : r.char indent c = some r') :
    r'.tags = r.tags := by
  unfold Reading.char at h
  split at h
  · obtain rfl := Option.some.inj h
    rfl
  · split at h
    · obtain rfl := Option.some.inj h
      rfl
    · exact tags_write h

/-- A start tag that is read is there then, unless it is a line break. -/
theorem mem_tags_start {d : Dialect} {name : String} {attributes : List Attribute} {closed : Bool}
    (h : r.tag d (.start name attributes closed) = some r') :
    (∀ w ∈ r.tags, w ∈ r'.tags) ∧ (name = "br" ∨ name ∈ r'.tags) := by
  rw [Reading.tag] at h
  split at h
  · rename_i hbr
    rw [tags_write h]
    exact ⟨fun _ hw => hw, Or.inl hbr⟩
  · split at h
    · obtain rfl := Option.some.inj h
      refine ⟨fun w hw => mem_tags_put.mpr (Or.inl hw), Or.inr (mem_tags_put.mpr (Or.inr ?_))⟩
      exact List.mem_map_of_mem (List.mem_cons_self ..)
    · obtain rfl := Option.some.inj h
      simp only [tags, List.flatMap_cons, List.cons_append, List.mem_cons, List.mem_append]
      exact ⟨fun w hw => Or.inr (hw.imp_left Or.inr), Or.inr (Or.inl trivial)⟩

/-- An end tag puts the element that it closes somewhere else. -/
theorem mem_tags_stop {d : Dialect} {name : String} (h : r.tag d (.stop name) = some r') :
    ∀ w ∈ r.tags, w ∈ r'.tags := by
  obtain ⟨_ | ⟨o, outer⟩, page, padding⟩ := r
  · cases h
  · obtain ⟨lines, -, h⟩ := Option.bind_eq_some_iff.mp h
    by_cases hname : name = o.tag
    · rw [if_pos hname] at h
      obtain rfl := Option.some.inj h
      intro w hw
      rw [mem_tags_put]
      simp only [tags, List.flatMap_cons, List.cons_append, List.mem_cons, List.mem_append,
        Forest.labels, List.map_cons, List.append_nil] at hw ⊢
      tauto
    · rw [if_neg hname] at h
      cases h

end Reading

/-- A piece of markup that the elements with some tags account for. -/
def Met (d : Dialect) (tags : List String) : Mark → Prop
  | .char _ => True
  | .tag body => ∃ tag, readTag d body = some tag ∧ ∀ name attributes closed,
      tag = .start name attributes closed → name = "br" ∨ name ∈ tags

theorem Met.mono {d : Dialect} {tags tags' : List String} (hsub : ∀ w ∈ tags, w ∈ tags') {m : Mark}
    (h : Met d tags m) : Met d tags' m := by
  cases m with
  | char c => trivial
  | tag body =>
    obtain ⟨tag, hread, hstart⟩ := h
    exact ⟨tag, hread, fun name attributes closed heq =>
      (hstart name attributes closed heq).imp_right (hsub name)⟩

section Reading

variable {d : Dialect} {indent : Nat} {r r' : Reading}

theorem met_mark {m : Mark} (h : r.mark d indent m = some r') :
    (∀ w ∈ r.tags, w ∈ r'.tags) ∧ Met d r'.tags m := by
  cases m with
  | char c =>
    rw [Reading.tags_char h]
    exact ⟨fun _ hw => hw, trivial⟩
  | tag body =>
    obtain ⟨tag, hread, h⟩ := Option.bind_eq_some_iff.mp h
    cases tag with
    | start name attributes closed =>
      obtain ⟨hkept, hname⟩ := Reading.mem_tags_start h
      refine ⟨hkept, _, hread, fun name' attributes' closed' heq => ?_⟩
      cases heq
      exact hname
    | stop name => exact ⟨Reading.mem_tags_stop h, _, hread, nofun⟩

/-- What accounts for a piece when it is read still does so in the end. -/
theorem met_foldlM {ms : List Mark} (h : ms.foldlM (Reading.mark d indent) r = some r') :
    (∀ w ∈ r.tags, w ∈ r'.tags) ∧ ∀ m ∈ ms, Met d r'.tags m := by
  induction ms generalizing r with
  | nil =>
    obtain rfl := Option.some.inj h
    exact ⟨fun _ hw => hw, nofun⟩
  | cons m ms ih =>
    rw [List.foldlM_cons] at h
    obtain ⟨next, hnext, h⟩ := Option.bind_eq_some_iff.mp h
    obtain ⟨hkept, hm⟩ := met_mark hnext
    obtain ⟨hkept', hms⟩ := ih h
    exact ⟨fun w hw => hkept' w (hkept w hw), List.forall_mem_cons.mpr ⟨hm.mono hkept', hms⟩⟩

end Reading

/-- A margin is made of blanks, so no tag is lost with it. -/
theorem tag_mem_withoutMargin {w left : Nat} {body : List Char} {ms : List Mark}
    (h : .tag body ∈ ms) : .tag body ∈ withoutMargin w left ms := by
  -- Only characters are left out, and only blanks of the margin.
  induction ms generalizing left with
  | nil => exact nomatch h
  | cons m ms ih =>
    rcases List.mem_cons.mp h with rfl | hms
    · exact List.mem_cons_self ..
    · cases m with
      | tag other => exact List.mem_cons_of_mem _ (ih hms)
      | char c =>
        rw [withoutMargin]
        split
        · exact List.mem_cons_of_mem _ (ih hms)
        · split
          · exact ih hms
          · exact List.mem_cons_of_mem _ (ih hms)

/-- The elements of a markup account for all that its text is cut into. -/
theorem exists_met {d : Dialect} {margin indent : Nat} {cs : List Char} {g : Forest Entry}
    (h : readIndented d margin indent cs = some g) :
    ∃ ms, cut none cs = some ms ∧ ∀ m ∈ ms, Met d (g.labels.map Entry.tag) m := by
  obtain ⟨ms, hms, h⟩ := Option.bind_eq_some_iff.mp h
  obtain ⟨r, hr, h⟩ := Option.bind_eq_some_iff.mp h
  split at h
  · rename_i hempty
    obtain rfl := Option.some.inj h
    obtain ⟨-, hmet⟩ := met_foldlM hr
    -- Nothing is open at the end, so every tag met stands on the page.
    have htags : r.tags = r.page.labels.map Entry.tag := by
      rw [Reading.tags, List.isEmpty_iff.mp hempty, List.flatMap_nil, List.nil_append]
    rw [htags] at hmet
    refine ⟨ms, hms, fun m hm => ?_⟩
    cases m with
    | char c => trivial
    | tag body => exact hmet _ (tag_mem_withoutMargin hm)
  · exact nomatch h

end DesignCompiler.Markup
