import DesignCompiler.Proofs.Markup.Pieces
import DesignCompiler.Proofs.Text.Pieces

/-!
# DesignCompiler — escaped texts

An escaped text says what it was made from, and it says it in one way only. The characters that have
an entity never stand for themselves in it, and an ampersand is always the beginning of an entity. So
nothing in a text is taken for markup, and what looks like an entity before it is escaped is read as
the characters that it was.

* `textEntities`, `valueEntities` — the characters with an entity, between tags and in attributes;
* `IsWritten` — a text in which all of these are entities;
* `Spells` — how one character is written, and what follows from it for texts;
* `IsFaithful` — an escape that can be undone, and that gives every written text;
* `escape_faithful` — both escapes are.
-/

namespace DesignCompiler.Markup

/-! ## Entities -/

/-- The characters of a text that are written as entities. Braces are characters like others in
HTML. -/
def textEntities : Dialect → List (Char × String)
  | .html => [('&', "&amp;"), ('<', "&lt;"), ('>', "&gt;")]
  | .jsx => [('&', "&amp;"), ('<', "&lt;"), ('>', "&gt;"), ('\x7b', "&#123;"), ('\x7d', "&#125;")]

/-- A quote would end the value of an attribute. -/
def valueEntities (d : Dialect) : List (Char × String) :=
  ('"', "&quot;") :: textEntities d

/-- An entity that can be told apart from what stands around it: it begins with its only ampersand, and
behind that stands none of the characters that have entities. -/
def IsEntity (chars : List Char) (entity : String) : Prop :=
  entity.toList.head? = some '&' ∧ ∀ c ∈ entity.toList.tail, c ∉ chars

instance (chars : List Char) (entity : String) : Decidable (IsEntity chars entity) :=
  -- over the list, as the type of all characters is finite too
  @instDecidableAnd _ _ inferInstance (List.decidableBAll (fun c => c ∉ chars) _)

/-- A table of such entities, in which the ampersand has one. -/
def AreEntities (table : List (Char × String)) : Prop :=
  '&' ∈ table.map Prod.fst ∧ ∀ p ∈ table, IsEntity (table.map Prod.fst) p.2

instance (table : List (Char × String)) : Decidable (AreEntities table) :=
  inferInstanceAs (Decidable (_ ∧ _))

theorem areEntities_text (d : Dialect) : AreEntities (textEntities d) := by
  cases d <;> decide

theorem areEntities_value (d : Dialect) : AreEntities (valueEntities d) := by
  cases d <;> decide

theorem AreEntities.exists_tail {table : List (Char × String)} (h : AreEntities table)
    {p : Char × String} (hp : p ∈ table) :
    ∃ name, p.2.toList = '&' :: name ∧ ∀ c ∈ name, c ∉ table.map Prod.fst := by
  obtain ⟨hhead, htail⟩ := h.2 p hp
  obtain ⟨name, hname⟩ := List.head?_eq_some_iff.mp hhead
  rw [hname] at htail
  exact ⟨name, hname, htail⟩

/-! ## Written texts -/

/-- A text in which no character with an entity stands for itself. An ampersand does only where an
entity begins. -/
structure IsWritten (table : List (Char × String)) (text : List Char) : Prop where
  bare : ∀ c ∈ table.map Prod.fst, c ∈ text → c = '&'
  ampersand : ∀ before rest, text = before ++ '&' :: rest →
    ∃ p ∈ table, p.2.toList <+: '&' :: rest

theorem IsWritten.of_append {table : List (Char × String)} {before text : List Char}
    (h : IsWritten table (before ++ text)) : IsWritten table text where
  bare c hc hmem := h.bare c hc (List.mem_append_right _ hmem)
  ampersand front rest heq := by
    refine h.ampersand (before ++ front) rest ?_
    rw [heq, List.append_assoc]

/-- How the characters are written: by the entity that the table has for them, or as they are. It can
be read back one character after the other. -/
structure Spells (d : Dialect) (table : List (Char × String)) (f : Char → List Char) : Prop where
  entity : ∀ p ∈ table, f p.1 = p.2.toList
  plain : ∀ c, c ∉ table.map Prod.fst → f c = [c]
  read : ∀ c rest, unescape? d none (f c ++ rest) = (unescape? d none rest).map (c :: ·)

section Spelling

variable {d : Dialect} {table : List (Char × String)} {f : Char → List Char}

/-- The two ways in which a character is written. -/
theorem Spells.cases (h : Spells d table f) (c : Char) :
    (∃ p ∈ table, f c = p.2.toList) ∨ c ∉ table.map Prod.fst ∧ f c = [c] := by
  by_cases hc : c ∈ table.map Prod.fst
  · obtain ⟨p, hp, rfl⟩ := List.mem_map.mp hc
    exact Or.inl ⟨p, hp, h.entity p hp⟩
  · exact Or.inr ⟨hc, h.plain c hc⟩

/-- An ampersand among what is written for a character begins its entity. -/
theorem Spells.entity_of_ampersand (h : Spells d table f) (htable : AreEntities table) {c : Char}
    {before more : List Char} (heq : f c = before ++ '&' :: more) :
    before = [] ∧ ∃ p ∈ table, f c = p.2.toList := by
  rcases h.cases c with ⟨p, hp, hentity⟩ | ⟨hc, hplain⟩
  · refine ⟨?_, p, hp, hentity⟩
    obtain ⟨name, hname, hother⟩ := htable.exists_tail hp
    cases before with
    | nil => rfl
    | cons x before =>
      rw [heq, hname] at hentity
      -- An entity starts with its only `&`.
      have hmem : '&' ∈ name := by
        rw [← (List.cons.inj hentity).2]
        simp
      exact absurd htable.1 (hother '&' hmem)
  · have hmem : '&' ∈ [c] := by
      rw [← hplain, heq]
      simp
    exact absurd (List.mem_singleton.mp hmem ▸ htable.1) hc

theorem Spells.ampersand (h : Spells d table f) (htable : AreEntities table) (cs : List Char)
    {before rest : List Char} (heq : cs.flatMap f = before ++ '&' :: rest) :
    ∃ p ∈ table, p.2.toList <+: '&' :: rest := by
  induction cs generalizing before with
  | nil => exact absurd heq (by simp)
  | cons c cs ih =>
    rw [List.flatMap_cons] at heq
    rcases List.append_eq_append_iff.mp heq with ⟨more, -, htext⟩ | ⟨more, hspelled, htext⟩
    · exact ih htext
    · cases more with
      | nil =>
        have hrest : cs.flatMap f = [] ++ '&' :: rest := htext.symm
        exact ih hrest
      | cons x more =>
        -- the ampersand is among the characters that are written for `c`
        rw [List.cons_append] at htext
        obtain ⟨rfl, hrest⟩ := List.cons.inj htext
        obtain ⟨rfl, p, hp, hentity⟩ := h.entity_of_ampersand htable hspelled
        refine ⟨p, hp, cs.flatMap f, ?_⟩
        rw [← hentity, hspelled, hrest, List.nil_append, List.cons_append]

/-- What is written for characters is a written text. -/
theorem Spells.isWritten (h : Spells d table f) (htable : AreEntities table) (cs : List Char) :
    IsWritten table (cs.flatMap f) where
  ampersand _ _ heq := h.ampersand htable cs heq
  bare x hx hmem := by
    obtain ⟨c, -, hxc⟩ := List.mem_flatMap.mp hmem
    rcases h.cases c with ⟨p, hp, hentity⟩ | ⟨hc, hplain⟩
    · obtain ⟨name, hname, hother⟩ := htable.exists_tail hp
      rw [hentity, hname] at hxc
      rcases List.mem_cons.mp hxc with hx' | hx'
      · exact hx'
      · exact absurd hx (hother x hx')
    · rw [hplain] at hxc
      exact absurd (List.mem_singleton.mp hxc ▸ hx) hc

/-- A written text begins with what is written for some character. -/
theorem Spells.exists_first (h : Spells d table f) {text : List Char}
    (hwritten : IsWritten table text) : text = [] ∨ ∃ c rest, text = f c ++ rest := by
  cases text with
  | nil => exact Or.inl rfl
  | cons c text =>
    refine Or.inr ?_
    by_cases hc : c ∈ table.map Prod.fst
    · obtain rfl := hwritten.bare c hc (List.mem_cons_self ..)
      obtain ⟨p, hp, rest, hrest⟩ := hwritten.ampersand [] text rfl
      exact ⟨p.1, rest, by rw [h.entity p hp, hrest]⟩
    · exact ⟨c, text, by rw [h.plain c hc, List.singleton_append]⟩

/-- A written text is what is written for the characters that are read from it. -/
theorem Spells.unique (h : Spells d table f) {cs text : List Char}
    (hwritten : IsWritten table text) (hread : unescape? d none text = some cs) :
    text = cs.flatMap f := by
  -- The first piece of a written text decides the first character read.
  induction cs generalizing text with
  | nil =>
    rcases h.exists_first hwritten with rfl | ⟨c, rest, rfl⟩
    · rfl
    · rw [h.read] at hread
      obtain ⟨more, -, heq⟩ := Option.map_eq_some_iff.mp hread
      exact absurd heq (List.cons_ne_nil c more)
  | cons c cs ih =>
    rcases h.exists_first hwritten with rfl | ⟨x, rest, rfl⟩
    · exact nomatch hread
    · rw [h.read] at hread
      obtain ⟨more, hmore, heq⟩ := Option.map_eq_some_iff.mp hread
      obtain ⟨rfl, rfl⟩ := List.cons.inj heq
      rw [List.flatMap_cons, ← ih hwritten.of_append hmore]

end Spelling

/-! ## Escapes -/

/-- An escape of texts by the entities of a table. What it writes is read as the text that it was given,
so different texts are written differently, and every written text that can be read is one of those
that it writes. -/
structure IsFaithful (d : Dialect) (table : List (Char × String))
    (escape : List Char → List Char) : Prop where
  isWritten : ∀ cs, IsWritten table (escape cs)
  read : ∀ cs, unescape? d none (escape cs) = some cs
  injective : Function.Injective escape
  unique : ∀ text cs, IsWritten table text → unescape? d none text = some cs → text = escape cs

theorem Spells.isFaithful {d : Dialect} {table : List (Char × String)} {f : Char → List Char}
    (h : Spells d table f) (htable : AreEntities table) : IsFaithful d table (List.flatMap f) := by
  have hread : ∀ cs, unescape? d none (cs.flatMap f) = some cs := unescape?_flatMap h.read
  refine ⟨h.isWritten htable, hread, fun a b heq => ?_, fun _ _ => h.unique⟩
  have hsame := congrArg (unescape? d none) heq
  rwa [hread, hread, Option.some.injEq] at hsame

theorem spells_text (d : Dialect) : Spells d (textEntities d) (escapeTextChar d) where
  entity := by cases d <;> decide
  plain c hc := by
    cases d <;>
      simp only [textEntities, List.map_cons, List.map_nil, List.mem_cons, List.not_mem_nil,
        or_false, not_or] at hc <;> simp [escapeTextChar, hc]
  read := unescape?_escapeTextChar d

theorem spells_value (d : Dialect) : Spells d (valueEntities d) (escapeValueChar d) where
  entity := by cases d <;> decide
  plain c hc := by
    rw [valueEntities, List.map_cons, List.mem_cons, not_or] at hc
    rw [escapeValueChar, if_neg hc.1, (spells_text d).plain c hc.2]
  read := unescape?_escapeValueChar d

/-- The quotes of a value can be replaced behind all other characters: no entity has one. -/
theorem escapeValue_eq_replace (d : Dialect) (cs : List Char) :
    escapeValue d cs = Text.replace '"' "&quot;".toList (escapeText d cs) := by
  rw [Text.replace_eq_flatMap, escapeText, escapeValue, List.flatMap_assoc]
  refine List.flatMap_congr fun c _ => ?_
  rw [← Text.replace_eq_flatMap]
  by_cases hc : c = '"'
  · rw [hc]
    cases d <;> rfl
  · have hquote : '"' ∉ escapeTextChar d c := by
      intro hmem
      obtain ⟨-, -, heq | hne⟩ := mem_escapeTextChar hmem
      · exact hc heq.symm
      · exact hne.2 rfl
    rw [Text.replace_of_notMem hquote, escapeValueChar, if_neg hc]

/--
**Escapes are faithful.** Neither of them leaves a character that could be taken for markup, and no
ampersand but those that begin an entity. What they write is decoded to the text that it was, whatever
that looks like.
-/
theorem escape_faithful (d : Dialect) :
    IsFaithful d (textEntities d) (escapeText d) ∧ IsFaithful d (valueEntities d) (escapeValue d) ∧
      ∀ cs, escapeValue d cs = Text.replace '"' "&quot;".toList (escapeText d cs) :=
  ⟨(spells_text d).isFaithful (areEntities_text d),
    (spells_value d).isFaithful (areEntities_value d), escapeValue_eq_replace d⟩

-- What looks like an entity is text.
example : escapeValue .html "&quot;\"".toList = "&amp;quot;&quot;".toList := by decide

end DesignCompiler.Markup
