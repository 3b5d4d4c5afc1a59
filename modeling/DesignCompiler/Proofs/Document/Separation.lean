import DesignCompiler.Proofs.Document.Wrapping

/-!
# DesignCompiler — what is hashed

The hash of a page is taken of its markup and its stylesheet with a zero between them. Both may have
zeros themselves, but the markup says where it ends: outside its elements there is no text, and the
mark that ends a document stands only at its end. So the hashed bytes determine the two texts.

* `hashedBytes_inj` — equal bytes are equal texts;
* `Apart`, `eq_of_apart` — a text that no zero can continue to another one;
* `length_foldlM` — how deep a reader is does not depend on the indentation;
* `apart_of_read`, `apart_of_cuts` — markup and documents are apart;
* `compileNamed_separates` — the bytes of two pages.
-/

namespace DesignCompiler

open Markup Document

/-! ## Bytes -/

/-- The bytes are those of one text. -/
theorem hashedBytes_eq (m s : String) :
    hashedBytes m s = (m ++ "\x00" ++ s).toUTF8.data.toList := by
  have hzero : "\x00".toByteArray.data.toList = [0] := by decide
  rw [hashedBytes, String.toUTF8_eq_toByteArray, String.toUTF8_eq_toByteArray,
    String.toUTF8_eq_toByteArray, String.toByteArray_append, String.toByteArray_append,
    ByteArray.toList_data_append, ByteArray.toList_data_append, hzero, List.append_assoc,
    List.singleton_append]

theorem hashedBytes_inj {m m' s s' : String} (h : hashedBytes m s = hashedBytes m' s') :
    m.toList ++ '\x00' :: s.toList = m'.toList ++ '\x00' :: s'.toList := by
  rw [hashedBytes_eq, hashedBytes_eq] at h
  have htext : m ++ "\x00" ++ s = m' ++ "\x00" ++ s' :=
    String.toByteArray_inj.mp (ByteArray.ext (Array.ext' h))
  simpa using congrArg String.toList htext

/-! ## The end of a text -/

/-- No zero continues the first text to the second one. -/
def Apart (a b : List Char) : Prop :=
  ∀ rest, b ≠ a ++ '\x00' :: rest

theorem eq_of_apart {a b s t : List Char} (hab : Apart a b) (hba : Apart b a)
    (h : a ++ '\x00' :: s = b ++ '\x00' :: t) : a = b ∧ s = t := by
  rcases List.append_eq_append_iff.mp h with ⟨more, rfl, hs⟩ | ⟨more, rfl, ht⟩
  · cases more with
    | nil => simpa using hs
    | cons c more =>
      obtain ⟨rfl, -⟩ := List.cons.inj hs
      exact absurd rfl (hab more)
  · cases more with
    | nil => simpa [eq_comm] using ht
    | cons c more =>
      obtain ⟨rfl, -⟩ := List.cons.inj ht
      exact absurd rfl (hba more)

/-- Behind a text that is cut, a zero is cut as a character. -/
theorem exists_cut_zero {a rest : List Char} {ms ns : List Mark} (ha : Cuts a ms)
    (h : cut none (a ++ '\x00' :: rest) = some ns) :
    ∃ rs, ns = ms ++ .char '\x00' :: rs := by
  rw [ha, cut, if_neg (by decide), Option.map_map] at h
  obtain ⟨rs, -, rfl⟩ := Option.map_eq_some_iff.mp h
  exact ⟨rs, rfl⟩

/-- A text whose last marks are a mark that stands nowhere else in it, and one more. -/
theorem apart_of_cuts {a b : List Char} {last next : Mark} {as bs : List Mark}
    (ha : Cuts a (as ++ [last, next])) (hb : Cuts b (bs ++ [last, next])) (hbs : last ∉ bs) :
    Apart a b := by
  rintro rest rfl
  obtain ⟨rs, hmarks⟩ := exists_cut_zero ha hb.cut_eq
  -- the last mark but one of `b` stands behind the zero, so the mark in `a` is another one
  rw [List.append_assoc] at hmarks
  rcases List.append_eq_append_iff.mp hmarks with ⟨more, rfl, hmore⟩ | ⟨more, rfl, hmore⟩
  · have hlength := congrArg List.length hmore
    simp at hlength
    omega
  · cases more with
    | nil => simp at hmore
    | cons m more =>
      obtain ⟨rfl, -⟩ := List.cons.inj hmore
      exact hbs (List.mem_append_right _ (List.mem_cons_self ..))

/-! ## The end of markup -/

/-- How many elements are open after a mark, if so many are before it. -/
def depthAfter (d : Dialect) (depth : Nat) : Mark → Nat
  | .char _ => depth
  | .tag body =>
    match readTag d body with
    | some (.start name _ closed) =>
      if name = "br" ∨ closed = true ∨ name = "img" then depth else depth + 1
    | some (.stop _) => depth - 1
    | none => depth

theorem length_write {r r' : Reading} {f : List (List Char) → List (List Char)}
    (h : r.write f = some r') : r'.outer.length = r.outer.length := by
  obtain ⟨_ | ⟨o, outer⟩, page, pad⟩ := r
  · cases h
  · simp only [Reading.write] at h
    split at h
    · obtain rfl := Option.some.inj h
      rfl
    · cases h

/-- One mark. Whether a blank is indentation or text makes no difference. -/
theorem length_mark {d : Dialect} {indent : Nat} {r r' : Reading} {m : Mark}
    (h : r.mark d indent m = some r') : r'.outer.length = depthAfter d r.outer.length m := by
  cases m with
  | char c =>
    simp only [Reading.mark, Reading.char] at h
    split at h
    · obtain rfl := Option.some.inj h
      rfl
    · split at h
      · obtain rfl := Option.some.inj h
        rfl
      · exact length_write h
  | tag body =>
    obtain ⟨tag, htag, h⟩ := Option.bind_eq_some_iff.mp h
    simp only [depthAfter, htag]
    cases tag with
    | start name attributes closed =>
      simp only [Reading.tag] at h
      -- a line break belongs to the text
      by_cases hbr : name = "br"
      · rw [if_pos hbr] at h
        simpa [hbr] using length_write h
      · rw [if_neg hbr] at h
        -- a tag that is a whole element is put where the reader is
        by_cases hclosed : closed = true ∨ name = "img"
        · rw [if_pos hclosed] at h
          obtain rfl := Option.some.inj h
          simp only [Reading.length_put, hbr, false_or, if_pos hclosed]
        · rw [if_neg hclosed] at h
          obtain rfl := Option.some.inj h
          simp only [hbr, false_or, if_neg hclosed, List.length_cons]
    | stop name =>
      -- an end tag closes one element, so one has to be open
      obtain ⟨_ | ⟨o, outer⟩, page, pad⟩ := r
      · cases h
      · simp only [Reading.tag] at h
        obtain ⟨lines, -, h⟩ := Option.bind_eq_some_iff.mp h
        split at h
        · obtain rfl := Option.some.inj h
          simp [Reading.length_put]
        · cases h

/-- How deep a reader is depends on the marks alone. -/
theorem length_foldlM {d : Dialect} {indent : Nat} {ms : List Mark} {r r' : Reading}
    (h : ms.foldlM (Reading.mark d indent) r = some r') :
    r'.outer.length = ms.foldl (depthAfter d) r.outer.length := by
  induction ms generalizing r with
  | nil =>
    obtain rfl := Option.some.inj h
    rfl
  | cons m ms ih =>
    rw [List.foldlM_cons] at h
    obtain ⟨next, hnext, h⟩ := Option.bind_eq_some_iff.mp h
    rw [ih h, length_mark hnext, List.foldl_cons]

/-- Where one markup ends, no element is open in another one that begins with it, and there is no
text outside of elements. -/
theorem apart_of_read {d : Dialect} {i j : Nat} {a b : List Char} {f g : Forest Entry}
    (ha : Markup.read d i a = some f) (hb : Markup.read d j b = some g) : Apart a b := by
  rintro rest rfl
  obtain ⟨ms, hms, ha⟩ := Option.bind_eq_some_iff.mp ha
  obtain ⟨r, hr, hend⟩ := Option.bind_eq_some_iff.mp ha
  obtain ⟨ns, hns, hb⟩ := Option.bind_eq_some_iff.mp hb
  obtain ⟨q', hq', -⟩ := Option.bind_eq_some_iff.mp hb
  obtain ⟨rs, rfl⟩ := exists_cut_zero (cuts_of_cut hms) hns
  rw [List.foldlM_append] at hq'
  obtain ⟨q, hq, hq'⟩ := Option.bind_eq_some_iff.mp hq'
  rw [List.foldlM_cons] at hq'
  obtain ⟨q'', hzero, -⟩ := Option.bind_eq_some_iff.mp hq'
  have hempty : r.outer = [] := by
    split at hend
    · rename_i hnil
      exact List.isEmpty_iff.mp hnil
    · cases hend
  have hlength : q.outer.length = r.outer.length := (length_foldlM hq).trans (length_foldlM hr).symm
  rw [hempty, List.length_nil, List.length_eq_zero_iff] at hlength
  -- a zero is neither a line feed nor a blank, and no element is there to take it
  rw [Reading.mark, Reading.char, if_neg (by decide), if_neg (by simp), Reading.write,
    hlength] at hzero
  cases hzero

/-! ## Pages -/

/-- The mark that ends a document stands nowhere else in the document of a page. -/
theorem exists_cuts_document {s : Settings} {cs : List Component} {t : PageTree} {code : Code}
    (h : emitComponents s cs = .ok (t, code)) (title : String) {slug : String}
    (hslug : ClassName.isClassName slug) :
    ∃ ms, Cuts (render s.dialect title (stylesheetFile slug) code.markup).toList
      (ms ++ [closing s.dialect, .char '\n']) ∧ closing s.dialect ∉ ms := by
  obtain ⟨f, hne, -, hclass, hmarkup⟩ := exists_rendering h
  obtain ⟨ns, hcuts, hns, -⟩ := (moves_rendering s 0 hclass).body
    (w := margin s.dialect) (suffix_rendering hne)
  rw [← hmarkup] at hcuts
  exact cuts_render hslug title code.markup hcuts hns

variable {s₁ s₂ : Settings} {cs₁ cs₂ : List Component}

/-- What is saved of two pages in the same way is apart. -/
theorem apart_savedMarkup {t₁ t₂ : PageTree} {code₁ code₂ : Code}
    (hdialect : s₁.dialect = s₂.dialect) (hwrap : s₁.wrapDocument = s₂.wrapDocument)
    (h₁ : emitComponents s₁ cs₁ = .ok (t₁, code₁)) (h₂ : emitComponents s₂ cs₂ = .ok (t₂, code₂))
    {slug₁ slug₂ : String} (hslug₁ : ClassName.isClassName slug₁)
    (hslug₂ : ClassName.isClassName slug₂) (name₁ name₂ : String) :
    Apart (savedMarkup s₁ name₁ slug₁ code₁).toList (savedMarkup s₂ name₂ slug₂ code₂).toList := by
  unfold savedMarkup
  rw [hwrap, hdialect]
  -- a document has an end that stands nowhere else in it; markup alone is told apart by its reader
  split
  · obtain ⟨ms, hms, -⟩ := exists_cuts_document h₁ name₁ hslug₁
    obtain ⟨ns, hns, hend⟩ := exists_cuts_document h₂ name₂ hslug₂
    rw [hdialect] at hms
    exact apart_of_cuts hms hns hend
  · obtain ⟨f, -, hread₁, -⟩ := exists_body h₁ name₁ hslug₁
    obtain ⟨g, -, hread₂, -⟩ := exists_body h₂ name₂ hslug₂
    rw [hdialect] at hread₁
    exact apart_of_read hread₁ hread₂

/--
**Hashed bytes determine a page.** If pages are compiled in one dialect, all of them wrapped or none, and
the bytes that are hashed of two of them are the same, then they have the same markup and the same
stylesheet, though both may have zeros in them.
-/
theorem compileNamed_separates {given₁ given₂ : Option String}
    {slugs₁ slugs₁' slugs₂ slugs₂' : ClassName.Allocator} {p₁ p₂ : CompiledPage}
    (hdialect : s₁.dialect = s₂.dialect) (hwrap : s₁.wrapDocument = s₂.wrapDocument)
    (h₁ : compileNamed s₁ cs₁ given₁ slugs₁ = .ok (p₁, slugs₁'))
    (h₂ : compileNamed s₂ cs₂ given₂ slugs₂ = .ok (p₂, slugs₂'))
    (hbytes : hashedBytes p₁.markup p₁.stylesheet = hashedBytes p₂.markup p₂.stylesheet) :
    p₁.markup = p₂.markup ∧ p₁.stylesheet = p₂.stylesheet := by
  obtain ⟨t₁, code₁, hemit₁, rfl, -⟩ := compileNamed_eq_ok_iff.mp h₁
  obtain ⟨t₂, code₂, hemit₂, rfl, -⟩ := compileNamed_eq_ok_iff.mp h₂
  have hslug₁ := ClassName.allocate_isClassName slugs₁ (pageName given₁ t₁) "page"
  have hslug₂ := ClassName.allocate_isClassName slugs₂ (pageName given₂ t₂) "page"
  -- no zero continues one markup to the other
  have hapart := apart_savedMarkup hdialect hwrap hemit₁ hemit₂ hslug₁ hslug₂
    (pageName given₁ t₁) (pageName given₂ t₂)
  have hapart' := apart_savedMarkup hdialect.symm hwrap.symm hemit₂ hemit₁ hslug₂ hslug₁
    (pageName given₂ t₂) (pageName given₁ t₁)
  obtain ⟨hmarkup, hstylesheet⟩ := eq_of_apart hapart hapart' (hashedBytes_inj hbytes)
  exact ⟨String.toList_inj.mp hmarkup, String.toList_inj.mp hstylesheet⟩

/-- A text with a zero in it. -/
def zeroText (id : ComponentId) : Component :=
  { id, kind := "text", appearance := [("text", .string "a\x00b")] }

def zeroTree (id : ComponentId) : PageTree where
  nodes := [{ component := zeroText id, parent := none, children := [], depth := 0 }]
  root := 0
  pageId := none

/-- The text under two identifiers, on pages with different names and indentations. -/
theorem zeroText_separates :
    ∃ p₁ p₂ slugs₁ slugs₂,
      compileNamed { indent := 2 } [zeroText ⟨1⟩] (some "One") noSlugs = .ok (p₁, slugs₁) ∧
      compileNamed { indent := 4 } [zeroText ⟨2⟩] (some "Two") noSlugs = .ok (p₂, slugs₂) ∧
      hashedBytes p₁.markup p₁.stylesheet = hashedBytes p₂.markup p₂.stylesheet ∧
      p₁.markup = p₂.markup ∧ p₁.stylesheet = p₂.stylesheet := by
  have hcode₁ : ((zeroTree ⟨1⟩).emit { indent := 2 }).map (fun c => (c.markup, c.stylesheet)) =
      .ok ("<p class=\"text\">a\x00b</p>\n", ".text \x7b\n\x7d\n") := by decide +kernel
  have hcode₂ : ((zeroTree ⟨2⟩).emit { indent := 4 }).map (fun c => (c.markup, c.stylesheet)) =
      .ok ("<p class=\"text\">a\x00b</p>\n", ".text \x7b\n\x7d\n") := by decide +kernel
  obtain ⟨code₁, hemit₁, hsame₁⟩ := map_eq_ok_iff.mp hcode₁
  obtain ⟨code₂, hemit₂, hsame₂⟩ := map_eq_ok_iff.mp hcode₂
  obtain ⟨hmarkup, hstylesheet⟩ := Prod.mk.inj (hsame₁.trans hsame₂.symm)
  have h₁ : compileNamed { indent := 2 } [zeroText ⟨1⟩] (some "One") noSlugs = .ok _ :=
    compileNamed_eq_ok_iff.mpr ⟨zeroTree ⟨1⟩, code₁,
      emitComponents_eq_ok_iff.mpr ⟨by cbv, hemit₁⟩, rfl, rfl⟩
  have h₂ : compileNamed { indent := 4 } [zeroText ⟨2⟩] (some "Two") noSlugs = .ok _ :=
    compileNamed_eq_ok_iff.mpr ⟨zeroTree ⟨2⟩, code₂,
      emitComponents_eq_ok_iff.mpr ⟨by cbv, hemit₂⟩, rfl, rfl⟩
  have hbytes : hashedBytes code₁.markup code₁.stylesheet =
      hashedBytes code₂.markup code₂.stylesheet := by rw [hmarkup, hstylesheet]
  have hdialect : ({ indent := 2 } : Settings).dialect = ({ indent := 4 } : Settings).dialect := rfl
  exact ⟨_, _, _, _, h₁, h₂, hbytes, compileNamed_separates hdialect rfl h₁ h₂ hbytes⟩

end DesignCompiler
