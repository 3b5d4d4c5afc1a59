import DesignCompiler.Design.Reading
import DesignCompiler.Proofs.Json.RoundTrip
import DesignCompiler.Proofs.Record.Spelling

/-!
# DesignCompiler — spellings of a design

Designs, pages, components and geometries are read by their fields, so the objects of a text can be
written in many ways, at every depth of a design.

* `Geometry.slots`, `Component.slots`, `Page.slots`, `Design.slots` — the fields of the four records;
* `Component.Rearranged`, `Component.Repeats` and the like — objects that say the same, and objects with
  a field that comes again;
* `IsFieldwise`, `records_fieldwise` — what these do to the texts of a record.
-/

namespace DesignCompiler

open Json

/-! ## The four records -/

section Slots

variable {ν ε : Type} [Format ν ε]

theorem bind_return {α β : Type} (x : Except ε α) (f : α → β) :
    (x >>= fun a => pure (f a)) = x.map f := by
  cases x <;> rfl

/-- The fields of a geometry are numbers. -/
def Geometry.slots : (Geometry.layout : Layout ν ε _ _ _).Slots where
  Value _ := Binary64
  value _ v := Format.binary v
  put
    | .x, a, d => { d with x := some a }
    | .y, a, d => { d with y := some a }
    | .width, a, d => { d with width := some a }
    | .height, a, d => { d with height := some a }
  set_eq k v d := by
    show Geometry.Draft.set k v d = _
    rw [Geometry.Draft.set]
    cases k <;> exact bind_return _ _
  put_comm j k a b d hne := by
    cases j <;> cases k <;> first | rfl | exact absurd rfl hne
  has_put k a d j := by
    cases k <;> cases j <;> rfl
  field?_of_mem k n hn := by
    cases k <;>
      simp only [Geometry.layout, List.mem_cons, List.not_mem_nil, or_false] at hn <;>
      rcases hn with rfl | rfl <;> rfl

def Component.slots : (Component.layout : Layout ν ε _ _ _).Slots where
  Value
    | .id => ComponentId
    | .parentId => Option ComponentId
    | .pageId => Option PageId
    | .kind => String
    | .name => String
    | .order => Int64
    | .geometry => Option Geometry
    | .appearance => Appearance
  value
    | .id => Component.readId
    | .parentId => Format.optional Component.readId
    | .pageId => Format.optional Component.readPageId
    | .kind => Format.text
    | .name => Format.text
    | .order => Format.integer
    | .geometry => Format.optional Geometry.layout.read
    | .appearance => Format.object
  put
    | .id, a, d => { d with id := some a }
    | .parentId, a, d => { d with parentId := some a }
    | .pageId, a, d => { d with pageId := some a }
    | .kind, a, d => { d with kind := some a }
    | .name, a, d => { d with name := some a }
    | .order, a, d => { d with order := some a }
    | .geometry, a, d => { d with geometry := some a }
    | .appearance, a, d => { d with appearance := some a }
  set_eq k v d := by
    cases k <;> exact bind_return _ _
  put_comm j k a b d hne := by
    cases j <;> cases k <;> first | rfl | exact absurd rfl hne
  has_put k a d j := by
    cases k <;> cases j <;> rfl
  field?_of_mem k n hn := by
    cases k <;>
      simp only [Component.layout, List.mem_cons, List.not_mem_nil, or_false] at hn <;>
      rcases hn with rfl | rfl <;> rfl

def Page.slots : (Page.layout : Layout ν ε _ _ _).Slots where
  Value
    | .id => PageId
    | .name => Option String
    | .components => List Component
  value
    | .id => Component.readPageId
    | .name => Format.optional Format.text
    | .components => Format.list Component.layout.read
  put
    | .id, a, d => { d with id := some a }
    | .name, a, d => { d with name := some a }
    | .components, a, d => { d with components := some a }
  set_eq k v d := by
    cases k <;> exact bind_return _ _
  put_comm j k a b d hne := by
    cases j <;> cases k <;> first | rfl | exact absurd rfl hne
  has_put k a d j := by
    cases k <;> cases j <;> rfl
  field?_of_mem k n hn := by
    cases k <;> simp only [Page.layout, List.mem_cons, List.not_mem_nil, or_false] at hn <;>
      rcases hn with rfl | rfl <;> rfl

def Design.slots : (Design.layout : Layout ν ε _ _ _).Slots where
  Value
    | .id => UInt64
    | .title => String
    | .pages => List Page
  value
    | .id => Format.word
    | .title => Format.text
    | .pages => Format.list Page.layout.read
  put
    | .id, a, d => { d with id := some a }
    | .title, a, d => { d with title := some a }
    | .pages, a, d => { d with pages := some a }
  set_eq k v d := by
    cases k <;> exact bind_return _ _
  put_comm j k a b d hne := by
    cases j <;> cases k <;> first | rfl | exact absurd rfl hne
  has_put k a d j := by
    cases k <;> cases j <;> rfl
  field?_of_mem k n hn := by
    cases k <;> simp only [Design.layout, List.mem_cons, List.not_mem_nil, or_false] at hn <;>
      rcases hn with rfl | rfl <;> rfl

end Slots

/-! ## Objects that say the same design -/

namespace Geometry

/-- Objects that say the same geometry. -/
def Rearranged : Source → Source → Prop :=
  (layout : Layout Source Json.Error _ _ _).Rearranged fun _ _ _ => False

def Repeats : Source → Source → String → Prop :=
  (layout : Layout Source Json.Error _ _ _).Repeats fun _ _ _ _ => False

end Geometry

namespace Component

/-- Objects that say the same component. The geometry may be another object too. -/
def Rearranged : Source → Source → Prop :=
  (layout : Layout Source Json.Error _ _ _).Rearranged fun k v v' =>
    k = .geometry ∧ Geometry.Rearranged v v'

def Repeats : Source → Source → String → Prop :=
  (layout : Layout Source Json.Error _ _ _).Repeats fun k v v' f =>
    k = .geometry ∧ Geometry.Repeats v v' f

end Component

namespace Page

def Rearranged : Source → Source → Prop :=
  (layout : Layout Source Json.Error _ _ _).Rearranged fun k v v' =>
    k = .components ∧ Source.ItemsAlike Component.Rearranged v v'

def Repeats : Source → Source → String → Prop :=
  (layout : Layout Source Json.Error _ _ _).Repeats fun k v v' f =>
    k = .components ∧ Source.ItemRepeats Component.Repeats v v' f

end Page

namespace Design

def Rearranged : Source → Source → Prop :=
  (layout : Layout Source Json.Error _ _ _).Rearranged fun k v v' =>
    k = .pages ∧ Source.ItemsAlike Page.Rearranged v v'

def Repeats : Source → Source → String → Prop :=
  (layout : Layout Source Json.Error _ _ _).Repeats fun k v v' f =>
    k = .pages ∧ Source.ItemRepeats Page.Repeats v v' f

end Design

section Records

variable {v v' : Source} {f : String}

theorem Geometry.read_of_rearranged {g : Geometry} (h : Geometry.Rearranged v v')
    (hread : Geometry.layout.read v = .ok g) : Geometry.layout.read v' = .ok g :=
  Layout.read_of_rearranged Geometry.slots (fun _ _ _ _ hfalse => hfalse.elim) h hread

theorem Geometry.read_of_repeats {g : Geometry} (h : Geometry.Repeats v v' f)
    (hread : Geometry.layout.read v = .ok g) :
    Geometry.layout.read v' = .error (.mismatch (.repeated f)) :=
  Layout.read_of_repeats Geometry.slots (fun _ _ _ _ _ hfalse => hfalse.elim) h hread

/-- An object is always there. -/
theorem optional_object {α : Type} (read : Source → Except Json.Error α)
    (ms : List (Option String × Source)) :
    Format.optional read (.object ms none) = (read (.object ms none)).map some :=
  rfl

theorem Component.read_of_rearranged {c : Component} (h : Component.Rearranged v v')
    (hread : Component.layout.read v = .ok c) : Component.layout.read v' = .ok c := by
  refine Layout.read_of_rearranged Component.slots ?_ h hread
  rintro _ w w' o ⟨rfl, hgeometry⟩ hvalue
  change Format.optional Geometry.layout.read w = .ok o at hvalue
  show Format.optional Geometry.layout.read w' = .ok o
  cases hgeometry with
  | same => exact hvalue
  | object hsteps =>
    rw [optional_object] at hvalue ⊢
    obtain ⟨g, hg, rfl⟩ := map_eq_ok_iff.mp hvalue
    exact map_eq_ok_iff.mpr ⟨g, Geometry.read_of_rearranged (.object hsteps) hg, rfl⟩

theorem Component.read_of_repeats {c : Component} (h : Component.Repeats v v' f)
    (hread : Component.layout.read v = .ok c) :
    Component.layout.read v' = .error (.mismatch (.repeated f)) := by
  refine Layout.read_of_repeats Component.slots ?_ h hread
  rintro _ w w' f o ⟨rfl, hgeometry⟩ hvalue
  change Format.optional Geometry.layout.read w = .ok o at hvalue
  show Format.optional Geometry.layout.read w' = _
  -- both values are objects, so the geometry is there
  obtain ⟨ms, ms', rfl, rfl⟩ : ∃ ms ms', w = .object ms none ∧ w' = .object ms' none := by
    cases hgeometry with
    | again => exact ⟨_, _, rfl, rfl⟩
    | within => exact ⟨_, _, rfl, rfl⟩
  rw [optional_object] at hvalue ⊢
  obtain ⟨g, hg, -⟩ := map_eq_ok_iff.mp hvalue
  rw [Geometry.read_of_repeats hgeometry hg]
  rfl

theorem Page.read_of_rearranged {p : Page} (h : Page.Rearranged v v')
    (hread : Page.layout.read v = .ok p) : Page.layout.read v' = .ok p := by
  refine Layout.read_of_rearranged Page.slots ?_ h hread
  rintro _ w w' a ⟨rfl, hitems⟩ hvalue
  exact list_of_itemsAlike (fun _ _ _ => Component.read_of_rearranged) hitems hvalue

theorem Page.read_of_repeats {p : Page} (h : Page.Repeats v v' f)
    (hread : Page.layout.read v = .ok p) :
    Page.layout.read v' = .error (.mismatch (.repeated f)) := by
  refine Layout.read_of_repeats Page.slots ?_ h hread
  rintro _ w w' f a ⟨rfl, hitem⟩ hvalue
  exact list_of_itemRepeats (fun _ _ _ => Component.read_of_repeats) hitem hvalue

theorem Design.read_of_rearranged {d : Design} (h : Design.Rearranged v v')
    (hread : Design.layout.read v = .ok d) : Design.layout.read v' = .ok d := by
  refine Layout.read_of_rearranged Design.slots ?_ h hread
  rintro _ w w' a ⟨rfl, hitems⟩ hvalue
  exact list_of_itemsAlike (fun _ _ _ => Page.read_of_rearranged) hitems hvalue

theorem Design.read_of_repeats {d : Design} (h : Design.Repeats v v' f)
    (hread : Design.layout.read v = .ok d) :
    Design.layout.read v' = .error (.mismatch (.repeated f)) := by
  refine Layout.read_of_repeats Design.slots ?_ h hread
  rintro _ w w' f a ⟨rfl, hitem⟩ hvalue
  exact list_of_itemRepeats (fun _ _ _ => Page.read_of_repeats) hitem hvalue

end Records

/-! ## Texts -/

/-- How the texts of a kind of record can be changed. -/
structure IsFieldwise {ρ : Type} (read : Source → Except Json.Error ρ)
    (Rearranged : Source → Source → Prop) (Repeats : Source → Source → String → Prop) : Prop where
  /-- A text whose objects say the same is the same record. -/
  rearranged : ∀ {text text' v v' ending r}, Source.ofText Source.maxDepth text = (v, ending) →
    Source.ofText Source.maxDepth text' = (v', .ok ()) → Rearranged v v' →
    Json.read read text = .ok r → Json.read read text' = .ok r
  /-- A text in which a field comes again is no record, whatever follows, and the error has the
  canonical name of the field. -/
  repeated : ∀ {text text' v v' ending ending' r f}, Source.ofText Source.maxDepth text = (v, ending) →
    Source.ofText Source.maxDepth text' = (v', ending') → Repeats v v' f →
    Json.read read text = .ok r → Json.read read text' = .error (.mismatch (.repeated f))

theorem isFieldwise_of_read {ρ : Type} {read : Source → Except Json.Error ρ}
    {Rearranged : Source → Source → Prop} {Repeats : Source → Source → String → Prop}
    (hrearranged : ∀ {v v' r}, Rearranged v v' → read v = .ok r → read v' = .ok r)
    (hrepeated : ∀ {v v' r f}, Repeats v v' f → read v = .ok r →
      read v' = .error (.mismatch (.repeated f))) :
    IsFieldwise read Rearranged Repeats := by
  constructor
  · -- the second text ends without a fault, so its value decides
    intro text text' v v' ending r htext htext' h hread
    simp only [Json.read, htext, htext'] at hread ⊢
    obtain ⟨a, ha, hread⟩ := bind_eq_ok_iff.mp hread
    obtain ⟨-, -, hread⟩ := bind_eq_ok_iff.mp hread
    obtain rfl := Except.ok.inj hread
    exact bind_eq_ok_iff.mpr ⟨a, hrearranged h ha, rfl⟩
  · -- the fault is met before the end of the text
    intro text text' v v' ending ending' r f htext htext' h hread
    simp only [Json.read, htext, htext'] at hread ⊢
    obtain ⟨a, ha, -⟩ := bind_eq_ok_iff.mp hread
    rw [hrepeated h ha]
    rfl

/--
**Records are read by their fields.** The order of members, the names by which fields are called and
members that no record knows make no difference to a component, a page, a design or a geometry, at any
depth. A field that comes again at the end of one of its objects, by any of its names, is an error that
has its canonical name.
-/
theorem records_fieldwise :
    IsFieldwise Component.layout.read Component.Rearranged Component.Repeats ∧
      IsFieldwise Page.layout.read Page.Rearranged Page.Repeats ∧
      IsFieldwise Design.layout.read Design.Rearranged Design.Repeats ∧
      IsFieldwise Geometry.layout.read Geometry.Rearranged Geometry.Repeats :=
  ⟨isFieldwise_of_read Component.read_of_rearranged Component.read_of_repeats,
    isFieldwise_of_read Page.read_of_rearranged Page.read_of_repeats,
    isFieldwise_of_read Design.read_of_rearranged Design.read_of_repeats,
    isFieldwise_of_read Geometry.read_of_rearranged Geometry.read_of_repeats⟩

/-- A component with a size. -/
def sizedMembers : List (String × Json) :=
  [("id", .number (.integer 7)), ("kind", .string "box"),
    ("geometry", .object [("width", .number (.integer 3)), ("height", .number (.integer 4))])]

/-- The same component, as an older program with a note of its own may have written it. -/
def legacyMembers : List (String × Json) :=
  [("note", .null), ("_id", .number (.integer 7)), ("kind", .string "box"),
    ("geometry", .object [("h", .number (.integer 4)), ("w", .number (.integer 3))])]

/-- The component with its identifier again, by the other name. -/
def doubledMembers : List (String × Json) :=
  sizedMembers ++ [("_id", .number (.integer 8))]

/-- The members of the size get their short names and change places. -/
theorem size_rearranged : Geometry.Rearranged
    (.object [(some "width", .number (some (.integer 3))), (some "height", .number (some (.integer 4)))]
      none)
    (.object [(some "h", .number (some (.integer 4))), (some "w", .number (some (.integer 3)))]
      none) :=
  .object <|
    .head (.renamed [] [_] .width (show "width" ∈ _ by decide) (show "w" ∈ _ by decide)) <|
    .head (.renamed [_] [] .height (show "height" ∈ _ by decide) (show "h" ∈ _ by decide)) <|
    .single (.permuted (.swap _ _ _))

theorem legacyMembers_rearranged : Component.Rearranged (Source.ofJson (.object sizedMembers))
    (Source.ofJson (.object legacyMembers)) :=
  .object <|
    .head (.renamed [] [_, _] .id (show "id" ∈ _ by decide) (show "_id" ∈ _ by decide)) <|
    .head (.within [_, _] [] .geometry (show "geometry" ∈ _ by decide) ⟨rfl, size_rearranged⟩) <|
    .head (.added (n := "note") (fun k => by cases k <;> decide) .null) <|
    .single (.permuted List.perm_append_comm)

theorem doubledMembers_repeats : Component.Repeats (Source.ofJson (.object sizedMembers))
    (Source.ofJson (.object doubledMembers)) "id" := by
  show (Component.layout : Layout Source Json.Error _ _ _).Repeats _
    (.object (Source.ofMembers sizedMembers) none)
    (.object (Source.ofMembers sizedMembers ++ [(some "_id", .number (some (.integer 8)))]) none)
    ((Component.layout : Layout Source Json.Error _ _ _).canonical .id)
  exact .again Component.Field.id (List.mem_cons_self ..) (show "id" ∈ _ by decide)
    (show "_id" ∈ _ by decide)

/-- All numbers in these texts are small. -/
theorem ofText_members (members : List (String × Json))
    (h : members ∈ [sizedMembers, legacyMembers, doubledMembers]) :
    Source.ofText Source.maxDepth (Json.object members).render =
      (.ofJson (.object members), .ok ()) := by
  have hsmall : (Json.object members).depth ≤ Source.maxDepth ∧
      ∀ n ∈ (Json.object members).numbers, n ∈ [3, 4, 7, 8].map Number.integer := by
    simp only [List.mem_cons, List.not_mem_nil, or_false] at h
    rcases h with rfl | rfl | rfl <;> decide
  have hfits : ∀ k ∈ [3, 4, 7, 8], FitsWord k := by
    unfold FitsWord
    decide
  refine ofText_render (fun n hn => ?_) hsmall.1
  obtain ⟨k, hk, rfl⟩ := List.mem_map.mp (hsmall.2 n hn)
  exact readsBack_integer (hfits k hk)

/-- The three texts of the component: two are read alike, and the third is refused. -/
theorem legacyMembers_fieldwise : ∃ c,
    Json.read Component.layout.read (Json.object sizedMembers).render = .ok c ∧
      Json.read Component.layout.read (Json.object legacyMembers).render = .ok c ∧
      Json.read Component.layout.read (Json.object doubledMembers).render =
        .error (.mismatch (.repeated "id")) := by
  have hsized := ofText_members sizedMembers (by simp)
  have hlegacy := ofText_members legacyMembers (by simp)
  have hdoubled := ofText_members doubledMembers (by simp)
  obtain ⟨c, hc⟩ : ∃ c, Json.read Component.layout.read (Json.object sizedMembers).render = .ok c := by
    simp only [Json.read, hsized]
    exact ⟨_, rfl⟩
  obtain ⟨hcomponents, -⟩ := records_fieldwise
  exact ⟨c, hc, hcomponents.rearranged hsized hlegacy legacyMembers_rearranged hc,
    hcomponents.repeated hsized hdoubled doubledMembers_repeats hc⟩

end DesignCompiler
