import DesignCompiler.Proofs.Outcome
import DesignCompiler.Stylesheet.Writer
import Mathlib

/-!
# DesignCompiler — the order of declarations

Declarations are collected in one order and written in another one. The written order is that of a
table with one row for each property, which says what an element shows under this property. So no
property is declared twice. Each is declared if and only if its element has the field for it, but for
the fit of a picture: a picture with children is a background, and its size is always declared.

* `PageElement.properties` — the table of an element;
* `sortByRank_eq_insertionSort`, `collected_perm` — sorting loses nothing, nor does the table;
* `declarations_eq` — the declarations are the rows of the table that have a value;
* `PageElement.fields` — the fields that an element need not have, the fit of a picture aside;
* `PageElement.DeclaresInOrder` — declarations in the fixed order, one for each field that is set;
* `declarations_inOrder` — it holds of every element;
* `skyPage_declares_unset` — a picture without a fit for which one is declared.
-/

namespace DesignCompiler

open Stylesheet

/-! ## What elements have -/

def Element.picture? : Element → Option Picture
  | image p => some p
  | _ => none

def Element.button? : Element → Option Button
  | button b => some b
  | _ => none

namespace PageElement

variable {e : PageElement}

/-- A picture with children, which is the background of a box. -/
def backdrop? (e : PageElement) : Option Picture :=
  e.element.picture?.filter fun _ => e.hasChildren

/-- A picture without children, which is an element of its own. -/
def inset? (e : PageElement) : Option Picture :=
  e.element.picture?.filter fun _ => !e.hasChildren

/-- A picture with children is a background and no element of its own. -/
theorem backdrop_of_hasChildren {p : Picture} (hp : e.element = .image p)
    (hc : e.hasChildren = true) : e.backdrop? = some p ∧ e.inset? = none := by
  simp [backdrop?, inset?, Element.picture?, hp, hc]

theorem inset_of_leaf {p : Picture} (hp : e.element = .image p) (hc : e.hasChildren = false) :
    e.backdrop? = none ∧ e.inset? = some p := by
  simp [backdrop?, inset?, Element.picture?, hp, hc]

theorem no_picture (h : ∀ p, e.element ≠ .image p) : e.backdrop? = none ∧ e.inset? = none := by
  have hnone : e.element.picture? = none := by
    cases hel : e.element with
    | image p => exact absurd hel (h p)
    | _ => rfl
  simp [backdrop?, inset?, hnone]

/-- What counts from another element: the offset of a component that is not the root. -/
def offset? (e : PageElement) : Option Geometry :=
  e.geometry.filter fun _ => !e.isRoot

/-- Every property in its order, with the value that an element has for it. A row has none if the
field is not set that the property shows. -/
def properties (e : PageElement) : List (String × Option String) :=
  [("position", e.geometry.map fun _ => if e.isRoot then "relative" else "absolute"),
    ("left", e.offset?.map (pixels ·.x)),
    ("top", e.offset?.map (pixels ·.y)),
    ("width", e.geometry.map (pixels ·.width)),
    ("height", e.geometry.map (pixels ·.height)),
    ("background-color", e.element.style.fill),
    ("background-image", e.backdrop?.map fun p => "url(" ++ quote p.source ++ ")"),
    ("background-size", e.backdrop?.map fun p => (p.fit.getD .cover).backgroundSize),
    ("border", e.element.style.border.map border),
    ("border-radius", e.element.style.radius.map pixels),
    ("opacity", e.element.style.opacity.map number),
    ("color", e.element.typography?.bind (·.color)),
    ("font-family", e.element.typography?.bind (·.fontFamily)),
    ("font-size", (e.element.typography?.bind (·.fontSize)).map pixels),
    ("font-weight", e.element.typography?.bind (·.fontWeight)),
    ("text-align", (e.element.typography?.bind (·.textAlign)).map Alignment.keyword),
    ("object-fit", (e.inset?.bind (·.fit)).map Fit.keyword),
    ("cursor", e.element.button?.map fun b => if b.disabled then "not-allowed" else "pointer")]

/-- Every property has one row. -/
theorem map_fst_properties (e : PageElement) : e.properties.map Prod.fst = propertyOrder := rfl

/-- The rows of the table that have a value. -/
def declared (e : PageElement) : List Declaration :=
  e.properties.flatMap fun row => declare row.1 row.2

end PageElement

/-! ## Rows and groups -/

namespace Stylesheet

theorem mem_declare {property : String} {o : Option String} {d : Declaration} :
    d ∈ declare property o ↔ d.property = property ∧ o = some d.value := by
  obtain ⟨p, v⟩ := d
  cases o with
  | none => simp [declare]
  | some value => simp [declare, eq_comm]

/-- Rows without a value leave a gap in the order, and nothing else. -/
theorem map_property_sublist (rows : List (String × Option String)) :
    ((rows.flatMap fun row => declare row.1 row.2).map Declaration.property).Sublist
      (rows.map Prod.fst) := by
  induction rows with
  | nil => exact .slnil
  | cons row rows ih =>
    obtain ⟨property, _ | value⟩ := row
    · exact ih.cons property
    · exact ih.cons_cons property

end Stylesheet

namespace PageElement

variable (e : PageElement)

theorem declare_placement : (match e.geometry with
      | none => []
      | some g => placement e.isRoot g) =
    declare "position" (e.geometry.map fun _ => if e.isRoot then "relative" else "absolute") ++
      (declare "left" (e.offset?.map (pixels ·.x)) ++ (declare "top" (e.offset?.map (pixels ·.y)) ++
        (declare "width" (e.geometry.map (pixels ·.width)) ++
          declare "height" (e.geometry.map (pixels ·.height))))) := by
  rw [offset?]
  cases e.geometry with
  | none => rfl
  | some g => cases e.isRoot <;> rfl

theorem declare_font : (match e.element.typography? with
      | none => []
      | some t => font t) =
    declare "color" (e.element.typography?.bind (·.color)) ++
      (declare "font-family" (e.element.typography?.bind (·.fontFamily)) ++
        (declare "font-size" ((e.element.typography?.bind (·.fontSize)).map pixels) ++
          (declare "font-weight" (e.element.typography?.bind (·.fontWeight)) ++
            declare "text-align"
              ((e.element.typography?.bind (·.textAlign)).map Alignment.keyword)))) := by
  cases e.element.typography? with
  | none => rfl
  | some t => simp [font]

theorem declare_background : background e =
    declare "background-image" (e.backdrop?.map fun p => "url(" ++ quote p.source ++ ")") ++
      declare "background-size" (e.backdrop?.map fun p => (p.fit.getD .cover).backgroundSize) := by
  rw [background, backdrop?]
  cases e.element with
  | image p => cases e.hasChildren <;> rfl
  | container _ => rfl
  | text _ => rfl
  | button _ => rfl

theorem declare_behaviour : behaviour e =
    declare "object-fit" ((e.inset?.bind (·.fit)).map Fit.keyword) ++
      declare "cursor"
        (e.element.button?.map fun b => if b.disabled then "not-allowed" else "pointer") := by
  rw [behaviour, inset?]
  cases e.element with
  | image p =>
    cases e.hasChildren with
    | true => rfl
    | false => exact (List.append_nil _).symm
  | container _ => rfl
  | text _ => rfl
  | button _ => rfl

/-- The rows with a value are the groups of declarations, the background among those of the box. -/
theorem declared_eq : e.declared =
    (match e.geometry with
      | none => []
      | some g => placement e.isRoot g) ++
    declare "background-color" e.element.style.fill ++
    background e ++
    declare "border" (e.element.style.border.map border) ++
    declare "border-radius" (e.element.style.radius.map pixels) ++
    declare "opacity" (e.element.style.opacity.map number) ++
    (match e.element.typography? with
      | none => []
      | some t => font t) ++
    behaviour e := by
  rw [declare_placement, declare_font, declare_background, declare_behaviour]
  simp only [declared, properties, List.flatMap_cons, List.flatMap_nil, List.append_assoc,
    List.append_nil]

/-- The background is collected behind the font and written before the border. -/
theorem collected_perm : e.collected.Perm e.declared := by
  let between := declare "border" (e.element.style.border.map border) ++
    declare "border-radius" (e.element.style.radius.map pixels) ++
    declare "opacity" (e.element.style.opacity.map number) ++
    (match e.element.typography? with
      | none => []
      | some t => font t)
  have hmove : (between ++ (background e ++ behaviour e)).Perm
      (background e ++ (between ++ behaviour e)) := List.perm_append_comm_assoc _ _ _
  rw [declared_eq, collected, box]
  simp only [between, List.append_assoc] at hmove ⊢
  exact .append_left _ (.append_left _ hmove)

end PageElement

/-! ## Sorting -/

namespace Stylesheet

theorem insertByRank_eq_orderedInsert (d : Declaration) (ds : List Declaration) :
    insertByRank d ds = ds.orderedInsert (fun a b => rank a.property ≤ rank b.property) d := by
  induction ds with
  | nil => rfl
  | cons x xs ih => rw [insertByRank, List.orderedInsert_cons, ih]

theorem sortByRank_eq_insertionSort (ds : List Declaration) :
    sortByRank ds = ds.insertionSort fun a b => rank a.property ≤ rank b.property := by
  induction ds with
  | nil => rfl
  | cons d ds ih =>
    rw [List.insertionSort_cons, ← ih, ← insertByRank_eq_orderedInsert]
    rfl

theorem sortByRank_perm (ds : List Declaration) : (sortByRank ds).Perm ds :=
  sortByRank_eq_insertionSort ds ▸ List.perm_insertionSort _ ds

theorem sortByRank_sorted (ds : List Declaration) :
    (sortByRank ds).Pairwise fun a b => rank a.property ≤ rank b.property := by
  have : IsTrans Declaration fun a b => rank a.property ≤ rank b.property :=
    ⟨fun _ _ _ => Nat.le_trans⟩
  have : Std.Total fun a b : Declaration => rank a.property ≤ rank b.property :=
    ⟨fun _ _ => Nat.le_total _ _⟩
  exact sortByRank_eq_insertionSort ds ▸ List.pairwise_insertionSort _ ds

end Stylesheet

theorem nodup_propertyOrder : propertyOrder.Nodup := by
  decide

/-- The places of the properties increase along their order. -/
theorem rank_ascending : (propertyOrder.map rank).Pairwise (· < ·) := by
  rw [List.pairwise_map, List.pairwise_iff_getElem]
  intro i j hi hj hij
  rw [rank, rank, nodup_propertyOrder.idxOf_getElem, nodup_propertyOrder.idxOf_getElem]
  exact hij

namespace PageElement

variable (e : PageElement)

theorem declared_sublist : (e.declared.map Declaration.property).Sublist propertyOrder :=
  map_property_sublist e.properties

theorem declared_ascending : (e.declared.map fun d => rank d.property).Pairwise (· < ·) := by
  have hranks := rank_ascending.sublist (e.declared_sublist.map rank)
  rwa [List.map_map] at hranks

/-- **The declarations of an element** are the rows of its table that have a value. -/
theorem declarations_eq : e.declarations = e.declared := by
  have hperm : e.declarations.Perm e.declared := (sortByRank_perm _).trans e.collected_perm
  have hascending := List.pairwise_map.mp e.declared_ascending
  have hdistinct : (e.declared.map fun d => rank d.property).Nodup :=
    e.declared_ascending.imp Nat.ne_of_lt
  refine List.Perm.eq_of_pairwise ?_ (sortByRank_sorted e.collected) (hascending.imp Nat.le_of_lt)
    hperm
  -- declarations with one place are one declaration
  intro a b ha hb hab hba
  exact List.inj_on_of_nodup_map hdistinct (hperm.mem_iff.mp ha) hb (Nat.le_antisymm hab hba)

theorem mem_declarations_iff {d : Declaration} :
    d ∈ e.declarations ↔ (d.property, some d.value) ∈ e.properties := by
  rw [declarations_eq, declared, List.mem_flatMap]
  constructor
  · rintro ⟨⟨property, o⟩, hrow, hd⟩
    obtain ⟨rfl, rfl⟩ := mem_declare.mp hd
    exact hrow
  · intro hrow
    exact ⟨_, hrow, mem_declare.mpr ⟨rfl, rfl⟩⟩

/-! ## Fields -/

/-- A property is declared exactly if its field is set, and then with the value of the field. -/
def Declares (property : String) (field : Option String) : Prop :=
  ∀ value, ⟨property, value⟩ ∈ e.declarations ↔ field = some value

/-- The fields that an element need not have, each with its property and the value to be declared. The
fit of a picture is not among them. -/
def fields : List (String × Option String) :=
  [("position", e.geometry.map fun _ => if e.isRoot then "relative" else "absolute"),
    ("left", e.offset?.map (pixels ·.x)),
    ("top", e.offset?.map (pixels ·.y)),
    ("width", e.geometry.map (pixels ·.width)),
    ("height", e.geometry.map (pixels ·.height)),
    ("background-color", e.element.style.fill),
    ("border", e.element.style.border.map border),
    ("border-radius", e.element.style.radius.map pixels),
    ("opacity", e.element.style.opacity.map number),
    ("color", e.element.typography?.bind (·.color)),
    ("font-family", e.element.typography?.bind (·.fontFamily)),
    ("font-size", (e.element.typography?.bind (·.fontSize)).map pixels),
    ("font-weight", e.element.typography?.bind (·.fontWeight)),
    ("text-align", (e.element.typography?.bind (·.textAlign)).map Alignment.keyword)]

/-- The fit of a picture is declared, under one of the two properties that can show it. -/
def DeclaresFit : Prop :=
  ∃ d ∈ e.declarations, d.property ∈ ["background-size", "object-fit"]

variable {e}

theorem declares_of_row {property : String} {field : Option String}
    (h : (property, field) ∈ e.properties) : e.Declares property field := by
  have honce : (e.properties.map Prod.fst).Nodup := e.map_fst_properties.symm ▸ nodup_propertyOrder
  intro value
  rw [mem_declarations_iff]
  constructor
  · intro hrow
    -- no other row of the table is about this property
    have hsame := List.inj_on_of_nodup_map honce h hrow rfl
    exact (Prod.mk.inj hsame).2
  · rintro rfl
    exact h

theorem Declares.exists_iff {property : String} {field : Option String}
    (h : e.Declares property field) :
    (∃ d ∈ e.declarations, d.property = property) ↔ field.isSome = true := by
  rw [Option.isSome_iff_exists]
  constructor
  · rintro ⟨⟨_, value⟩, hd, rfl⟩
    exact ⟨value, (h value).mp hd⟩
  · rintro ⟨value, hvalue⟩
    exact ⟨_, (h value).mpr hvalue, rfl⟩

/-- Every other field has a row of its own in the table. -/
theorem fields_sublist : e.fields.Sublist e.properties := by
  -- the background has two rows behind the first six, the fit and the pointer are the last two
  have hrest : (e.fields.drop 6).Sublist (e.properties.drop 8) :=
    List.sublist_append_left _ (e.properties.drop 16)
  exact (List.Sublist.refl (e.fields.take 6)).append (.cons _ (.cons _ hrest))

variable (e)

/-- The properties of the fields, in their order. -/
theorem map_fst_fields : e.fields.map Prod.fst =
    ["position", "left", "top", "width", "height", "background-color", "border", "border-radius",
      "opacity", "color", "font-family", "font-size", "font-weight", "text-align"] := rfl

/-- What a picture declares, in the two places where it can stand. -/
theorem declares_picture :
    e.Declares "background-image" (e.backdrop?.map fun p => "url(" ++ quote p.source ++ ")") ∧
      e.Declares "background-size" (e.backdrop?.map fun p => (p.fit.getD .cover).backgroundSize) ∧
      e.Declares "object-fit" ((e.inset?.bind (·.fit)).map Fit.keyword) :=
  ⟨declares_of_row (by simp [properties]), declares_of_row (by simp [properties]),
    declares_of_row (by simp [properties])⟩

theorem declaresFit_iff :
    e.DeclaresFit ↔ e.backdrop?.isSome = true ∨ (e.inset?.bind (·.fit)).isSome = true := by
  obtain ⟨-, hsize, hfit⟩ := e.declares_picture
  rw [← Option.isSome_map, ← hsize.exists_iff, ← Option.isSome_map, ← hfit.exists_iff, DeclaresFit]
  simp only [List.mem_cons, List.not_mem_nil, or_false, and_or_left, exists_or]

/-- Declarations in the fixed order, one for each field that is set. -/
structure DeclaresInOrder (e : PageElement) : Prop where
  /-- The declarations are those that were collected. -/
  collected : e.declarations.Perm e.collected
  ascending : (e.declarations.map fun d => rank d.property).Pairwise (· < ·)
  known : ∀ d ∈ e.declarations, d.property ∈ propertyOrder
  once : (e.declarations.map Declaration.property).Nodup
  fixed : (e.declarations.map Declaration.property).Sublist propertyOrder
  /-- Every field but the fit of a picture is declared exactly if it is set. -/
  set : ∀ row ∈ e.fields, e.Declares row.1 row.2
  /-- The other properties are those of pictures and buttons. -/
  rows : (e.fields.map Prod.fst ++
    ["background-image", "background-size", "object-fit", "cursor"]).Perm propertyOrder
  /-- A picture with children is a background, which has a size also if no fit is set. -/
  background : ∀ p, e.element = .image p → e.hasChildren = true →
    e.Declares "background-image" (some ("url(" ++ quote p.source ++ ")")) ∧
      e.Declares "background-size" (some (p.fit.getD .cover).backgroundSize) ∧
      e.Declares "object-fit" none
  /-- The fit of a picture without children is declared exactly if it is set. -/
  picture : ∀ p, e.element = .image p → e.hasChildren = false →
    e.Declares "background-image" none ∧ e.Declares "background-size" none ∧
      e.Declares "object-fit" (p.fit.map Fit.keyword)
  other : (∀ p, e.element ≠ .image p) →
    e.Declares "background-image" none ∧ e.Declares "background-size" none ∧
      e.Declares "object-fit" none
  /-- So the fit of a picture is declared if it is set, and of a background always. -/
  fit : ∀ p, e.element = .image p → (e.DeclaresFit ↔ p.fit.isSome = true ∨ e.hasChildren = true)
  /-- Every button says what the pointer over it looks like, and nothing else does. -/
  pointer : (∀ b, e.element = .button b →
      e.Declares "cursor" (some (if b.disabled then "not-allowed" else "pointer"))) ∧
    ((∀ b, e.element ≠ .button b) → e.Declares "cursor" none)
  /-- The block of the rule has one line for each declaration, in their order. -/
  block : ∀ indent, e.rule indent = "." ++ e.className ++ " \x7b\n" ++
    String.join (e.declarations.map (declarationLine indent)) ++ "\x7d\n"

/--
**Rules are in order.** The places of the properties that an element declares increase strictly, in
whatever order they were collected: every property is one of the list and none occurs twice. A field is
declared, with its value, if and only if it is set; only a picture with children declares a size for its
background whether or not it has a fit.
-/
theorem declarations_inOrder (e : PageElement) : e.DeclaresInOrder where
  collected := sortByRank_perm _
  ascending := e.declarations_eq ▸ e.declared_ascending
  known d hd := by
    rw [declarations_eq] at hd
    exact e.declared_sublist.mem (List.mem_map_of_mem hd)
  once := e.declarations_eq ▸ nodup_propertyOrder.sublist e.declared_sublist
  fixed := e.declarations_eq ▸ e.declared_sublist
  set row hrow := declares_of_row (fields_sublist.mem hrow)
  rows := by
    rw [map_fst_fields]
    decide
  background p hp hc := by
    obtain ⟨hbackdrop, hinset⟩ := backdrop_of_hasChildren hp hc
    simpa [hbackdrop, hinset] using e.declares_picture
  picture p hp hc := by
    obtain ⟨hbackdrop, hinset⟩ := inset_of_leaf hp hc
    simpa [hbackdrop, hinset] using e.declares_picture
  other hne := by
    obtain ⟨hbackdrop, hinset⟩ := no_picture hne
    simpa [hbackdrop, hinset] using e.declares_picture
  fit p hp := by
    rw [declaresFit_iff]
    cases hc : e.hasChildren with
    | true => simp [backdrop_of_hasChildren hp hc]
    | false => simp [inset_of_leaf hp hc]
  pointer := by
    have hpointer : e.Declares "cursor" (e.element.button?.map fun b =>
        if b.disabled then "not-allowed" else "pointer") := declares_of_row (by simp [properties])
    refine ⟨fun b hb => by simpa [hb, Element.button?] using hpointer, fun hne => ?_⟩
    have hnone : e.element.button? = none := by
      cases hel : e.element with
      | button b => exact absurd hel (hne b)
      | _ => rfl
    simpa [hnone] using hpointer
  block _ := rfl

-- The picture of a box is collected last, and its two declarations come before the border.
example : (PageElement.declarations
      { id := ⟨1⟩, className := "hero", isRoot := true, hasChildren := true, geometry := none
        element := .image
          { source := "a.png", alt := none, fit := none
            style :=
              { fill := none, border := some ⟨.zero false, "red"⟩, radius := none
                opacity := none } } }).map Declaration.property =
    ["background-image", "background-size", "border"] := by
  decide +kernel

end PageElement

/-! ## A fit that is not set -/

/-- A picture that does not say how it fills its box. -/
def skyPicture : Component :=
  { id := ⟨1⟩, kind := "image", appearance := [("src", .string "a.png")] }

/-- A text in the picture, which makes it a background. -/
def skyText : Component :=
  { id := ⟨2⟩, parentId := some ⟨1⟩, kind := "text", appearance := [("text", .string "t")] }

def skyTree : PageTree where
  nodes :=
    [{ component := skyPicture, parent := none, children := [1], depth := 0 },
      { component := skyText, parent := some 0, children := [], depth := 1 }]
  root := 0
  pageId := none

def skyStyle : BoxStyle :=
  { fill := none, border := none, radius := none, opacity := none }

def skyElement : PageElement :=
  { id := ⟨1⟩, className := "image", geometry := none, isRoot := true, hasChildren := true
    element := .image { source := "a.png", alt := none, fit := none, style := skyStyle } }

theorem skyPage_declares_unset :
    ∃ t es e p, PageTree.build [skyText, skyPicture] = .ok t ∧ t.pageElements none = .ok es ∧
      es[0]? = some e ∧ e.element = .image p ∧ ¬ (e.DeclaresFit ↔ p.fit.isSome = true) := by
  have hbuild : PageTree.build [skyText, skyPicture] = .ok skyTree := by cbv
  have hfirst : (skyTree.pageElements none).map (·[0]?) = .ok (some skyElement) := by
    decide +kernel
  obtain ⟨es, hes, hget⟩ := map_eq_ok_iff.mp hfirst
  have hdeclared : ⟨"background-size", "cover"⟩ ∈ skyElement.declarations := by decide +kernel
  refine ⟨skyTree, es, skyElement, _, hbuild, hes, hget, rfl, fun h => ?_⟩
  exact nomatch h.mp ⟨_, hdeclared, by simp⟩

end DesignCompiler
