import DesignCompiler.Design.Reading
import DesignCompiler.Json.Reading
import DesignCompiler.Proofs.Json.RoundTrip

/-!
# DesignCompiler — designs, read back

The compact text of a component, a page or a design is read as that record.

* `Layout.readMembers` — the draft that the members of an object lead to;
* `Component.read_ofJson`, `Page.read_ofJson`, `Design.read_ofJson` — a record from its members;
* `Component.WellFormed`, `Component.nesting` — what an appearance is like;
* `read_render` — a record from its text.
-/

namespace DesignCompiler

open Json (Source)

/-! ## Layouts -/

section

variable {ν ε κ δ ρ : Type} [Format ν ε] {l : Layout ν ε κ δ ρ} {d : δ} {name : String} {k : κ}

/-- A member whose field has no value yet sets that field. -/
theorem Layout.readMember_eq_set (hfield : l.field? name = some k) (hfree : l.has d k = false)
    (v : ν) : l.readMember d (.ok name, v) = l.set k v d := by
  simp only [Layout.readMember, bind, Except.bind, hfield, hfree]
  rfl

end

/-- The draft after the members of an object, one after the other. -/
def Layout.readMembers {κ δ ρ : Type} (l : Layout Source Json.Error κ δ ρ) (d : δ)
    (members : List (String × Json)) : Except Json.Error δ :=
  members.foldlM (fun d m => l.readMember d (.ok m.1, .ofJson m.2)) d

section

variable {κ δ ρ : Type} {l : Layout Source Json.Error κ δ ρ} {d : δ}

theorem Layout.readMembers_cons {name : String} {v : Json} {k : κ} {d' : δ}
    (hfield : l.field? name = some k) (hfree : l.has d k = false)
    (hset : l.set k (.ofJson v) d = .ok d') (members : List (String × Json)) :
    l.readMembers d ((name, v) :: members) = l.readMembers d' members := by
  rw [Layout.readMembers, List.foldlM_cons, Layout.readMember_eq_set hfield hfree, hset]
  rfl

theorem Layout.readMembers_append (members more : List (String × Json)) :
    l.readMembers d (members ++ more) =
      l.readMembers d members >>= fun d => l.readMembers d more :=
  List.foldlM_append

/-- An object is read as a record member by member. -/
theorem Layout.read_object (members : List (String × Json)) :
    l.read (Source.ofJson (.object members)) = l.readMembers l.empty members >>= l.complete := by
  have hnames : (Source.ofMembers members).map
      (fun m => (Source.orFault (Source.orMalformed m.1), m.2)) =
        members.map fun m => (Except.ok m.1, Source.ofJson m.2) := by
    induction members with
    | nil => rfl
    | cons m ms ih =>
      rw [Source.ofMembers, List.map_cons, List.map_cons, ih]
      rfl
  have hread : l.read (Source.ofJson (.object members)) =
      l.ofMembers ((Source.ofMembers members).map
        fun m => (Source.orFault (Source.orMalformed m.1), m.2)) (.ok ()) := rfl
  rw [hread, hnames, Layout.ofMembers, List.foldlM_map]
  rfl

end

/-! ## Values of fields -/

theorem word_ofWord (w : UInt64) : Format.word (Source.ofJson (.ofWord w)) = .ok w := by
  have hword : Format.word (Source.ofJson (.ofWord w)) =
      if 0 ≤ (w.toNat : Int) then .ok (.ofNat (w.toNat : Int).toNat)
      else .error (.mismatch (.outOfRange w.toNat "u64")) := rfl
  rw [hword, if_pos (Int.natCast_nonneg _), Int.toNat_natCast, UInt64.ofNat_toNat]

theorem integer_ofInteger (n : Int64) :
    Format.integer (Source.ofJson (.number (.integer n.toInt))) = .ok n := by
  have hinteger : Format.integer (Source.ofJson (.number (.integer n.toInt))) =
      if n.toInt < Nat.pow 2 63 then .ok (.ofInt n.toInt)
      else .error (.mismatch (.outOfRange n.toInt "i64")) := rfl
  have hlt : n.toInt < Nat.pow 2 63 := Int64.toInt_lt n
  rw [hinteger, if_pos hlt, Int64.ofInt_toInt]

theorem optional_ofOption {α : Type} {read : Source → Except Json.Error α} {f : α → Json}
    (hthere : ∀ a, Format.isAbsent (Source.ofJson (f a)) = false)
    (hread : ∀ a, read (Source.ofJson (f a)) = .ok a) (o : Option α) :
    Format.optional read (Source.ofJson (Json.ofOption f o)) = .ok o := by
  cases o with
  | none => rfl
  | some a =>
    rw [Json.ofOption, Format.optional, hthere, hread]
    rfl

theorem list_ofItems {α : Type} {read : Source → Except Json.Error α} {f : α → Json} {as : List α}
    (hread : ∀ a ∈ as, read (Source.ofJson (f a)) = .ok a) :
    Format.list read (Source.ofJson (.array (as.map f))) = .ok as := by
  have hitems : (Source.ofItems (as.map f)).mapM read = .ok as := by
    induction as with
    | nil => rfl
    | cons a as ih =>
      obtain ⟨ha, has⟩ := List.forall_mem_cons.mp hread
      rw [List.map_cons, Source.ofItems, List.mapM_cons, ha, ih has]
      rfl
  have hlist : Format.list read (Source.ofJson (.array (as.map f))) =
      (Source.ofItems (as.map f)).mapM read >>= fun as => .ok as := rfl
  rw [hlist, hitems]
  rfl

theorem object_ofMembers {o : Json.Object} (h : (Json.object o).isSorted) :
    Format.object (Source.ofJson (.object o)) = .ok o := by
  obtain ⟨hpairs, hvalues⟩ := Json.isSorted_object_iff.mp h
  have hmembers := Json.jsonMembers_ofMembers fun m hm => Json.json_ofJson (hvalues m hm)
  have hobject : Format.object (Source.ofJson (.object o)) =
      Source.orFault (Source.jsonMembers (Source.ofMembers o) >>= fun ms =>
        .ok (Json.Object.ofMembers ms)) := rfl
  rw [hobject, hmembers]
  exact congrArg Except.ok (Json.Object.ofMembers_of_pairwise hpairs)

/-! ## Records -/

theorem Geometry.read_ofJson (g : Geometry) :
    Geometry.layout.read (Source.ofJson g.json) = .ok g :=
  rfl

namespace Component

theorem readId_ofWord (id : ComponentId) :
    readId (Source.ofJson (.ofWord id.value)) = .ok id := by
  rw [readId, word_ofWord]
  rfl

theorem readPageId_ofWord (id : PageId) :
    readPageId (Source.ofJson (.ofWord id.value)) = .ok id := by
  rw [readPageId, word_ofWord]
  rfl

/-- The members of a component's text that are always there. -/
def fixedMembers (c : Component) : List (String × Json) :=
  [("id", .ofWord c.id.value), ("parent_id", .ofOption (fun p => .ofWord p.value) c.parentId),
    ("page_id", .ofOption (fun p => .ofWord p.value) c.pageId), ("kind", .string c.kind),
    ("name", .string c.name), ("order", .number (.integer c.order.toInt))]

/-- The draft of a component without geometry and appearance. -/
def fixedDraft (c : Component) : Draft :=
  { id := some c.id, parentId := some c.parentId, pageId := some c.pageId, kind := some c.kind,
    name := some c.name, order := some c.order }

theorem readMembers_fixed (c : Component) :
    layout.readMembers {} c.fixedMembers = .ok c.fixedDraft := by
  have hparent := optional_ofOption (f := fun p : ComponentId => .ofWord p.value)
    (fun _ => rfl) readId_ofWord c.parentId
  have hpage := optional_ofOption (f := fun p : PageId => .ofWord p.value)
    (fun _ => rfl) readPageId_ofWord c.pageId
  have horder := integer_ofInteger c.order
  rw [fixedMembers,
    Layout.readMembers_cons (k := .id) rfl rfl (bind_of_eq_ok (readId_ofWord c.id) _),
    Layout.readMembers_cons (k := .parentId) rfl rfl (bind_of_eq_ok hparent _),
    Layout.readMembers_cons (k := .pageId) rfl rfl (bind_of_eq_ok hpage _),
    Layout.readMembers_cons (k := .kind) rfl rfl rfl,
    Layout.readMembers_cons (k := .name) rfl rfl rfl,
    Layout.readMembers_cons (k := .order) rfl rfl (bind_of_eq_ok horder _)]
  rfl

/-- The member for the geometry, if there is one. -/
def geometryMembers (c : Component) : List (String × Json) :=
  match c.geometry with
  | none => []
  | some g => [("geometry", g.json)]

theorem readMembers_geometry (c : Component) :
    layout.readMembers c.fixedDraft c.geometryMembers =
      .ok { c.fixedDraft with geometry := c.geometry.map some } := by
  rw [geometryMembers]
  cases c.geometry with
  | none => rfl
  | some g =>
    have hgeometry : Format.optional Geometry.layout.read (Source.ofJson g.json) = .ok (some g) :=
      rfl
    rw [Layout.readMembers_cons (k := .geometry) rfl rfl (bind_of_eq_ok hgeometry _)]
    rfl

/-- The member for the appearance, unless it is empty. -/
def appearanceMembers (c : Component) : List (String × Json) :=
  if c.appearance.isEmpty then [] else [("appearance", .object c.appearance)]

theorem json_eq (c : Component) :
    c.json = .object (c.fixedMembers ++ c.geometryMembers ++ c.appearanceMembers) := rfl

/-- The draft that the text of a component leads to. -/
def draft (c : Component) : Draft :=
  { c.fixedDraft with
    geometry := c.geometry.map some
    appearance := if c.appearance.isEmpty then none else some c.appearance }

theorem readMembers_appearance {c : Component} (h : (Json.object c.appearance).isSorted) :
    layout.readMembers { c.fixedDraft with geometry := c.geometry.map some } c.appearanceMembers =
      .ok c.draft := by
  rw [appearanceMembers, draft]
  split
  · rfl
  · rw [Layout.readMembers_cons (k := .appearance) rfl rfl (bind_of_eq_ok (object_ofMembers h) _)]
    rfl

theorem complete_draft (c : Component) :
    Layout.complete (layout : Layout Source Json.Error Field Draft Component) c.draft = .ok c := by
  obtain ⟨id, parentId, pageId, kind, name, order, geometry, appearance⟩ := c
  cases geometry <;> cases appearance <;> rfl

/-- **A component is read from its members.** -/
theorem read_ofJson {c : Component} (h : (Json.object c.appearance).isSorted) :
    layout.read (Source.ofJson c.json) = .ok c := by
  have hread : layout.readMembers {}
      (c.fixedMembers ++ c.geometryMembers ++ c.appearanceMembers) = .ok c.draft := by
    rw [Layout.readMembers_append, Layout.readMembers_append, readMembers_fixed,
      bind_of_eq_ok rfl, readMembers_geometry, bind_of_eq_ok rfl, readMembers_appearance h]
  rw [json_eq, Layout.read_object]
  exact (bind_of_eq_ok hread _).trans (complete_draft c)

end Component

theorem Page.read_ofJson {p : Page}
    (h : ∀ c ∈ p.components, (Json.object c.appearance).isSorted) :
    Page.layout.read (Source.ofJson p.json) = .ok p := by
  have hname : Format.optional Format.text (Source.ofJson (Json.ofOption .string p.name)) =
      .ok p.name := optional_ofOption (fun _ => rfl) (fun _ => rfl) p.name
  have hcomponents := list_ofItems fun c hc => Component.read_ofJson (h c hc)
  rw [Page.json, Layout.read_object]
  refine (bind_of_eq_ok (a := ⟨some p.id, some p.name, some p.components⟩) ?_ _).trans rfl
  have hid := Component.readPageId_ofWord p.id
  rw [Layout.readMembers_cons (k := .id) rfl rfl (bind_of_eq_ok hid _),
    Layout.readMembers_cons (k := .name) rfl rfl (bind_of_eq_ok hname _),
    Layout.readMembers_cons (k := .components) rfl rfl (bind_of_eq_ok hcomponents _)]
  rfl

theorem Design.read_ofJson {d : Design}
    (h : ∀ p ∈ d.pages, ∀ c ∈ p.components, (Json.object c.appearance).isSorted) :
    Design.layout.read (Source.ofJson d.json) = .ok d := by
  have hpages := list_ofItems fun p hp => Page.read_ofJson (h p hp)
  rw [Design.json, Layout.read_object]
  refine (bind_of_eq_ok (a := ⟨some d.id, some d.title, some d.pages⟩) ?_ _).trans rfl
  rw [Layout.readMembers_cons (k := .id) rfl rfl (bind_of_eq_ok (word_ofWord d.id) _),
    Layout.readMembers_cons (k := .title) rfl rfl rfl,
    Layout.readMembers_cons (k := .pages) rfl rfl (bind_of_eq_ok hpages _)]
  rfl

/-! ## Numbers and nesting -/

theorem integersFit_ofWord (w : UInt64) : (Json.ofWord w).IntegersFit := by
  have hlow : -(Nat.pow 2 63 : Nat) ≤ (w.toNat : Int) := by omega
  exact Json.integersFit_integer ⟨hlow, Int.ofNat_lt.mpr w.toNat_lt⟩

namespace Component

/-- An appearance as an object holds it: its keys ascend at each level, and its integers fit into
words. -/
structure WellFormed (c : Component) : Prop where
  sorted : (Json.object c.appearance).isSorted
  integers : (Json.object c.appearance).IntegersFit

/-- How deep the containers of the appearance are nested. -/
def nesting (c : Component) : Nat :=
  (Json.object c.appearance).depth

/-- A property of all values that a component's text has as members. -/
theorem forall_members {c : Component} {P : Json → Prop} (null : P .null)
    (word : ∀ w, P (.ofWord w)) (string : ∀ s, P (.string s))
    (order : P (.number (.integer c.order.toInt))) (geometry : ∀ g : Geometry, P g.json)
    (appearance : P (.object c.appearance)) :
    ∀ m ∈ c.fixedMembers ++ c.geometryMembers ++ c.appearanceMembers, P m.2 := by
  intro m hm
  rcases List.mem_append.mp hm with hm | hm
  · rcases List.mem_append.mp hm with hm | hm
    · -- the members that are always there
      have hparent : P (Json.ofOption (fun p => .ofWord p.value) c.parentId) := by
        cases c.parentId with
        | none => exact null
        | some p => exact word p.value
      have hpage : P (Json.ofOption (fun p => .ofWord p.value) c.pageId) := by
        cases c.pageId with
        | none => exact null
        | some p => exact word p.value
      simp only [fixedMembers, List.mem_cons, List.not_mem_nil, or_false] at hm
      rcases hm with rfl | rfl | rfl | rfl | rfl | rfl
      · exact word c.id.value
      · exact hparent
      · exact hpage
      · exact string c.kind
      · exact string c.name
      · exact order
    · -- the geometry, if there is one
      rw [geometryMembers] at hm
      split at hm
      · cases hm
      · obtain rfl := List.mem_singleton.mp hm
        exact geometry _
  · -- the appearance, unless it is empty
    rw [appearanceMembers] at hm
    split at hm
    · cases hm
    · obtain rfl := List.mem_singleton.mp hm
      exact appearance

theorem integersFit_json {c : Component} (h : c.WellFormed) : c.json.IntegersFit := by
  have horder : (Json.number (.integer c.order.toInt)).IntegersFit := by
    have hlow : -(Nat.pow 2 63 : Nat) ≤ c.order.toInt := c.order.le_toInt
    have hhigh : c.order.toInt < (Nat.pow 2 63 : Nat) := c.order.toInt_lt
    have hlimit : Nat.pow 2 63 < Json.Numeral.wordLimit := by decide
    exact Json.integersFit_integer ⟨hlow, by omega⟩
  have hgeometry : ∀ g : Geometry, g.json.IntegersFit := by
    intro g n hn
    simp [Geometry.json, Json.numbers, Json.numbersOfMembers] at hn
  rw [json_eq]
  exact Json.integersFit_object (forall_members (Json.integersFit_of_numbers_eq_nil rfl)
    integersFit_ofWord (fun _ => Json.integersFit_of_numbers_eq_nil rfl) horder hgeometry
    h.integers)

theorem depth_json_le {c : Component} {d : Nat} (h : c.nesting ≤ d) : c.json.depth ≤ d + 1 := by
  -- an appearance is a container itself, so it is as deep as a geometry
  have hnesting : 1 ≤ c.nesting := Nat.succ_pos _
  have hgeometry : ∀ g : Geometry, g.json.depth ≤ d := fun g => Nat.le_trans hnesting h
  rw [json_eq]
  exact Json.depth_object_le (forall_members (P := fun v => v.depth ≤ d) (Nat.zero_le d)
    (fun _ => Nat.zero_le d) (fun _ => Nat.zero_le d) (Nat.zero_le d) hgeometry h)

end Component

theorem Page.integersFit_json {p : Page} (h : ∀ c ∈ p.components, c.WellFormed) :
    p.json.IntegersFit := by
  have hname : (Json.ofOption .string p.name).IntegersFit := by
    cases p.name <;> exact Json.integersFit_of_numbers_eq_nil rfl
  have hcomponents : (Json.array (p.components.map Component.json)).IntegersFit :=
    Json.integersFit_array
      (List.forall_mem_map.mpr fun c hc => Component.integersFit_json (h c hc))
  refine Json.integersFit_object ?_
  simp only [List.forall_mem_cons]
  exact ⟨integersFit_ofWord p.id.value, hname, hcomponents, List.forall_mem_nil _⟩

theorem Page.depth_json_le {p : Page} {d : Nat} (h : ∀ c ∈ p.components, c.nesting ≤ d) :
    p.json.depth ≤ d + 3 := by
  have hname : (Json.ofOption .string p.name).depth ≤ d + 2 := by
    cases p.name <;> exact Nat.zero_le _
  have hcomponents : (Json.array (p.components.map Component.json)).depth ≤ d + 2 :=
    Json.depth_array_le (List.forall_mem_map.mpr fun c hc => Component.depth_json_le (h c hc))
  refine Json.depth_object_le ?_
  simp only [List.forall_mem_cons]
  exact ⟨Nat.zero_le _, hname, hcomponents, List.forall_mem_nil _⟩

theorem Design.integersFit_json {d : Design}
    (h : ∀ p ∈ d.pages, ∀ c ∈ p.components, c.WellFormed) : d.json.IntegersFit := by
  have hpages : (Json.array (d.pages.map Page.json)).IntegersFit :=
    Json.integersFit_array (List.forall_mem_map.mpr fun p hp => Page.integersFit_json (h p hp))
  have htitle : (Json.string d.title).IntegersFit := Json.integersFit_of_numbers_eq_nil rfl
  refine Json.integersFit_object ?_
  simp only [List.forall_mem_cons]
  exact ⟨integersFit_ofWord d.id, htitle, hpages, List.forall_mem_nil _⟩

theorem Design.depth_json_le {d : Design} {n : Nat}
    (h : ∀ p ∈ d.pages, ∀ c ∈ p.components, c.nesting ≤ n) : d.json.depth ≤ n + 5 := by
  have hpages : (Json.array (d.pages.map Page.json)).depth ≤ n + 4 :=
    Json.depth_array_le (List.forall_mem_map.mpr fun p hp => Page.depth_json_le (h p hp))
  refine Json.depth_object_le ?_
  simp only [List.forall_mem_cons]
  exact ⟨Nat.zero_le _, Nat.zero_le _, hpages, List.forall_mem_nil _⟩

/-! ## Texts of records -/

/-- A record is read from its text if it is read from its members. -/
theorem read_render_of_read {α : Type} {record : Source → Except Json.Error α} {v : Json} {a : α}
    (hintegers : v.IntegersFit) (hbinaries : v.BinariesReadBack)
    (hdepth : v.depth ≤ Source.maxDepth) (hread : record (.ofJson v) = .ok a) :
    Json.read record v.render = .ok a := by
  have htext := Json.ofText_render (Json.readsBack_of_mem_numbers hintegers hbinaries) hdepth
  simp only [Json.read, htext, bind, Except.bind, hread]
  rfl

/-- **Every record is read from its text**, if its binary64 numbers are read back from their digits
and its appearances are not nested past the limit of the reader. -/
theorem read_render :
    (∀ c : Component, c.WellFormed → c.json.BinariesReadBack → c.nesting + 1 ≤ Source.maxDepth →
      Json.read Component.layout.read c.json.render = .ok c) ∧
    (∀ p : Page, (∀ c ∈ p.components, c.WellFormed) → p.json.BinariesReadBack →
      (∀ c ∈ p.components, c.nesting + 3 ≤ Source.maxDepth) →
      Json.read Page.layout.read p.json.render = .ok p) ∧
    (∀ d : Design, (∀ p ∈ d.pages, ∀ c ∈ p.components, c.WellFormed) → d.json.BinariesReadBack →
      (∀ p ∈ d.pages, ∀ c ∈ p.components, c.nesting + 5 ≤ Source.maxDepth) →
      Json.read Design.layout.read d.json.render = .ok d) := by
  -- a component is one level deep, a page adds two levels, and a design two more
  refine ⟨?_, ?_, ?_⟩
  · intro c hformed hbinaries hnesting
    have hdepth : c.json.depth ≤ Source.maxDepth :=
      Component.depth_json_le (Nat.le_sub_of_add_le hnesting)
    exact read_render_of_read (Component.integersFit_json hformed) hbinaries hdepth
      (Component.read_ofJson hformed.sorted)
  · intro p hformed hbinaries hnesting
    have hdepth : p.json.depth ≤ Source.maxDepth :=
      Page.depth_json_le fun c hc => Nat.le_sub_of_add_le (hnesting c hc)
    exact read_render_of_read (Page.integersFit_json hformed) hbinaries hdepth
      (Page.read_ofJson fun c hc => (hformed c hc).sorted)
  · intro d hformed hbinaries hnesting
    have hdepth : d.json.depth ≤ Source.maxDepth :=
      Design.depth_json_le fun p hp c hc => Nat.le_sub_of_add_le (hnesting p hp c hc)
    exact read_render_of_read (Design.integersFit_json hformed) hbinaries hdepth
      (Design.read_ofJson fun p hp c hc => (hformed p hp c hc).sorted)

/-- A component that says something in each field: the extreme words, a negative zero, strings to be
escaped, and an integer beside the binary64 number of the same value. -/
def thoroughComponent : Component where
  id := ⟨0xFFFFFFFFFFFFFFFF⟩
  parentId := none
  pageId := some ⟨0⟩
  kind := "text"
  name := "a\"\\\n\x01é😀"
  order := Int64.minValue
  geometry := some {
    x := .zero true
    y := ⟨0x3FF8000000000000⟩
    width := ⟨0x3FB999999999999A⟩
    height := ⟨0x3FF0000000000000⟩ }
  appearance := [
    ("data", .array [.object [("one", .number (.integer 1)),
      ("other", .number (.binary ⟨0x3FF0000000000000⟩))], .null, .bool true]),
    ("least", .number (.integer (-9223372036854775808))),
    ("most", .number (.integer 18446744073709551615)),
    ("text", .string "\t</p>\x00")]

/-- The component with a child that says as little as possible. -/
def thoroughPage : Page where
  id := ⟨7⟩
  components := [thoroughComponent,
    { id := ⟨1⟩, parentId := some ⟨0xFFFFFFFFFFFFFFFF⟩, kind := "box" }]

def thoroughDesign : Design where
  id := 0
  title := ""
  pages := [thoroughPage, { id := ⟨8⟩, name := some "Empty" }]

theorem wellFormed_thoroughPage : ∀ c ∈ thoroughPage.components, c.WellFormed := by
  have hintegers : (Json.object thoroughComponent.appearance).IntegersFit := by
    intro n hn
    have hnumbers : (Json.object thoroughComponent.appearance).numbers =
        [.integer 1, .binary ⟨0x3FF0000000000000⟩, .integer (-9223372036854775808),
          .integer 18446744073709551615] := rfl
    rw [hnumbers] at hn
    simp only [List.mem_cons, Json.Number.integer.injEq, reduceCtorEq, List.not_mem_nil, or_false,
      false_or] at hn
    rcases hn with rfl | rfl | rfl <;> exact ⟨by decide, by decide⟩
  simp only [thoroughPage, List.forall_mem_cons]
  exact ⟨⟨by decide +kernel, hintegers⟩, ⟨rfl, nofun⟩, nofun⟩

theorem thoroughDesign_read_render :
    Json.read Component.layout.read thoroughComponent.json.render = .ok thoroughComponent ∧
      Json.read Page.layout.read thoroughPage.json.render = .ok thoroughPage ∧
      Json.read Design.layout.read thoroughDesign.json.render = .ok thoroughDesign := by
  have hcomponent : ∀ n ∈ thoroughComponent.json.numbers, n.ReadsBack := by decide +kernel
  have hpage : ∀ n ∈ thoroughPage.json.numbers, n.ReadsBack := by decide +kernel
  have hdesign : ∀ n ∈ thoroughDesign.json.numbers, n.ReadsBack := by decide +kernel
  have hformed : ∀ p ∈ thoroughDesign.pages, ∀ c ∈ p.components, c.WellFormed := by
    simp only [thoroughDesign, List.forall_mem_cons]
    exact ⟨wellFormed_thoroughPage, nofun, nofun⟩
  refine ⟨?_, ?_, ?_⟩
  · exact read_render.1 thoroughComponent (wellFormed_thoroughPage _ (List.mem_cons_self ..))
      (fun x hx => hcomponent _ hx) (by decide +kernel)
  · exact read_render.2.1 thoroughPage wellFormed_thoroughPage (fun x hx => hpage _ hx)
      (by decide +kernel)
  · exact read_render.2.2 thoroughDesign hformed (fun x hx => hdesign _ hx) (by decide +kernel)

end DesignCompiler
