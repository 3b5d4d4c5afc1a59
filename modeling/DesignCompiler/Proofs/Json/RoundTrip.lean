import DesignCompiler.Proofs.Json.Numerals
import DesignCompiler.Proofs.Json.Strings

/-!
# DesignCompiler — values of JSON, read back

The compact text of a value is read as that value, if each of its numbers is read back and its
containers are nested within the limit of the reader.

* `Json.induction` — induction over the items and the members of a value;
* `Json.numbers`, `Json.depth` — the numbers of a value, and how deep its containers are nested;
* `Source.ofJson` — the value as the reader finds it;
* `isTaken_of_readsBack` — a value at the beginning of a text;
* `ofText_render` — a value that is the whole text;
* `Json.isSorted` — the keys of all objects ascend;
* `json_ofJson` — what the reader found of such a value is read as the value.
-/

namespace DesignCompiler.Json

/-- A property holds of all values if each container passes it on from what it contains. -/
@[induction_eliminator]
theorem induction {motive : Json → Prop} (null : motive .null) (bool : ∀ b, motive (.bool b))
    (number : ∀ n, motive (.number n)) (string : ∀ s, motive (.string s))
    (array : ∀ items, (∀ v ∈ items, motive v) → motive (.array items))
    (object : ∀ members, (∀ m ∈ members, motive m.2) → motive (.object members)) (v : Json) :
    motive v := by
  refine @Json.rec motive (fun items => ∀ v ∈ items, motive v)
    (fun members => ∀ m ∈ members, motive m.2) (fun m => motive m.2)
    null bool number string array object ?_ ?_ ?_ ?_ ?_ v
  · exact nofun
  · exact fun v vs hv hvs => List.forall_mem_cons.mpr ⟨hv, hvs⟩
  · exact nofun
  · exact fun m ms hm hms => List.forall_mem_cons.mpr ⟨hm, hms⟩
  · exact fun _ _ h => h

/-! ## What is found -/

namespace Source

mutual

/-- A value that is written without a fault. -/
def ofJson : Json → Source
  | .null => .null
  | .bool b => .bool b
  | .number n => .number (some n)
  | .string s => .string (some s)
  | .array items => .array (ofItems items) none
  | .object members => .object (ofMembers members) none

def ofItems : List Json → List Source
  | [] => []
  | v :: vs => ofJson v :: ofItems vs

def ofMembers : List (String × Json) → List (Option String × Source)
  | [] => []
  | (k, v) :: ms => (some k, ofJson v) :: ofMembers ms

end

end Source

mutual

/-- All numbers in a value. -/
def numbers : Json → List Number
  | .null => []
  | .bool _ => []
  | .number n => [n]
  | .string _ => []
  | .array items => numbersOfItems items
  | .object members => numbersOfMembers members

def numbersOfItems : List Json → List Number
  | [] => []
  | v :: vs => numbers v ++ numbersOfItems vs

def numbersOfMembers : List (String × Json) → List Number
  | [] => []
  | (_, v) :: ms => numbers v ++ numbersOfMembers ms

end

mutual

/-- How many containers stand in each other. -/
def depth : Json → Nat
  | .null => 0
  | .bool _ => 0
  | .number _ => 0
  | .string _ => 0
  | .array items => depthOfItems items + 1
  | .object members => depthOfMembers members + 1

def depthOfItems : List Json → Nat
  | [] => 0
  | v :: vs => max (depth v) (depthOfItems vs)

def depthOfMembers : List (String × Json) → Nat
  | [] => 0
  | (_, v) :: ms => max (depth v) (depthOfMembers ms)

end

theorem mem_numbersOfItems {n : Number} {items : List Json} :
    n ∈ numbersOfItems items ↔ ∃ v ∈ items, n ∈ v.numbers := by
  induction items with
  | nil => simp [numbersOfItems]
  | cons v vs ih => simp [numbersOfItems, ih]

theorem mem_numbersOfMembers {n : Number} {members : List (String × Json)} :
    n ∈ numbersOfMembers members ↔ ∃ m ∈ members, n ∈ m.2.numbers := by
  induction members with
  | nil => simp [numbersOfMembers]
  | cons m ms ih => simp [numbersOfMembers, ih]

theorem depthOfItems_le_iff {d : Nat} {items : List Json} :
    depthOfItems items ≤ d ↔ ∀ v ∈ items, v.depth ≤ d := by
  induction items with
  | nil => simp [depthOfItems]
  | cons v vs ih => rw [depthOfItems, Nat.max_le, ih, List.forall_mem_cons]

theorem depthOfMembers_le_iff {d : Nat} {members : List (String × Json)} :
    depthOfMembers members ≤ d ↔ ∀ m ∈ members, m.2.depth ≤ d := by
  induction members with
  | nil => simp [depthOfMembers]
  | cons m ms ih => rw [depthOfMembers, Nat.max_le, ih, List.forall_mem_cons]

theorem depth_array_le {d : Nat} {items : List Json} (h : ∀ v ∈ items, v.depth ≤ d) :
    (array items).depth ≤ d + 1 :=
  Nat.succ_le_succ (depthOfItems_le_iff.mpr h)

theorem depth_object_le {d : Nat} {members : List (String × Json)}
    (h : ∀ m ∈ members, m.2.depth ≤ d) : (object members).depth ≤ d + 1 :=
  Nat.succ_le_succ (depthOfMembers_le_iff.mpr h)

/-- Each integer fits into a word. -/
def IntegersFit (v : Json) : Prop :=
  ∀ n, .integer n ∈ v.numbers → FitsWord n

/-- Each binary64 number is read back from its digits. -/
def BinariesReadBack (v : Json) : Prop :=
  ∀ x, .binary x ∈ v.numbers → (Number.binary x).ReadsBack

theorem integersFit_of_numbers_eq_nil {v : Json} (h : v.numbers = []) : v.IntegersFit := by
  intro n hn
  rw [h] at hn
  cases hn

theorem integersFit_integer {n : Int} (h : FitsWord n) : (number (.integer n)).IntegersFit := by
  intro k hk
  obtain rfl : k = n := by simpa [numbers] using hk
  exact h

theorem integersFit_array {items : List Json} (h : ∀ v ∈ items, v.IntegersFit) :
    (array items).IntegersFit := by
  intro n hn
  obtain ⟨v, hv, hn⟩ := mem_numbersOfItems.mp hn
  exact h v hv n hn

theorem integersFit_object {members : List (String × Json)}
    (h : ∀ m ∈ members, m.2.IntegersFit) : (object members).IntegersFit := by
  intro n hn
  obtain ⟨m, hm, hn⟩ := mem_numbersOfMembers.mp hn
  exact h m hm n hn

theorem readsBack_of_mem_numbers {v : Json} (hintegers : v.IntegersFit)
    (hbinaries : v.BinariesReadBack) : ∀ n ∈ v.numbers, n.ReadsBack := by
  rintro (n | x) hn
  · exact readsBack_integer (hintegers n hn)
  · exact hbinaries x hn

/-! ## Texts of values -/

theorem toList_renderString (s : String) :
    (renderString s).toList = '"' :: (s.toList.flatMap escapeChar ++ ['"']) := by
  rw [renderString, String.toList_ofList, List.cons_append]

theorem toList_render_array (items : List Json) :
    (render (.array items)).toList = '[' :: ((renderItems items).toList ++ [']']) := by
  simp [render]

theorem toList_render_object (members : List (String × Json)) :
    (render (.object members)).toList = '\x7b' :: ((renderMembers members).toList ++ ['\x7d']) := by
  simp [render]

/-- A text begins neither with a blank nor with the end of an array. -/
def BeginsValue (cs : List Char) : Prop :=
  ∃ c rest, cs = c :: rest ∧ isSpace c = false ∧ c ≠ ']'

theorem BeginsValue.append {cs : List Char} (h : BeginsValue cs) (more : List Char) :
    BeginsValue (cs ++ more) := by
  obtain ⟨c, rest, rfl, hc⟩ := h
  exact ⟨c, rest ++ more, rfl, hc⟩

theorem beginsValue_render {v : Json} (h : ∀ n ∈ v.numbers, n.ReadsBack) :
    BeginsValue v.render.toList := by
  cases v with
  | null => exact ⟨'n', _, rfl, by decide⟩
  | bool b => cases b <;> exact ⟨_, _, rfl, by decide⟩
  | number n =>
    -- a number begins with a sign or a digit
    obtain ⟨c, ds, htext, hc⟩ := head_of_readsBack (h n (by simp [numbers]))
    refine ⟨c, ds, htext, ?_⟩
    rcases hc with rfl | hdigit
    · decide
    · refine ⟨isSpace_of_isDigit hdigit, ?_⟩
      rintro rfl
      exact absurd hdigit (by decide)
  | string s => exact ⟨'"', _, toList_renderString s, by decide⟩
  | array items => exact ⟨'[', _, toList_render_array items, by decide⟩
  | object members => exact ⟨'\x7b', _, toList_render_object members, by decide⟩

theorem toList_renderItems (v : Json) (vs : List Json) :
    (renderItems (v :: vs)).toList =
      v.render.toList ++ (if vs.isEmpty then [] else ',' :: (renderItems vs).toList) := by
  cases vs with
  | nil => simp [renderItems]
  | cons w vs => simp [renderItems]

theorem toList_renderMembers (k : String) (v : Json) (ms : List (String × Json)) :
    (renderMembers ((k, v) :: ms)).toList =
      '"' :: (k.toList.flatMap escapeChar ++ '"' :: ':' :: (v.render.toList ++
        (if ms.isEmpty then [] else ',' :: (renderMembers ms).toList))) := by
  cases ms with
  | nil => simp [renderMembers, toList_renderString]
  | cons m ms => simp [renderMembers, toList_renderString]

/-! ## Reading values -/

/-- The value is found at the beginning of each text that goes on with another token. -/
def IsTaken (levels : Nat) (v : Json) : Prop :=
  ∀ limit rest, 3 * v.render.toList.length ≤ limit → EndsValue rest →
    takeValue levels limit (v.render.toList ++ rest) = (.ofJson v, some rest)

/-- The items of an array, if each of them is read. -/
theorem takeMoreItems_render {levels : Nat} {v : Json} {vs : List Json}
    (hread : ∀ x ∈ v :: vs, x.IsTaken levels) (limit : Nat) (rest : List Char)
    (hlimit : 3 * (renderItems (v :: vs)).toList.length + 1 ≤ limit) :
    takeMoreItems levels limit ((renderItems (v :: vs)).toList ++ ']' :: rest) =
      (Source.ofItems (v :: vs), none, some rest) := by
  induction vs generalizing v limit with
  | nil =>
    cases limit with
    | zero => omega
    | succ limit =>
      -- the bracket closes behind the last item
      rw [renderItems] at hlimit ⊢
      have hv := hread v (List.mem_cons_self ..) limit (']' :: rest) (by omega)
        (endsValue_cons (by simp) rest)
      rw [takeMoreItems, hv]
      simp only [skipSpace_cons (c := ']') (by decide)]
      rfl
  | cons w vs ih =>
    cases limit with
    | zero => omega
    | succ limit =>
      -- a comma stops the item, and one step less is left for the others
      have htext : (renderItems (v :: w :: vs)).toList =
          v.render.toList ++ ',' :: (renderItems (w :: vs)).toList := toList_renderItems v _
      rw [htext, List.length_append, List.length_cons] at hlimit
      have hv := hread v (List.mem_cons_self ..) limit
        (',' :: ((renderItems (w :: vs)).toList ++ ']' :: rest)) (by omega)
        (endsValue_cons (by simp) _)
      have hvs := ih (fun x hx => hread x (List.mem_cons_of_mem v hx)) limit (by omega)
      rw [htext, List.append_assoc, List.cons_append, takeMoreItems, hv]
      simp only [skipSpace_cons (c := ',') (by decide), hvs]
      rfl

/-- The members of an object, if each of their values is read. -/
theorem takeMoreMembers_render {levels : Nat} {m : String × Json} {ms : List (String × Json)}
    (hread : ∀ x ∈ m :: ms, x.2.IsTaken levels) (limit : Nat) (rest : List Char)
    (hlimit : 3 * (renderMembers (m :: ms)).toList.length + 1 ≤ limit) :
    takeMoreMembers levels limit ((renderMembers (m :: ms)).toList ++ '\x7d' :: rest) =
      (Source.ofMembers (m :: ms), none, some rest) := by
  induction ms generalizing m limit with
  | nil =>
    obtain ⟨k, v⟩ := m
    cases limit with
    | zero => omega
    | succ limit =>
      -- the brace closes behind the last value
      have htext := toList_renderMembers k v []
      simp only [List.isEmpty_nil, if_true, List.append_nil] at htext
      rw [htext] at hlimit ⊢
      simp only [List.length_cons, List.length_append] at hlimit
      have hv := hread (k, v) (List.mem_cons_self ..) limit ('\x7d' :: rest) (by simp only; omega)
        (endsValue_cons (by simp) rest)
      simp only [List.cons_append, List.append_assoc]
      rw [takeMoreMembers]
      simp only [skipSpace_cons (c := '"') (by decide), skipSpace_cons (c := ':') (by decide),
        skipSpace_cons (c := '\x7d') (by decide), takeString_escaped, hv]
      rfl
  | cons w ms ih =>
    obtain ⟨k, v⟩ := m
    cases limit with
    | zero => omega
    | succ limit =>
      -- a comma stops the value, and one step less is left for the others
      have htext := toList_renderMembers k v (w :: ms)
      simp only [List.isEmpty_cons, Bool.false_eq_true, if_false] at htext
      rw [htext] at hlimit ⊢
      simp only [List.length_cons, List.length_append] at hlimit
      have hv := hread (k, v) (List.mem_cons_self ..) limit
        (',' :: ((renderMembers (w :: ms)).toList ++ '\x7d' :: rest)) (by simp only; omega)
        (endsValue_cons (by simp) _)
      have hms := ih (fun x hx => hread x (List.mem_cons_of_mem _ hx)) limit (by omega)
      simp only [List.cons_append, List.append_assoc]
      rw [takeMoreMembers]
      simp only [skipSpace_cons (c := '"') (by decide), skipSpace_cons (c := ':') (by decide),
        skipSpace_cons (c := ',') (by decide), takeString_escaped, hv, hms]
      rfl

theorem takeItems_of_begins {cs : List Char} (h : BeginsValue cs) (levels limit : Nat) :
    takeItems levels (limit + 1) cs = takeMoreItems levels limit cs := by
  obtain ⟨c, rest, rfl, hspace, hc⟩ := h
  rw [takeItems, skipSpace_cons hspace]
  split
  · rename_i heq
    cases heq
  · rename_i heq
    exact absurd (List.cons.inj heq).1 hc
  · rfl

theorem isTaken_array {levels : Nat} {items : List Json} (hlevels : 0 < levels)
    (hread : ∀ v ∈ items, v.IsTaken (levels - 1))
    (hbegins : ∀ v ∈ items, BeginsValue v.render.toList) : (array items).IsTaken levels := by
  intro limit rest hlimit hrest
  rw [toList_render_array] at hlimit ⊢
  simp only [List.length_cons, List.length_append] at hlimit
  obtain ⟨limit, rfl⟩ : ∃ l, limit = l + 2 := ⟨limit - 2, by omega⟩
  have hitems : takeItems (levels - 1) (limit + 1) ((renderItems items).toList ++ ']' :: rest) =
      (Source.ofItems items, none, some rest) := by
    cases items with
    | nil =>
      rw [takeItems]
      rfl
    | cons v vs =>
      -- an item does not look like the bracket that would close the array at once
      have hmore := takeMoreItems_render hread limit rest (by omega)
      have hv := hbegins v (List.mem_cons_self ..)
      rw [← hmore, toList_renderItems, List.append_assoc]
      exact takeItems_of_begins (hv.append _) (levels - 1) limit
  simp only [List.cons_append, List.append_assoc]
  rw [takeValue]
  simp only [skipSpace_cons (c := '[') (by decide), List.nil_append, hitems]
  rw [nested, if_neg (by omega)]
  rfl

theorem isTaken_object {levels : Nat} {members : List (String × Json)} (hlevels : 0 < levels)
    (hread : ∀ m ∈ members, m.2.IsTaken (levels - 1)) : (object members).IsTaken levels := by
  intro limit rest hlimit hrest
  rw [toList_render_object] at hlimit ⊢
  simp only [List.length_cons, List.length_append] at hlimit
  -- one step for the value and one for its members; both braces are characters of the text
  obtain ⟨limit, rfl⟩ : ∃ l, limit = l + 2 := ⟨limit - 2, by omega⟩
  have hmembers : takeMembers (levels - 1) (limit + 1)
      ((renderMembers members).toList ++ '\x7d' :: rest) =
        (Source.ofMembers members, none, some rest) := by
    cases members with
    | nil =>
      rw [takeMembers]
      rfl
    | cons m ms =>
      -- the first member begins with its quote
      have hmore := takeMoreMembers_render hread limit rest (by omega)
      rw [← hmore, toList_renderMembers, List.cons_append, takeMembers]
      simp only [skipSpace_cons (c := '"') (by decide)]
      rfl
  simp only [List.cons_append, List.append_assoc]
  rw [takeValue]
  simp only [skipSpace_cons (c := '\x7b') (by decide), List.nil_append, hmembers]
  rw [nested, if_neg (by omega)]
  rfl

/-- The text of a value has a character at least, so one step at least is allowed. -/
theorem isTaken_of_cons {levels : Nat} {v : Json} {c : Char} {cs : List Char}
    (htext : v.render.toList = c :: cs)
    (htake : ∀ limit rest, EndsValue rest →
      takeValue levels (limit + 1) (c :: (cs ++ rest)) = (.ofJson v, some rest)) :
    v.IsTaken levels := by
  intro limit rest hlimit hrest
  rw [htext] at hlimit ⊢
  cases limit with
  | zero =>
    rw [List.length_cons] at hlimit
    omega
  | succ limit => exact htake limit rest hrest

/-- **A value is read from its text**, whatever token follows it, if its numbers are read back and
its containers are not nested too deep. -/
theorem isTaken_of_readsBack (v : Json) {levels : Nat} (hnumbers : ∀ n ∈ v.numbers, n.ReadsBack)
    (hdepth : v.depth ≤ levels) : v.IsTaken levels := by
  induction v generalizing levels with
  | null =>
    have htext : null.render.toList = ['n', 'u', 'l', 'l'] := rfl
    refine isTaken_of_cons htext fun limit rest _ => ?_
    rw [takeValue, skipSpace_cons (by decide)]
    rfl
  | bool b =>
    cases b with
    | false =>
      have htext : (bool false).render.toList = ['f', 'a', 'l', 's', 'e'] := rfl
      refine isTaken_of_cons htext fun limit rest _ => ?_
      rw [takeValue, skipSpace_cons (by decide)]
      rfl
    | true =>
      have htext : (bool true).render.toList = ['t', 'r', 'u', 'e'] := rfl
      refine isTaken_of_cons htext fun limit rest _ => ?_
      rw [takeValue, skipSpace_cons (by decide)]
      rfl
  | number n =>
    have hn := hnumbers n (List.mem_singleton_self n)
    obtain ⟨c, ds, htext, -⟩ := head_of_readsBack hn
    refine isTaken_of_cons htext fun limit rest hrest => ?_
    rw [← List.cons_append, ← htext]
    exact takeValue_number hn hrest levels limit
  | string s =>
    refine isTaken_of_cons (toList_renderString s) fun limit rest _ => ?_
    rw [List.append_assoc, takeValue]
    simp only [skipSpace_cons (c := '"') (by decide), List.cons_append, List.nil_append,
      takeString_escaped]
    rfl
  | array items ih =>
    rw [depth] at hdepth
    -- one level less is left for what is inside
    have hitems := depthOfItems_le_iff.mp (Nat.le_sub_one_of_lt hdepth)
    have hread : ∀ v ∈ items, ∀ n ∈ v.numbers, n.ReadsBack := fun v hv n hn =>
      hnumbers n (mem_numbersOfItems.mpr ⟨v, hv, hn⟩)
    exact isTaken_array (by omega) (fun v hv => ih v hv (hread v hv) (hitems v hv))
      fun v hv => beginsValue_render (hread v hv)
  | object members ih =>
    rw [depth] at hdepth
    have hmembers := depthOfMembers_le_iff.mp (Nat.le_sub_one_of_lt hdepth)
    have hread : ∀ m ∈ members, ∀ n ∈ m.2.numbers, n.ReadsBack := fun m hm n hn =>
      hnumbers n (mem_numbersOfMembers.mpr ⟨m, hm, hn⟩)
    exact isTaken_object (by omega) fun m hm => ih m hm (hread m hm) (hmembers m hm)

/-- A value that is a whole text. -/
theorem ofText_render {v : Json} {levels : Nat} (hnumbers : ∀ n ∈ v.numbers, n.ReadsBack)
    (hdepth : v.depth ≤ levels) : Source.ofText levels v.render = (.ofJson v, .ok ()) := by
  have hread := isTaken_of_readsBack v hnumbers hdepth (3 * v.render.toList.length + 3) []
    (by omega) endsValue_nil
  rw [List.append_nil] at hread
  simp only [Source.ofText, hread]
  rfl

/-! ## Free-form values -/

theorem Object.insert_of_lt {o : Object} {key : String} (h : ∀ m ∈ o, m.1 < key) (value : Json) :
    o.insert key value = o ++ [(key, value)] := by
  induction o with
  | nil => rfl
  | cons m o ih =>
    obtain ⟨hm, ho⟩ := List.forall_mem_cons.mp h
    have hne : key ≠ m.1 := by
      rintro rfl
      exact String.lt_irrefl _ hm
    rw [Object.insert, if_neg (String.lt_asymm hm), if_neg hne, ih ho, List.cons_append]

/-- The members of an object, one after the other, are that object. -/
theorem Object.ofMembers_of_pairwise {o : Object} (h : o.Pairwise fun m m' => m.1 < m'.1) :
    Object.ofMembers o = o := by
  -- each member comes behind those that are set already, so it is appended
  have hfold : ∀ (rest done : Object), (done ++ rest).Pairwise (fun m m' => m.1 < m'.1) →
      rest.foldl (fun o m => Object.insert o m.1 m.2) done = done ++ rest := by
    intro rest
    induction rest with
    | nil => exact fun done _ => (List.append_nil done).symm
    | cons m rest ih =>
      intro done hpairs
      obtain ⟨k, v⟩ := m
      have hbefore : ∀ m ∈ done, m.1 < k := fun m hm =>
        (List.pairwise_append.mp hpairs).2.2 m hm (k, v) (List.mem_cons_self ..)
      have happend : done ++ (k, v) :: rest = (done ++ [(k, v)]) ++ rest := by simp
      rw [happend] at hpairs ⊢
      simp only [List.foldl_cons, Object.insert_of_lt hbefore]
      exact ih _ hpairs
  exact hfold o [] h

mutual

/-- The keys of each object in a value ascend. -/
def isSorted : Json → Bool
  | .null => true
  | .bool _ => true
  | .number _ => true
  | .string _ => true
  | .array items => areSorted items
  | .object members =>
    decide (members.Pairwise fun m m' => m.1 < m'.1) && membersSorted members

def areSorted : List Json → Bool
  | [] => true
  | v :: vs => isSorted v && areSorted vs

def membersSorted : List (String × Json) → Bool
  | [] => true
  | (_, v) :: ms => isSorted v && membersSorted ms

end

theorem jsonItems_ofItems {items : List Json} (h : ∀ v ∈ items, (Source.ofJson v).json = .ok v) :
    Source.jsonItems (Source.ofItems items) = .ok items := by
  induction items with
  | nil => rfl
  | cons v vs ih =>
    obtain ⟨hv, hvs⟩ := List.forall_mem_cons.mp h
    rw [Source.ofItems, Source.jsonItems, hv, ih hvs]
    rfl

theorem jsonMembers_ofMembers {members : List (String × Json)}
    (h : ∀ m ∈ members, (Source.ofJson m.2).json = .ok m.2) :
    Source.jsonMembers (Source.ofMembers members) = .ok members := by
  induction members with
  | nil => rfl
  | cons m ms ih =>
    obtain ⟨hm, hms⟩ := List.forall_mem_cons.mp h
    rw [Source.ofMembers, Source.jsonMembers, hm, ih hms]
    rfl

theorem areSorted_iff {items : List Json} : areSorted items = true ↔ ∀ v ∈ items, v.isSorted := by
  induction items with
  | nil => simp [areSorted]
  | cons v vs ih => simp [areSorted, ih]

theorem isSorted_object_iff {members : List (String × Json)} :
    (object members).isSorted = true ↔
      members.Pairwise (fun m m' => m.1 < m'.1) ∧ ∀ m ∈ members, m.2.isSorted := by
  have hmembers : membersSorted members = true ↔ ∀ m ∈ members, m.2.isSorted := by
    induction members with
    | nil => simp [membersSorted]
    | cons m ms ih => simp [membersSorted, ih]
  rw [isSorted, Bool.and_eq_true, decide_eq_true_eq, hmembers]

/-- What the reader finds of a value whose keys ascend is that value. -/
theorem json_ofJson {v : Json} (h : v.isSorted) : (Source.ofJson v).json = .ok v := by
  induction v with
  | null => rfl
  | bool b => rfl
  | number n => rfl
  | string s => rfl
  | array items ih =>
    have hitems := areSorted_iff.mp h
    rw [Source.ofJson, Source.json, jsonItems_ofItems fun v hv => ih v hv (hitems v hv)]
    rfl
  | object members ih =>
    obtain ⟨hpairs, hmembers⟩ := isSorted_object_iff.mp h
    rw [Source.ofJson, Source.json, jsonMembers_ofMembers fun m hm => ih m hm (hmembers m hm)]
    exact congrArg (fun o => Except.ok (object o)) (Object.ofMembers_of_pairwise hpairs)

end DesignCompiler.Json
