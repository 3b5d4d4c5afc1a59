import DesignCompiler.Json.Reading
import DesignCompiler.Proofs.Record.Fieldwise
import Mathlib.Data.List.Forall2
import Mathlib.Logic.Relation

/-!
# DesignCompiler — spellings of records

The objects of a document can be written in many ways: with their members in any order, with fields by
any of their names, and with members that no record knows. All of these are read alike. But a field may
not come twice, under whatever names.

* `Layout.Respells`, `Layout.Rearranged` — other members, and other objects, that say the same;
* `Layout.Repeats` — a field that comes again, at the end of an object;
* `Layout.read_of_rearranged`, `Layout.read_of_repeats` — what both do to a record, from what they do to
  its fields;
* `list_of_itemsAlike`, `list_of_itemRepeats` — the same for lists of records.
-/

namespace DesignCompiler

open Json

/-! ## Objects that say the same -/

/-- Values that a reader of records passes over without looking into them. -/
inductive Json.Source.IsSimple : Source → Prop
  | null : IsSimple .null
  | bool (b : Bool) : IsSimple (.bool b)
  | string (s : String) : IsSimple (.string (some s))

namespace Layout

variable {κ δ ρ : Type}

section Spelling

variable (l : Layout Source Json.Error κ δ ρ)

/-- One change of the members of an object that does not change what they say. What values of a field
say the same is said by `Alike`. -/
inductive Respells (Alike : κ → Source → Source → Prop) :
    List (Option String × Source) → List (Option String × Source) → Prop
  | permuted {ms ms'} (h : ms.Perm ms') : Respells Alike ms ms'
  | renamed (before after) {n n' v} (k : κ) (hn : n ∈ l.names k) (hn' : n' ∈ l.names k) :
    Respells Alike (before ++ (some n, v) :: after) (before ++ (some n', v) :: after)
  | added {ms n v} (hn : ∀ k, n ∉ l.names k) (hv : Source.IsSimple v) :
    Respells Alike ms (ms ++ [(some n, v)])
  | within (before after) {n v v'} (k : κ) (hn : n ∈ l.names k) (hv : Alike k v v') :
    Respells Alike (before ++ (some n, v) :: after) (before ++ (some n, v') :: after)

/-- The same value, or an object with other members after any number of changes. -/
inductive Rearranged (Alike : κ → Source → Source → Prop) : Source → Source → Prop
  | same (v : Source) : Rearranged Alike v v
  | object {ms ms'} (h : Relation.ReflTransGen (l.Respells Alike) ms ms') :
    Rearranged Alike (.object ms none) (.object ms' none)

/-- An object in which a field comes again, or in which this happens inside of a field. `Deeper` says
how the latter looks, and which field it is. -/
inductive Repeats (Deeper : κ → Source → Source → String → Prop) : Source → Source → String → Prop
  | again {ms n n' v v'} (k : κ) (hmem : (some n, v) ∈ ms) (hn : n ∈ l.names k) (hn' : n' ∈ l.names k) :
    Repeats Deeper (.object ms none) (.object (ms ++ [(some n', v')]) none) (l.canonical k)
  | within {before after n v v' f} (k : κ) (hn : n ∈ l.names k) (hv : Deeper k v v' f) :
    Repeats Deeper (.object (before ++ (some n, v) :: after) none)
      (.object (before ++ (some n, v') :: after) none) f

end Spelling

/-! ## Records -/

section Reading

variable [DecidableEq κ] {l : Layout Source Json.Error κ δ ρ} (slots : l.Slots)
  {Alike : κ → Source → Source → Prop} {Deeper : κ → Source → Source → String → Prop}
  {ms ms' : List (Option String × Source)} {v v' : Source} {r : ρ} {f : String}

/-- The members of an object as a layout sees them. -/
def seen (ms : List (Option String × Source)) : List (Except Json.Error String × Source) :=
  ms.map fun m => (Source.orFault (Source.orMalformed m.1), m.2)

omit [DecidableEq κ] in
/-- A record comes from the draft of all members. -/
theorem read_object_eq (l : Layout Source Json.Error κ δ ρ) (ms : List (Option String × Source)) :
    l.read (.object ms none) = (seen ms).foldlM l.readMember l.empty >>= l.complete :=
  rfl

theorem seen_append (ms ms' : List (Option String × Source)) :
    seen (ms ++ ms') = seen ms ++ seen ms' :=
  List.map_append

theorem seen_cons (n : String) (v : Source) (ms : List (Option String × Source)) :
    seen ((some n, v) :: ms) = (Except.ok n, v) :: seen ms :=
  rfl

theorem skip_of_isSimple (h : Source.IsSimple v) :
    (Format.skip v : Except Json.Error Unit) = .ok () := by
  cases h <;> rfl

omit [DecidableEq κ] in
theorem field?_eq_none {n : String} (hn : ∀ k, n ∉ l.names k) : l.field? n = none := by
  rw [field?, List.find?_eq_none]
  intro k _ hmem
  exact hn k (List.contains_iff_mem.mp hmem)

variable (hAlike : ∀ k v v' a, Alike k v v' → slots.value k v = .ok a → slots.value k v' = .ok a)

include slots hAlike

/-- One change leaves the draft as it is. -/
theorem readMembers_of_respells (h : l.Respells Alike ms ms') {d d' : δ}
    (hread : (seen ms).foldlM l.readMember d = .ok d') :
    (seen ms').foldlM l.readMember d = .ok d' := by
  cases h with
  | permuted hperm => exact readMembers_perm slots (hperm.map _) hread
  | renamed before after k hn hn' =>
    rw [seen_append, seen_cons] at hread ⊢
    exact readMembers_alike slots (Takes.respell slots hn hn' fun _ ha => ha) hread
  | added hn hv =>
    rw [seen_append, List.foldlM_append, hread, bind_of_eq_ok rfl]
    have htakes : Takes slots d' (.ok _, _) d' :=
      .skipped (field?_eq_none hn) (skip_of_isSimple hv)
    have hmember := (readMember_eq_ok_iff slots).mpr htakes
    rw [seen_cons, List.foldlM_cons, hmember]
    rfl
  | within before after k hn hv =>
    rw [seen_append, seen_cons] at hread ⊢
    exact readMembers_alike slots (Takes.respell slots hn hn fun a => hAlike k _ _ a hv) hread

/-- A rearranged object is the same record. The induction is on the number of changes. -/
theorem read_of_rearranged (h : l.Rearranged Alike v v') (hread : l.read v = .ok r) :
    l.read v' = .ok r := by
  cases h with
  | same => exact hread
  | object hsteps =>
    rw [read_object_eq] at hread ⊢
    obtain ⟨d, hmembers, hcomplete⟩ := bind_eq_ok_iff.mp hread
    refine bind_eq_ok_iff.mpr ⟨d, ?_, hcomplete⟩
    induction hsteps with
    | refl => exact hmembers
    | tail _ hstep ih => exact readMembers_of_respells slots hAlike hstep ih

omit hAlike

variable (hDeeper : ∀ k v v' f a, Deeper k v v' f → slots.value k v = .ok a →
  slots.value k v' = .error (.mismatch (.repeated f)))

include hDeeper

/-- Where a field comes again there is no record, and the error names the field. -/
theorem read_of_repeats (h : l.Repeats Deeper v v' f) (hread : l.read v = .ok r) :
    l.read v' = .error (.mismatch (.repeated f)) := by
  cases h with
  -- The first member of the name has filled the field.
  | @again ms n n' w w' k hmem hn hn' =>
    rw [read_object_eq] at hread ⊢
    obtain ⟨d, hmembers, -⟩ := bind_eq_ok_iff.mp hread
    have hseen : (Except.ok n, w) ∈ seen ms := List.mem_map_of_mem hmem
    have hagain : (seen ms ++ [(Except.ok n', w')]).foldlM l.readMember l.empty = _ :=
      readMembers_repeated slots hn hseen hn' hmembers
    rw [seen_append, show seen [(some n', w')] = [(Except.ok n', w')] from rfl, hagain]
    rfl
  | @within before after n w w' f k hn hv =>
    rw [read_object_eq, seen_append, seen_cons] at hread ⊢
    obtain ⟨d, hmembers, -⟩ := bind_eq_ok_iff.mp hread
    rw [readMembers_spoiled slots hn (fun a ha => hDeeper k _ _ f a hv ha) hmembers]
    rfl

end Reading

end Layout

/-! ## Records inside of records -/

/-- The same value, or a list whose items are alike one by one. -/
inductive Json.Source.ItemsAlike (R : Source → Source → Prop) : Source → Source → Prop
  | same (v : Source) : ItemsAlike R v v
  | array {vs vs'} (h : List.Forall₂ R vs vs') : ItemsAlike R (.array vs none) (.array vs' none)

/-- Lists that differ in one item. -/
inductive Json.Source.ItemRepeats (R : Source → Source → String → Prop) :
    Source → Source → String → Prop
  | item {before after v v' f} (h : R v v' f) :
    ItemRepeats R (.array (before ++ v :: after) none) (.array (before ++ v' :: after) none) f

section Items

variable {α : Type} {read : Source → Except Json.Error α}

theorem list_array_eq (read : Source → Except Json.Error α) (vs : List Source) :
    Format.list read (.array vs none) = vs.mapM read := by
  have hlist : Format.list read (.array vs none) = vs.mapM read >>= fun as => pure as := rfl
  rw [hlist, bind_pure]

theorem list_of_itemsAlike {R : Source → Source → Prop} {v v' : Source} {as : List α}
    (hR : ∀ v v' a, R v v' → read v = .ok a → read v' = .ok a) (h : Source.ItemsAlike R v v')
    (hread : Format.list read v = .ok as) : Format.list read v' = .ok as := by
  cases h with
  | same => exact hread
  | array hitems =>
    rw [list_array_eq] at hread ⊢
    induction hitems generalizing as with
    | nil => exact hread
    | cons hitem _ ih =>
      rw [List.mapM_cons] at hread ⊢
      obtain ⟨a, ha, hread⟩ := bind_eq_ok_iff.mp hread
      obtain ⟨as', has, hread⟩ := bind_eq_ok_iff.mp hread
      exact bind_eq_ok_iff.mpr ⟨a, hR _ _ a hitem ha, bind_eq_ok_iff.mpr ⟨as', ih has, hread⟩⟩

theorem list_of_itemRepeats {R : Source → Source → String → Prop} {v v' : Source} {f : String}
    {as : List α} {e : Json.Error} (hR : ∀ v v' a, R v v' f → read v = .ok a → read v' = .error e)
    (h : Source.ItemRepeats R v v' f) (hread : Format.list read v = .ok as) :
    Format.list read v' = .error e := by
  cases h with
  | @item before after w w' _ hitem =>
    rw [list_array_eq] at hread ⊢
    -- the items before it are read as they were
    induction before generalizing as with
    | nil =>
      rw [List.nil_append, List.mapM_cons] at hread ⊢
      obtain ⟨a, ha, -⟩ := bind_eq_ok_iff.mp hread
      rw [hR _ _ a hitem ha]
      rfl
    | cons b before ih =>
      rw [List.cons_append, List.mapM_cons] at hread ⊢
      obtain ⟨b', hb, hread⟩ := bind_eq_ok_iff.mp hread
      obtain ⟨as', has, -⟩ := bind_eq_ok_iff.mp hread
      rw [hb, bind_of_eq_ok rfl, ih has]
      rfl

end Items

end DesignCompiler
