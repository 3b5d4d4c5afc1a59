import DesignCompiler.Proofs.Outcome
import DesignCompiler.Record.Layout

/-!
# DesignCompiler — records by their fields

A record is collected field by field, and what is read into one field neither looks at the others nor
touches them. So the order of the members makes no difference, nor does the name by which a field is
called; only a field that comes twice is noticed.

* `Layout.Slots` — a layout whose fields do not interfere;
* `readMember_eq_ok_iff` — what a member that is read does to a draft;
* `readMembers_perm` — members in another order;
* `readMembers_alike` — a member that says the same in another way;
* `readMembers_repeated`, `readMembers_spoiled` — a field that comes again, or with another value.
-/

namespace DesignCompiler.Layout

variable {ν ε κ δ ρ : Type} [DecidableEq κ]

/-- The fields of a layout do not interfere: the value of a field is read by itself, and then put into
its own slot of the draft. -/
structure Slots (l : Layout ν ε κ δ ρ) where
  /-- The values of a field. -/
  Value : κ → Type
  value : (k : κ) → ν → Except ε (Value k)
  put : (k : κ) → Value k → δ → δ
  set_eq : ∀ k v d, l.set k v d = (value k v).map fun a => put k a d
  put_comm : ∀ j k (a : Value j) (b : Value k) d, j ≠ k → put j a (put k b d) = put k b (put j a d)
  has_put : ∀ k (a : Value k) d j, l.has (put k a d) j = (decide (j = k) || l.has d j)
  /-- No two fields share a name. -/
  field?_of_mem : ∀ k, ∀ n ∈ l.names k, l.field? n = some k

variable [Format ν ε] {l : Layout ν ε κ δ ρ} (slots : l.Slots) {d d' : δ}

/-! ## One member -/

/-- What a member does to a draft when it is read: either it is passed over, or its field is free and
takes the value. -/
inductive Takes (slots : l.Slots) (d : δ) : Except ε String × ν → δ → Prop
  | skipped {n : String} {v : ν} (hfield : l.field? n = none) (hskip : Format.skip v = .ok ()) :
    Takes slots d (.ok n, v) d
  | taken {n : String} {v : ν} {k : κ} {a : slots.Value k} (hfield : l.field? n = some k)
    (hfree : l.has d k = false) (hvalue : slots.value k v = .ok a) :
    Takes slots d (.ok n, v) (slots.put k a d)

theorem readMember_eq_ok_iff {m : Except ε String × ν} :
    l.readMember d m = .ok d' ↔ Takes slots d m d' := by
  constructor
  · intro h
    obtain ⟨x, v⟩ := m
    obtain ⟨n, rfl, h⟩ := bind_eq_ok_iff.mp h
    cases hfield : l.field? n with
    | none =>
      rw [hfield] at h
      obtain ⟨⟨⟩, hskip, h⟩ := bind_eq_ok_iff.mp h
      obtain rfl := Except.ok.inj h
      exact .skipped hfield hskip
    | some k =>
      simp only [hfield] at h
      split at h
      · exact nomatch h
      · rename_i hfree
        rw [slots.set_eq] at h
        obtain ⟨a, hvalue, rfl⟩ := map_eq_ok_iff.mp h
        exact .taken hfield (Bool.eq_false_iff.mpr hfree) hvalue
  · intro h
    cases h with
    | skipped hfield hskip => simp only [readMember, bind, Except.bind, hfield, hskip]; rfl
    | taken hfield hfree hvalue =>
      simp only [readMember, bind, Except.bind, hfield, hfree, slots.set_eq, hvalue]
      rfl

omit [DecidableEq κ] in
/-- A member whose field has a value already is refused, whatever its own value is. -/
theorem readMember_of_has {n : String} {k : κ} (hfield : l.field? n = some k)
    (hhas : l.has d k = true) (v : ν) :
    l.readMember d (.ok n, v) = .error (Format.repeated ν (l.canonical k)) := by
  simp only [readMember, bind, Except.bind, hfield, hhas]
  rfl

/-! ## Members in another order -/

include slots

/-- Two members that stand side by side can change places. -/
theorem Takes.swap {m m' : Except ε String × ν} {d d₁ d₂ : δ} (h : Takes slots d m d₁)
    (h' : Takes slots d₁ m' d₂) : ∃ d₁', Takes slots d m' d₁' ∧ Takes slots d₁' m d₂ := by
  cases h with
  | skipped hfield hskip => exact ⟨d₂, h', .skipped hfield hskip⟩
  | @taken n v k a hfield hfree hvalue =>
    cases h' with
    | skipped hfield' hskip' => exact ⟨d, .skipped hfield' hskip', .taken hfield hfree hvalue⟩
    | @taken n' v' k' a' hfield' hfree' hvalue' =>
      -- the second member found its field free, so it is another one
      rw [slots.has_put, Bool.or_eq_false_iff, decide_eq_false_iff_not] at hfree'
      obtain ⟨hne, hfree'⟩ := hfree'
      rw [slots.put_comm k' k a' a d hne]
      refine ⟨slots.put k' a' d, .taken hfield' hfree' hvalue', .taken hfield ?_ hvalue⟩
      rw [slots.has_put, hfree, Bool.or_false, decide_eq_false_iff_not]
      exact fun heq => hne heq.symm

/-- Members in another order are read into the same draft. The induction is on the permutation. -/
theorem readMembers_perm {ms ms' : List (Except ε String × ν)} (h : ms.Perm ms') {d d' : δ}
    (hread : ms.foldlM l.readMember d = .ok d') : ms'.foldlM l.readMember d = .ok d' := by
  induction h generalizing d with
  | nil => exact hread
  | cons m _ ih =>
    rw [List.foldlM_cons] at hread ⊢
    obtain ⟨d₁, hm, hrest⟩ := bind_eq_ok_iff.mp hread
    exact bind_eq_ok_iff.mpr ⟨d₁, hm, ih hrest⟩
  -- Two members that are both taken fill different fields.
  | swap m m' ms =>
    simp only [List.foldlM_cons] at hread ⊢
    obtain ⟨d₁, hm', hrest⟩ := bind_eq_ok_iff.mp hread
    obtain ⟨d₂, hm, hrest⟩ := bind_eq_ok_iff.mp hrest
    obtain ⟨d₁', htake, htake'⟩ := Takes.swap slots ((readMember_eq_ok_iff slots).mp hm')
      ((readMember_eq_ok_iff slots).mp hm)
    exact bind_eq_ok_iff.mpr ⟨d₁', (readMember_eq_ok_iff slots).mpr htake,
      bind_eq_ok_iff.mpr ⟨d₂, (readMember_eq_ok_iff slots).mpr htake', hrest⟩⟩
  | trans _ _ ih ih' => exact ih' (ih hread)

/-! ## Members that say the same -/

/-- A member may be replaced by one with the same effect. -/
theorem readMembers_alike {m m' : Except ε String × ν} {before after : List (Except ε String × ν)}
    (h : ∀ d d', Takes slots d m d' → Takes slots d m' d') {d d' : δ}
    (hread : (before ++ m :: after).foldlM l.readMember d = .ok d') :
    (before ++ m' :: after).foldlM l.readMember d = .ok d' := by
  simp only [List.foldlM_append, List.foldlM_cons] at hread ⊢
  obtain ⟨d₁, hbefore, hread⟩ := bind_eq_ok_iff.mp hread
  obtain ⟨d₂, hm, hafter⟩ := bind_eq_ok_iff.mp hread
  have hm' := (readMember_eq_ok_iff slots).mpr (h _ _ ((readMember_eq_ok_iff slots).mp hm))
  exact bind_eq_ok_iff.mpr ⟨d₁, hbefore, bind_eq_ok_iff.mpr ⟨d₂, hm', hafter⟩⟩

/-- A field may be called by any of its names, and its value may be spelled in any way that is read
alike. -/
theorem Takes.respell {n n' : String} {v v' : ν} {k : κ} (hn : n ∈ l.names k) (hn' : n' ∈ l.names k)
    (hv : ∀ a, slots.value k v = .ok a → slots.value k v' = .ok a) (d d' : δ)
    (h : Takes slots d (.ok n, v) d') : Takes slots d (.ok n', v') d' := by
  have hfield := slots.field?_of_mem k n hn
  cases h with
  | skipped hnone _ => exact nomatch hfield.symm.trans hnone
  | taken hsome hfree hvalue =>
    obtain rfl := Option.some.inj (hfield.symm.trans hsome)
    exact .taken (slots.field?_of_mem _ n' hn') hfree (hv _ hvalue)

/-! ## Fields that come again -/

/-- A field that has a value keeps one. -/
theorem has_of_takes {m : Except ε String × ν} {k : κ} (h : Takes slots d m d')
    (hhas : l.has d k = true) : l.has d' k = true := by
  cases h with
  | skipped _ _ => exact hhas
  | taken _ _ _ => rw [slots.has_put, hhas, Bool.or_true]

/-- After members that are read, every field among them has a value. -/
theorem has_of_readMembers {ms : List (Except ε String × ν)} {n : String} {v : ν} {k : κ}
    (hn : n ∈ l.names k) (hmem : (Except.ok n, v) ∈ ms ∨ l.has d k = true)
    (hread : ms.foldlM l.readMember d = .ok d') : l.has d' k = true := by
  induction ms generalizing d with
  | nil =>
    obtain rfl := Except.ok.inj hread
    exact hmem.resolve_left List.not_mem_nil
  | cons m ms ih =>
    rw [List.foldlM_cons] at hread
    obtain ⟨d₁, hm, hrest⟩ := bind_eq_ok_iff.mp hread
    have htakes := (readMember_eq_ok_iff slots).mp hm
    rcases hmem with hmem | hhas
    · rcases List.mem_cons.mp hmem with rfl | hmem
      · refine ih (Or.inr ?_) hrest
        -- this is the member of the field
        have hfield := slots.field?_of_mem k n hn
        cases htakes with
        | skipped hnone _ => exact nomatch hfield.symm.trans hnone
        | taken hsome _ _ =>
          obtain rfl := Option.some.inj (hfield.symm.trans hsome)
          rw [slots.has_put, decide_eq_true rfl, Bool.true_or]
      · exact ih (Or.inl hmem) hrest
    · exact ih (Or.inr (has_of_takes slots htakes hhas)) hrest

/-- A second member for a field, behind members that are read, makes them fail. -/
theorem readMembers_repeated {ms : List (Except ε String × ν)} {n n' : String} {v v' : ν} {k : κ}
    (hn : n ∈ l.names k) (hmem : (Except.ok n, v) ∈ ms) (hn' : n' ∈ l.names k)
    (hread : ms.foldlM l.readMember d = .ok d') :
    (ms ++ [(Except.ok n', v')]).foldlM l.readMember d =
      .error (Format.repeated ν (l.canonical k)) := by
  have hhas := has_of_readMembers slots hn (Or.inl hmem) hread
  rw [List.foldlM_append, hread, bind_of_eq_ok rfl, List.foldlM_cons,
    readMember_of_has (slots.field?_of_mem k n' hn') hhas v']
  rfl

/-- Where the value of a member is replaced by one that cannot be read, the members fail there. -/
theorem readMembers_spoiled {before after : List (Except ε String × ν)} {n : String} {v v' : ν} {k : κ}
    {e : ε} (hn : n ∈ l.names k)
    (hv : ∀ a, slots.value k v = .ok a → slots.value k v' = .error e)
    (hread : (before ++ (Except.ok n, v) :: after).foldlM l.readMember d = .ok d') :
    (before ++ (Except.ok n, v') :: after).foldlM l.readMember d = .error e := by
  have hfield := slots.field?_of_mem k n hn
  simp only [List.foldlM_append, List.foldlM_cons] at hread ⊢
  obtain ⟨d₁, hbefore, hread⟩ := bind_eq_ok_iff.mp hread
  obtain ⟨d₂, hm, -⟩ := bind_eq_ok_iff.mp hread
  cases (readMember_eq_ok_iff slots).mp hm with
  | skipped hnone _ => exact nomatch hfield.symm.trans hnone
  | taken hsome hfree hvalue =>
    obtain rfl := Option.some.inj (hfield.symm.trans hsome)
    have hvalue' := hv _ hvalue
    -- The member was taken, so its field is free: only its value can fail.
    have hfails : l.readMember d₁ (.ok n, v') = .error e := by
      simp only [readMember, bind, Except.bind, hfield, hfree, slots.set_eq, hvalue']
      rfl
    rw [hbefore, bind_of_eq_ok rfl, hfails]
    rfl

end DesignCompiler.Layout
