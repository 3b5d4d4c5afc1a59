import DesignCompiler.ClassName.Allocator
import DesignCompiler.Proofs.Text.Digits
import DesignCompiler.Proofs.Text.Words
import Mathlib.Data.List.Perm.Subperm
import Std.Data.String.ToNat

/-!
# DesignCompiler — the classes that are handed out

A class name is made of ASCII letters and digits, dashes and underscores only, whatever the name of
the component and the prefix are. It is also never one that was handed out before: the forms of a
name are all different, so one more of them than there are taken names cannot all be taken.

* `isClassName` — the texts that class names are;
* `FirstFree`, `firstFree_spec` — the first form that is free is found;
* `allocate_isClassName`, `allocate_notMem` — what the allocator hands out.
-/

namespace DesignCompiler.ClassName

/-! ## Characters -/

/-- A text of characters that a class name can have. -/
def isClassName (s : String) : Prop :=
  ∀ c ∈ s.toList, isPrefixChar c

theorem isPrefixChar_of_slugChar {c : Char} (h : isSlugChar c = true) : isPrefixChar c = true := by
  have halphanum : c.isAlphanum = (c.isUpper || c.isLower || c.isDigit) := rfl
  simp only [isSlugChar, isPrefixChar, halphanum, Bool.or_eq_true] at *
  grind

theorem mem_slug {name : String} {c : Char} (h : c ∈ (slug name).toList) :
    isSlugChar c = true ∨ c = '-' := by
  rw [slug, String.toList_ofList] at h
  rcases Text.mem_intercalate h with hc | ⟨w, hw, hc⟩
  · exact Or.inr (List.mem_singleton.mp hc)
  · exact Or.inl (Text.mem_of_mem_words hw hc)

theorem mem_foldRuns {p : Char → Bool} {inRun : Bool} {cs : List Char} {c : Char}
    (h : c ∈ Text.foldRuns p inRun cs) : p c = true ∨ c = '-' := by
  induction cs generalizing inRun with
  | nil => simp [Text.foldRuns] at h
  | cons d ds ih =>
    rw [Text.foldRuns] at h
    split at h
    · rename_i hd
      rcases List.mem_cons.mp h with rfl | h
      · exact Or.inl hd
      · exact ih h
    · split at h
      · exact ih h
      · rcases List.mem_cons.mp h with rfl | h
        · exact Or.inr rfl
        · exact ih h

theorem mem_of_mem_trimBy {α : Type} {p : α → Bool} {xs : List α} {x : α}
    (h : x ∈ Text.trimBy p xs) : x ∈ xs := by
  rw [Text.trimBy, Text.dropEndWhile, List.mem_reverse] at h
  have hrev := List.mem_reverse.mp ((List.dropWhile_sublist p).mem h)
  exact (List.dropWhile_sublist p).mem hrev

theorem mem_cleanPrefix {lead : String} {cs : List Char} (h : cleanPrefix lead = some cs) {c : Char}
    (hc : c ∈ cs) : isPrefixChar c = true := by
  rw [cleanPrefix] at h
  split at h
  · exact nomatch h
  · rw [Option.some.injEq] at h
    rcases mem_foldRuns (mem_of_mem_trimBy (h ▸ hc)) with hp | rfl
    · exact hp
    · decide

theorem mem_guardDigit {cs : List Char} {c : Char} (h : c ∈ guardDigit cs) :
    c ∈ cs ∨ c = 'c' ∨ c = '-' := by
  cases cs with
  | nil => simp [guardDigit] at h
  | cons d ds =>
    rw [guardDigit] at h
    split at h
    · rw [List.mem_cons, List.mem_cons] at h
      rcases h with rfl | rfl | h
      · exact Or.inr (Or.inl rfl)
      · exact Or.inr (Or.inr rfl)
      · exact Or.inl h
    · exact Or.inl h

theorem mem_baseSlug {name fallback : String} {c : Char} (h : c ∈ baseSlug name fallback) :
    isSlugChar c = true ∨ c = '-' := by
  rw [baseSlug] at h
  split at h
  · exact mem_slug h
  · exact mem_slug h

theorem isPrefixChar_of_mem_baseSlug {name fallback : String} {c : Char}
    (h : c ∈ baseSlug name fallback) : isPrefixChar c = true := by
  rcases mem_baseSlug h with hc | rfl
  · exact isPrefixChar_of_slugChar hc
  · decide

theorem identifier_isClassName (name fallback : String) (lead : Option String) :
    isClassName (identifier name fallback lead) := by
  intro c hc
  rw [identifier, String.toList_ofList] at hc
  rcases mem_guardDigit hc with hc | rfl | rfl
  · -- without a prefix, or behind one
    split at hc
    · exact isPrefixChar_of_mem_baseSlug hc
    · rename_i p hp
      obtain ⟨l, -, hl⟩ := Option.bind_eq_some_iff.mp hp
      rw [List.mem_append, List.mem_cons] at hc
      rcases hc with hc | rfl | hc
      · exact mem_cleanPrefix hl hc
      · decide
      · exact isPrefixChar_of_mem_baseSlug hc
  · decide
  · decide

/-! ## Forms of a name -/

theorem toList_candidate_succ (raw : String) (n : Nat) :
    (candidate raw (n + 1)).toList = raw.toList ++ '-' :: (Nat.repr (n + 2)).toList := by
  simp [candidate, String.toList_append]

theorem mem_candidate {raw : String} {n : Nat} {c : Char} (h : c ∈ (candidate raw n).toList) :
    c ∈ raw.toList ∨ c = '-' ∨ c.isDigit = true := by
  cases n with
  | zero => exact Or.inl h
  | succ n =>
    rw [toList_candidate_succ, List.mem_append, List.mem_cons, Nat.toList_repr] at h
    exact h.imp_right fun h => h.imp_right isDigit_of_mem_toDigits

theorem candidate_isClassName {raw : String} (h : isClassName raw) (n : Nat) :
    isClassName (candidate raw n) := by
  intro c hc
  rcases mem_candidate hc with hc | rfl | hdigit
  · exact h c hc
  · decide
  · exact isPrefixChar_of_slugChar (by simp [isSlugChar, hdigit])

/-- The forms of a name are all different. -/
theorem candidate_inj {raw : String} {m n : Nat} (h : candidate raw m = candidate raw n) :
    m = n := by
  have hl := congrArg String.toList h
  cases m with
  | zero =>
    cases n with
    | zero => rfl
    | succ n =>
      -- a number makes the name longer
      rw [toList_candidate_succ] at hl
      have := congrArg List.length hl
      simp [candidate] at this
  | succ m =>
    cases n with
    | zero =>
      rw [toList_candidate_succ] at hl
      have := congrArg List.length hl
      simp [candidate] at this
    | succ n =>
      -- behind the name and the dash stand the numbers
      rw [toList_candidate_succ, toList_candidate_succ, List.append_cancel_left_eq,
        List.cons.injEq, String.toList_inj, Nat.repr_inj] at hl
      omega

/-! ## Free forms -/

/-- A name, or the name with the smallest number from two on: the first form that is not taken. -/
inductive FirstFree (taken : List String) (raw : String) : String → Prop where
  | plain (hfree : raw ∉ taken) : FirstFree taken raw raw
  | numbered {n : Nat} (hn : 2 ≤ n) (htaken : raw ∈ taken)
      (hfree : raw ++ "-" ++ toString n ∉ taken)
      (hleast : ∀ m, 2 ≤ m → m < n → raw ++ "-" ++ toString m ∈ taken) :
      FirstFree taken raw (raw ++ "-" ++ toString n)

/-- Some form of a name is free, because there are more forms to try than taken names. -/
theorem exists_free (taken : List String) (raw : String) :
    ∃ n ∈ List.range (taken.length + 1), candidate raw n ∉ taken := by
  by_contra hnone
  have hsub : (List.range (taken.length + 1)).map (candidate raw) ⊆ taken := by
    intro s hs
    obtain ⟨n, hn, rfl⟩ := List.mem_map.mp hs
    exact not_not.mp fun hfree => hnone ⟨n, hn, hfree⟩
  have hnodup : ((List.range (taken.length + 1)).map (candidate raw)).Nodup :=
    List.pairwise_map.mpr (List.nodup_range.imp fun hmn h => hmn (candidate_inj h))
  have hle := (hnodup.subperm hsub).length_le
  rw [List.length_map, List.length_range] at hle
  omega

/-- The form that is handed out is free, and all forms before it are taken. -/
theorem exists_firstFree (taken : List String) (raw : String) :
    ∃ n, firstFree taken raw = candidate raw n ∧ candidate raw n ∉ taken ∧
      ∀ m < n, candidate raw m ∈ taken := by
  rw [firstFree]
  split
  · rename_i n hn
    obtain ⟨hfree, -, hbefore⟩ := List.find?_range_eq_some.mp hn
    refine ⟨n, rfl, by simpa using hfree, fun m hm => ?_⟩
    simpa using hbefore m hm
  · rename_i hnone
    obtain ⟨n, hn, hfree⟩ := exists_free taken raw
    exact absurd (List.find?_eq_none.mp hnone n hn) (by simpa using hfree)

theorem firstFree_spec (taken : List String) (raw : String) :
    FirstFree taken raw (firstFree taken raw) := by
  obtain ⟨n, hn, hfree, hbefore⟩ := exists_firstFree taken raw
  rw [hn]
  cases n with
  | zero => exact .plain hfree
  | succ n =>
    refine .numbered (by omega) (hbefore 0 (by omega)) hfree fun m hm hlt => ?_
    -- the form with the number `m` is tried as number `m - 1`
    obtain ⟨k, rfl⟩ := Nat.exists_eq_add_of_le' hm
    exact hbefore (k + 1) (by omega)

theorem firstFree_nil (raw : String) : firstFree [] raw = raw := by
  have h := firstFree_spec [] raw
  generalize firstFree [] raw = s at h
  cases h with
  | plain => rfl
  | numbered _ htaken => exact absurd htaken List.not_mem_nil

/-- Only which names are taken counts, not the order in which they were. -/
theorem FirstFree.congr {taken taken' : List String} {raw s : String} (h : FirstFree taken raw s)
    (hmem : ∀ x, x ∈ taken ↔ x ∈ taken') : FirstFree taken' raw s := by
  cases h with
  | plain hfree => exact .plain (mt (hmem _).mpr hfree)
  | numbered hn htaken hfree hleast =>
    exact .numbered hn ((hmem _).mp htaken) (mt (hmem _).mpr hfree)
      fun m hm hlt => (hmem _).mp (hleast m hm hlt)

theorem FirstFree.notMem {taken : List String} {raw s : String} (h : FirstFree taken raw s) :
    s ∉ taken := by
  cases h with
  | plain hfree => exact hfree
  | numbered _ _ hfree _ => exact hfree

theorem firstFree_notMem (taken : List String) (raw : String) : firstFree taken raw ∉ taken :=
  (firstFree_spec taken raw).notMem

theorem allocate_isClassName (a : Allocator) (name fallback : String) :
    isClassName (a.allocate name fallback).1 := by
  obtain ⟨n, hn, -⟩ := exists_firstFree a.taken (identifier name fallback a.lead)
  rw [Allocator.allocate, hn]
  exact candidate_isClassName (identifier_isClassName name fallback a.lead) n

theorem allocate_notMem (a : Allocator) (name fallback : String) :
    (a.allocate name fallback).1 ∉ a.taken :=
  firstFree_notMem _ _

end DesignCompiler.ClassName
