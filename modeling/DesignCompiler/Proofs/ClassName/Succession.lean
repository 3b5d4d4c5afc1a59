import DesignCompiler.Proofs.ClassName.Allocation
import Mathlib.Data.Nat.Init

/-!
# DesignCompiler — names handed out in a row

An allocator hands out one name after the other, and each call sees only what the calls before it got.
So a row of names is described by its members alone: each is the first form of its raw name that none
of those in front of it is. The search for this form has no bound of its own; it ends because there are
more forms than names in front.

* `Allocator.allocateAll` — the names for a row of calls;
* `Searches`, `FirstFree.searches` — the search, form by form, and that it ends;
* `FirstFree.exists_candidate` — it has ended when there are as many numbers as names in front;
* `allocateAll_taken`, `exists_call_of_mem` — what one allocator has handed out, by induction on the
  calls;
* `allocateAll_succession` — a row of names, from an allocator that has handed out none.
-/

namespace DesignCompiler.ClassName

/-- The names for some calls, each with a name and a fallback, and the allocator after them. -/
def Allocator.allocateAll (a : Allocator) : List (String × String) → List String × Allocator
  | [] => ([], a)
  | (name, fallback) :: calls =>
    let (ident, a) := a.allocate name fallback
    let (idents, a) := a.allocateAll calls
    (ident :: idents, a)

/-! ## The search -/

/-- The search for a free form of a name, from the form that is tried and the number that comes next. A
form that is free is found; if it is taken, the search goes on with the form of the next number. -/
inductive Searches (taken : List String) (raw : String) : String → Nat → String → Prop
  | found {tried : String} {next : Nat} (hfree : tried ∉ taken) :
      Searches taken raw tried next tried
  | step {tried s : String} {next : Nat} (htaken : tried ∈ taken)
      (hrest : Searches taken raw (raw ++ "-" ++ toString next) (next + 1) s) :
      Searches taken raw tried next s

variable {taken : List String} {raw s : String}

/-- A search has one end. -/
theorem Searches.unique {tried s' : String} {next : Nat} (h : Searches taken raw tried next s)
    (h' : Searches taken raw tried next s') : s = s' := by
  induction h with
  | found hfree =>
    cases h' with
    | found => rfl
    | step htaken _ => exact absurd htaken hfree
  | step htaken _ ih =>
    cases h' with
    | found hfree => exact absurd htaken hfree
    | step _ hrest => exact ih hrest

/-- The search ends with the first form that is free. -/
theorem FirstFree.searches (h : FirstFree taken raw s) : Searches taken raw raw 2 s := by
  cases h with
  | plain hfree => exact .found hfree
  | @numbered n hn htaken hfree hleast =>
    -- from every number up to `n`, by induction downwards, because each step raises the number
    have hfrom : ∀ m, 2 ≤ m → m ≤ n →
        Searches taken raw (raw ++ "-" ++ toString m) (m + 1) (raw ++ "-" ++ toString n) := by
      intro m hm hmn
      induction hmn using Nat.decreasingInduction with
      | self => exact .found hfree
      | of_succ k hk ih => exact .step (hleast k hm hk) (ih (by omega))
    exact .step htaken (hfrom 2 (by omega) hn)

/-- No more forms are tried than there are taken names, and one. -/
theorem FirstFree.exists_candidate (h : FirstFree taken raw s) :
    ∃ n ≤ taken.length, s = candidate raw n := by
  obtain ⟨j, hj, hjfree⟩ := exists_free taken raw
  rw [List.mem_range] at hj
  cases h with
  | plain => exact ⟨0, Nat.zero_le _, rfl⟩
  | @numbered n hn htaken hfree hleast =>
    obtain ⟨k, rfl⟩ := Nat.exists_eq_add_of_le' hn
    refine ⟨k + 1, ?_, rfl⟩
    -- the form number `j` is free, so the search has not come past it
    cases j with
    | zero => exact absurd htaken hjfree
    | succ i =>
      have hle : ¬ i + 2 < k + 2 := fun hlt => hjfree (hleast (i + 2) (by omega) hlt)
      omega

/-! ## Rows -/

/-- The row of an allocator that may have handed out names before: they are all taken. -/
theorem allocateAll_taken (a : Allocator) (calls : List (String × String)) :
    (a.allocateAll calls).2.taken = (a.allocateAll calls).1.reverse ++ a.taken ∧
      (a.allocateAll calls).1.length = calls.length ∧
      ∀ (k : Nat) (call : String × String), calls[k]? = some call →
        ∃ s, (a.allocateAll calls).1[k]? = some s ∧
          FirstFree ((a.allocateAll calls).1.take k ++ a.taken)
            (identifier call.1 call.2 a.lead) s := by
  -- the calls that follow see an allocator that has handed out one name more
  induction calls generalizing a with
  | nil => simp [Allocator.allocateAll]
  | cons call calls ih =>
    obtain ⟨name, fallback⟩ := call
    obtain ⟨htaken, hlength, hrow⟩ := ih (a.allocate name fallback).2
    have hnext : (a.allocate name fallback).2.taken =
        (a.allocate name fallback).1 :: a.taken := rfl
    simp only [Allocator.allocateAll]
    refine ⟨?_, by rw [List.length_cons, hlength, List.length_cons], fun k call hk => ?_⟩
    · rw [htaken, hnext, List.reverse_cons, List.append_assoc, List.singleton_append]
    · cases k with
      | zero =>
        obtain rfl := Option.some.inj hk
        exact ⟨_, rfl, firstFree_spec _ _⟩
      | succ k =>
        obtain ⟨s, hs, hfree⟩ := hrow k call hk
        refine ⟨s, hs, hfree.congr fun x => ?_⟩
        -- the first name of the row was taken when this one was searched for
        rw [hnext, List.take_succ_cons]
        simp only [List.mem_append, List.mem_cons]
        tauto

/-- Every name of a row is a form of what some call asks for. -/
theorem exists_call_of_mem {a : Allocator} {calls : List (String × String)}
    (h : s ∈ (a.allocateAll calls).1) :
    ∃ call ∈ calls, ∃ n, s = candidate (identifier call.1 call.2 a.lead) n := by
  obtain ⟨-, hlength, hrow⟩ := allocateAll_taken a calls
  obtain ⟨k, hk, rfl⟩ := List.mem_iff_getElem.mp h
  have hcall : k < calls.length := hlength ▸ hk
  obtain ⟨s, hs, hfree⟩ := hrow k _ (List.getElem?_eq_getElem hcall)
  obtain rfl := Option.some.inj ((List.getElem?_eq_getElem hk).symm.trans hs)
  obtain ⟨n, -, hn⟩ := hfree.exists_candidate
  exact ⟨calls[k], List.getElem_mem hcall, n, hn⟩

/-- A name that was handed out for a raw name, after some others. -/
structure HandedOut (earlier : List String) (raw s : String) : Prop where
  firstFree : FirstFree earlier raw s
  /-- The search ends, and with nothing else. -/
  search : ∀ r, Searches earlier raw raw 2 r ↔ r = s
  /-- No number is tried that is larger than that of the call. -/
  bound : ∃ n ≤ earlier.length, s = candidate raw n

theorem FirstFree.handedOut (h : FirstFree taken raw s) : HandedOut taken raw s where
  firstFree := h
  search _ := ⟨fun hr => hr.unique h.searches, fun hr => hr ▸ h.searches⟩
  bound := h.exists_candidate

/-- Names that are handed out in a row for some raw names. -/
structure Succession (raws idents : List String) : Prop where
  length : idents.length = raws.length
  members : ∀ (k : Nat) (raw : String), raws[k]? = some raw →
    ∃ s, idents[k]? = some s ∧ HandedOut (idents.take k) raw s
  distinct : idents.Nodup

/--
**Names handed out in a row.** Whatever the prefix and the calls are, every call gets the raw name that it
asks for if no call before it got this, and else this name with the smallest number from two on that no
call before it got. The search for it ends, all names are different, and their number is that of the
calls.
-/
theorem allocateAll_succession (lead : Option String) (calls : List (String × String)) :
    Succession (calls.map fun call => identifier call.1 call.2 lead)
        (({ lead } : Allocator).allocateAll calls).1 ∧
      (({ lead } : Allocator).allocateAll calls).2.size = calls.length := by
  obtain ⟨htaken, hlength, hrow⟩ := allocateAll_taken { lead } calls
  rw [List.append_nil] at htaken
  have hmembers : ∀ (k : Nat) (raw : String),
      (calls.map fun call => identifier call.1 call.2 lead)[k]? = some raw →
      ∃ s, (({ lead } : Allocator).allocateAll calls).1[k]? = some s ∧
        HandedOut ((({ lead } : Allocator).allocateAll calls).1.take k) raw s := by
    intro k raw hk
    rw [List.getElem?_map, Option.map_eq_some_iff] at hk
    obtain ⟨call, hcall, rfl⟩ := hk
    obtain ⟨s, hs, hfree⟩ := hrow k call hcall
    rw [List.append_nil] at hfree
    exact ⟨s, hs, hfree.handedOut⟩
  refine ⟨⟨by rw [hlength, List.length_map], hmembers, ?_⟩, ?_⟩
  · -- the later of two names was free when the earlier one was taken
    rw [List.Nodup, List.pairwise_iff_getElem]
    intro i j hi hj hij heq
    have hcall : j < (calls.map fun call => identifier call.1 call.2 lead).length := by
      rw [List.length_map]
      exact hlength ▸ hj
    obtain ⟨s, hs, hout⟩ := hmembers j _ (List.getElem?_eq_getElem hcall)
    obtain rfl := Option.some.inj ((List.getElem?_eq_getElem hj).symm.trans hs)
    refine hout.firstFree.notMem (List.mem_take_iff_getElem.mpr ⟨i, by omega, heq⟩)
  · rw [Allocator.size, htaken, List.length_reverse, hlength]

-- A literal number takes the place of one that would be given out later.
example : (({ lead := none } : Allocator).allocateAll
    [("Box 2", ""), ("Box", ""), ("Box", "")]).1 = ["box-2", "box", "box-3"] := by decide +kernel

end DesignCompiler.ClassName
