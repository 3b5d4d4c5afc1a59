import DesignCompiler.Proofs.Yaml.Words
import Mathlib.Data.List.TakeWhile
import Mathlib.Tactic.SplitIfs

/-!
# DesignCompiler — what a token adds

A step of the scanner puts one token behind the others. In front of tokens that are there it may put
only such as are no texts, and none in front of those before the oldest possible key. So the first
text behind some tokens is the one that is read there, or none.

* `Marked` — tokens with further ones among them that are no texts;
* `Scanner.Reads` — the texts that can be read at a place;
* `Scanner.takeToken_takes` — one step;
* `Scanner.takeTokens_first` — all steps.
-/

namespace DesignCompiler.Yaml

variable {n : Nat} {t : Token} {ts ts' earlier later lead : List Token}

/-! ## Tokens -/

def Token.isScalar : Token → Bool
  | .scalar _ _ => true
  | _ => false

/-- `ts'` comes from `ts` by adding tokens that are no texts, none of them before the first `n`. The
latest tokens come first. -/
inductive Marked (n : Nat) (ts : List Token) : List Token → Prop where
  | refl : Marked n ts ts
  | insert {later earlier : List Token} (h : Marked n ts (later ++ earlier))
    (hn : n ≤ earlier.length) {t : Token} (ht : t.isScalar = false) :
    Marked n ts (later ++ t :: earlier)

namespace Marked

theorem trans {ts'' : List Token} (h : Marked n ts ts') (h' : Marked n ts' ts'') :
    Marked n ts ts'' := by
  induction h' with
  | refl => exact h
  | insert _ hn ht ih => exact .insert ih hn ht

theorem length_le (h : Marked n ts ts') : ts.length ≤ ts'.length := by
  induction h with
  | refl => exact Nat.le_refl _
  | insert _ _ _ ih =>
    simp only [List.length_append, List.length_cons] at ih ⊢
    omega

theorem cons (h : Marked n ts ts') (hn : n ≤ ts'.length) (ht : t.isScalar = false) :
    Marked n ts (t :: ts') := by
  rw [← List.nil_append (t :: ts')]
  exact .insert h hn ht

end Marked

/-- The first token behind others, if there is one, has a property. -/
def Opens (lead : List Token) (P : Token → Prop) (ts : List Token) : Prop :=
  ∃ later, ts = later ++ lead ∧ ∀ t ∈ later.getLast?, P t

namespace Opens

variable {P : Token → Prop}

theorem cons (h : Opens lead P ts) (ht : lead.length < ts.length ∨ P t) : Opens lead P (t :: ts) := by
  obtain ⟨later, rfl, hlast⟩ := h
  refine ⟨t :: later, rfl, ?_⟩
  cases later with
  | nil =>
    rintro u ⟨⟩
    exact ht.resolve_left (by simp)
  | cons u later => rwa [List.getLast?_cons_cons]

theorem marked (hP : ∀ t, t.isScalar = false → P t) (h : Opens lead P ts)
    (hmarked : Marked lead.length ts ts') : Opens lead P ts' := by
  induction hmarked with
  | refl => exact h
  | @insert later earlier _ hn t ht ih =>
    obtain ⟨between, heq, hlast⟩ := ih
    -- what is earlier has the first tokens at its end
    obtain ⟨more, rfl, rfl⟩ : ∃ more, earlier = more ++ lead ∧ between = later ++ more := by
      rcases List.append_eq_append_iff.mp heq with ⟨more, hmore, hearlier⟩ | ⟨more, hmore, hlead⟩
      · exact ⟨more, hearlier, hmore⟩
      · obtain rfl : more = [] := by
          rw [hlead, List.length_append] at hn
          exact List.length_eq_zero_iff.mp (by omega)
        exact ⟨[], by simpa using hlead.symm, by simpa using hmore.symm⟩
    refine ⟨later ++ t :: more, by simp, fun u hu => ?_⟩
    rw [List.getLast?_append_of_ne_nil _ (List.cons_ne_nil t more)] at hu
    cases more with
    | nil =>
      obtain rfl : t = u := by simpa using hu
      exact hP t ht
    | cons v more =>
      rw [List.getLast?_cons_cons] at hu
      refine hlast u ?_
      rwa [List.getLast?_append_of_ne_nil _ (List.cons_ne_nil v more)]

end Opens

/-! ## Steps -/

namespace Scanner

variable {s s' s₁ : Scanner}

/-- No possible key stands before the first `n` tokens. -/
structure KeysFrom (n : Nat) (s : Scanner) : Prop where
  tokens : n ≤ s.tokens.length
  possible : ∀ k ∈ s.possible, n ≤ k.position
  outer : ∀ o ∈ s.outerKeys, ∀ k ∈ o, n ≤ k.position

/-- A token behind all others stands before no possible key. -/
theorem KeysFrom.push (h : s.KeysFrom n) (htokens : s'.tokens = t :: s.tokens)
    (hpossible : s'.possible = s.possible) (houter : s'.outerKeys = s.outerKeys) :
    s'.KeysFrom n := by
  refine ⟨?_, hpossible ▸ h.possible, houter ▸ h.outer⟩
  rw [htokens]
  exact Nat.le_succ_of_le h.tokens

/-- Tokens that are no texts are added. -/
structure Adds (n : Nat) (s s' : Scanner) : Prop where
  keys : s'.KeysFrom n
  marked : Marked n s.tokens s'.tokens

theorem Adds.trans {s'' : Scanner} (h : Adds n s s') (h' : Adds n s' s'') : Adds n s s'' :=
  ⟨h'.keys, h.marked.trans h'.marked⟩

section Keys

variable (h : s.KeysFrom n)

include h

theorem KeysFrom.insertAt {position : Nat} (hposition : n ≤ position) (ht : t.isScalar = false) :
    Adds n s (s.insertAt position t) := by
  have hn := h.tokens
  have hsplit : Marked n s.tokens (s.tokens.take (s.tokens.length - position) ++
      s.tokens.drop (s.tokens.length - position)) := by
    rw [List.take_append_drop]
    exact .refl
  refine ⟨⟨?_, h.possible, h.outer⟩, hsplit.insert ?_ ht⟩
  · simp only [Scanner.insertAt, List.length_append, List.length_take, List.length_cons,
      List.length_drop]
    omega
  · rw [List.length_drop]
    omega

theorem KeysFrom.closeBlocks (column : Int) (outer : List Int) :
    Adds n s (s.closeBlocks column outer) := by
  induction outer generalizing s with
  | nil => exact ⟨h, .refl⟩
  | cons i is ih =>
    rw [Scanner.closeBlocks]
    split
    · have hemit : Adds n s { s.emit .blockEnd with indent := i, outerIndents := is } :=
        ⟨h.push rfl rfl rfl, Marked.refl.cons h.tokens rfl⟩
      exact hemit.trans (ih hemit.keys)
    · exact ⟨h, .refl⟩

theorem KeysFrom.unroll (column : Int) : Adds n s (s.unroll column) := by
  rw [Scanner.unroll]
  split
  · exact ⟨h, .refl⟩
  · exact h.closeBlocks column _

theorem KeysFrom.roll {column position : Nat} (hposition : n ≤ position)
    (ht : t.isScalar = false) : Adds n s (s.roll column position t) := by
  rw [Scanner.roll]
  split
  · have hinsert := h.insertAt hposition ht
    exact ⟨⟨hinsert.keys.tokens, h.possible, h.outer⟩, hinsert.marked⟩
  · exact ⟨h, .refl⟩

end Keys

/-- A possible key is given up. -/
theorem dropKey_eq_some (h : s.dropKey = some s') : s' = { s with possible := none } := by
  obtain ⟨cursor, tokens, indent, outerIndents, possible, outerKeys, keyAllowed⟩ := s
  cases possible with
  | none => exact (Option.some.inj h).symm
  | some k =>
    simp only [dropKey] at h
    split at h
    · cases h
    · exact (Option.some.inj h).symm

theorem KeysFrom.dropKey (h : s.KeysFrom n) (hs : s.dropKey = some s') : Adds n s s' := by
  obtain rfl := dropKey_eq_some hs
  exact ⟨⟨h.tokens, nofun, h.outer⟩, .refl⟩

/-- A possible key is the next token. -/
theorem noteKey_eq_some (h : s.noteKey = some s') :
    ∃ k, s' = { s with possible := k } ∧
      (k = s.possible ∨ ∀ k' ∈ k, k'.position = s.tokens.length) := by
  rw [noteKey] at h
  split at h
  · obtain ⟨s₁, hs₁, h⟩ := Option.bind_eq_some_iff.mp h
    obtain rfl := dropKey_eq_some hs₁
    obtain rfl := Option.some.inj h
    refine ⟨_, rfl, Or.inr ?_⟩
    rintro k ⟨⟩
    rfl
  · exact ⟨s.possible, (Option.some.inj h).symm, Or.inl rfl⟩

theorem KeysFrom.noteKey (h : s.KeysFrom n) (hs : s.noteKey = some s') : Adds n s s' := by
  obtain ⟨k, rfl, hk⟩ := noteKey_eq_some hs
  refine ⟨⟨h.tokens, ?_, h.outer⟩, .refl⟩
  rcases hk with rfl | hk
  · exact h.possible
  · exact fun k' hk' => (hk k' hk').symm ▸ h.tokens

/-! ## One token -/

/-- A text can be read at the place. -/
inductive Reads (s : Scanner) : (text : String) → (plain : Bool) → Prop where
  | quoted (double : Bool) {limit : Nat} {rest text : List Char} {next : Cursor}
    (hrest : s.cursor.rest = (if double then '"' else '\'') :: rest)
    (htext : takeQuoted double limit (s.cursor.skip 1) = some (text, next)) :
    Reads s (String.ofList text) false
  | plain {limit : Nat} {x : Char} {rest : List Char} {p : Plain} (hrest : s.cursor.rest = x :: rest)
    (hdash : ¬ (x = '-' ∧ endsWord rest = true)) (hbegins : beginsPlain s.inFlow (x :: rest) = true)
    (htext : takePlain s.inFlow (s.indent + 1).toNat limit {} s.cursor = some p) :
    Reads s (String.ofList p.text) true

/-- One token is added behind all others; if it is a text, it is one that can be read there. -/
structure Takes (n : Nat) (s s' : Scanner) : Prop where
  keys : s'.KeysFrom n
  token : ∃ t ts, s'.tokens = t :: ts ∧ Marked n s.tokens ts ∧
    ∀ text plain, t = .scalar text plain → s.Reads text plain

theorem Takes.of_adds (h : Adds n s s₁) (hkeys : s'.KeysFrom n) (htokens : s'.tokens = t :: s₁.tokens)
    (ht : t.isScalar = false) : Takes n s s' := by
  refine ⟨hkeys, t, s₁.tokens, htokens, h.marked, ?_⟩
  rintro text plain rfl
  cases ht

/-- The key that a colon ends is the possible one. -/
theorem currentKey_eq_some {k : PossibleKey} (h : s.currentKey = some (some k)) :
    s.possible = some k := by
  rw [currentKey] at h
  split at h
  · cases h
  · rename_i k' hk'
    split_ifs at h
    · rw [hk', Option.some.inj h]
    · cases h

theorem of_ite_eq_some {p Q : Prop} [Decidable p] {x y : Option Scanner}
    (h : (if p then x else y) = some s') (hx : p → x = some s' → Q) (hy : ¬ p → y = some s' → Q) :
    Q := by
  split at h
  · exact hx ‹_› h
  · exact hy ‹_› h

section Takes

variable (h : s.KeysFrom n)

include h

theorem takes_of_openFlow (ht : t.isScalar = false) (hs : s.openFlow t = some s') : Takes n s s' := by
  obtain ⟨s₁, hs₁, hs⟩ := Option.bind_eq_some_iff.mp hs
  obtain rfl := Option.some.inj hs
  have hnote := h.noteKey hs₁
  refine .of_adds hnote ⟨Nat.le_succ_of_le hnote.keys.tokens, nofun, ?_⟩ rfl ht
  exact List.forall_mem_cons.mpr ⟨hnote.keys.possible, hnote.keys.outer⟩

theorem takes_of_closeFlow (ht : t.isScalar = false) (hs : s.closeFlow t = some s') :
    Takes n s s' := by
  obtain ⟨s₁, hs₁, hs⟩ := Option.bind_eq_some_iff.mp hs
  have hdrop := h.dropKey hs₁
  dsimp only at hs
  split at hs
  · obtain rfl := Option.some.inj hs
    exact .of_adds hdrop (hdrop.keys.push rfl rfl rfl) rfl ht
  · rename_i k ks hkeys
    obtain rfl := Option.some.inj hs
    obtain ⟨hk, hks⟩ := List.forall_mem_cons.mp (hkeys ▸ hdrop.keys.outer : ∀ o ∈ k :: ks, _)
    exact .of_adds hdrop ⟨Nat.le_succ_of_le hdrop.keys.tokens, hk, hks⟩ rfl ht

theorem takes_of_takeFlowEntry (hs : s.takeFlowEntry = some s') : Takes n s s' := by
  obtain ⟨s₁, hs₁, hs⟩ := Option.bind_eq_some_iff.mp hs
  obtain rfl := Option.some.inj hs
  have hdrop := h.dropKey hs₁
  exact .of_adds hdrop (hdrop.keys.push rfl rfl rfl) rfl rfl

/-- A block begins here, no key is possible, and a token follows. -/
theorem takes_of_rollHere {start : Token} (hstart : start.isScalar = false)
    (hs₁ : (s.rollHere start).dropKey = some s₁) (ht : t.isScalar = false) (allowed : Bool) :
    Takes n s { (s₁.skip 1).emit t with keyAllowed := allowed } := by
  have hroll : Adds n s (s.rollHere start) := h.roll h.tokens hstart
  have hdrop := hroll.trans (hroll.keys.dropKey hs₁)
  exact .of_adds hdrop (hdrop.keys.push rfl rfl rfl) rfl ht

theorem takes_of_takeBlockEntry (hs : s.takeBlockEntry = some s') : Takes n s s' := by
  rw [takeBlockEntry] at hs
  split at hs
  · cases hs
  · obtain ⟨s₁, hs₁, hs⟩ := Option.bind_eq_some_iff.mp hs
    obtain rfl := Option.some.inj hs
    exact takes_of_rollHere h rfl hs₁ rfl true

theorem takes_of_takeKey (hs : s.takeKey = some s') : Takes n s s' := by
  rw [takeKey] at hs
  split at hs
  · cases hs
  · obtain ⟨s₁, hs₁, hs⟩ := Option.bind_eq_some_iff.mp hs
    obtain rfl := Option.some.inj hs
    exact takes_of_rollHere h rfl hs₁ rfl _

theorem takes_of_takeValue (hs : s.takeValue = some s') : Takes n s s' := by
  obtain ⟨k, hk, hs⟩ := Option.bind_eq_some_iff.mp hs
  cases k with
  | none =>
    dsimp only at hs
    split at hs
    · cases hs
    · obtain rfl := Option.some.inj hs
      have hroll : Adds n s (s.rollHere .blockMappingStart) := h.roll h.tokens rfl
      exact .of_adds hroll ⟨Nat.le_succ_of_le hroll.keys.tokens, nofun, hroll.keys.outer⟩ rfl rfl
  | some k =>
    obtain rfl := Option.some.inj hs
    -- The mark goes in front of the key, which stands behind the first tokens.
    have hposition : n ≤ k.position := h.possible k (currentKey_eq_some hk)
    have hkey : Adds n s (s.insertAt k.position .key) := h.insertAt hposition rfl
    have hroll : Adds n s
        ((s.insertAt k.position .key).roll k.column k.position .blockMappingStart) :=
      hkey.trans (hkey.keys.roll hposition rfl)
    exact .of_adds hroll ⟨Nat.le_succ_of_le hroll.keys.tokens, nofun, hroll.keys.outer⟩ rfl rfl

theorem takes_of_takeDelimiter (ht : t.isScalar = false) (hs : s.takeDelimiter t = some s') :
    Takes n s s' := by
  obtain ⟨s₁, hs₁, hs⟩ := Option.bind_eq_some_iff.mp hs
  obtain rfl := Option.some.inj hs
  have hunroll := h.unroll (-1)
  have hdrop := hunroll.trans (hunroll.keys.dropKey hs₁)
  exact .of_adds hdrop (hdrop.keys.push rfl rfl rfl) rfl ht

theorem takes_of_takeQuotedScalar {double : Bool} {rest : List Char}
    (hrest : s.cursor.rest = (if double then '"' else '\'') :: rest)
    (hs : s.takeQuotedScalar double = some s') : Takes n s s' := by
  obtain ⟨s₁, hs₁, hs⟩ := Option.bind_eq_some_iff.mp hs
  obtain ⟨⟨text, next⟩, htext, hs⟩ := Option.bind_eq_some_iff.mp hs
  obtain rfl := Option.some.inj hs
  have hnote := h.noteKey hs₁
  refine ⟨hnote.keys.push rfl rfl rfl, _, s₁.tokens, rfl, hnote.marked, ?_⟩
  rintro _ _ ⟨⟩
  obtain ⟨k, rfl, -⟩ := noteKey_eq_some hs₁
  exact .quoted double hrest htext

theorem takes_of_takePlainScalar {x : Char} {rest : List Char} (hrest : s.cursor.rest = x :: rest)
    (hdash : ¬ (x = '-' ∧ endsWord rest = true)) (hbegins : beginsPlain s.inFlow (x :: rest) = true)
    (hs : s.takePlainScalar = some s') : Takes n s s' := by
  obtain ⟨s₁, hs₁, hs⟩ := Option.bind_eq_some_iff.mp hs
  obtain ⟨p, htext, hs⟩ := Option.bind_eq_some_iff.mp hs
  obtain rfl := Option.some.inj hs
  have hnote := h.noteKey hs₁
  refine ⟨hnote.keys.push rfl rfl rfl, _, s₁.tokens, rfl, hnote.marked, ?_⟩
  rintro _ _ ⟨⟩
  obtain ⟨k, rfl, -⟩ := noteKey_eq_some hs₁
  exact .plain hrest hdash hbegins htext

/-- One token is taken. -/
theorem takeToken_takes (hs : s.takeToken = some s') : Takes n s s' := by
  rw [takeToken] at hs
  refine of_ite_eq_some hs (fun _ => takes_of_takeDelimiter h (by split <;> rfl)) fun _ hs => ?_
  cases hrest : s.cursor.rest with
  | nil =>
    rw [hrest] at hs
    cases hs
  | cons x rest =>
    rw [hrest] at hs
    refine of_ite_eq_some hs nofun fun _ hs => ?_
    refine of_ite_eq_some hs (fun _ => takes_of_openFlow h rfl) fun _ hs => ?_
    refine of_ite_eq_some hs (fun _ => takes_of_openFlow h rfl) fun _ hs => ?_
    refine of_ite_eq_some hs (fun _ => takes_of_closeFlow h rfl) fun _ hs => ?_
    refine of_ite_eq_some hs (fun _ => takes_of_closeFlow h rfl) fun _ hs => ?_
    refine of_ite_eq_some hs (fun _ => takes_of_takeFlowEntry h) fun _ hs => ?_
    refine of_ite_eq_some hs (fun _ => takes_of_takeBlockEntry h) fun hentry hs => ?_
    refine of_ite_eq_some hs (fun _ => takes_of_takeKey h) fun _ hs => ?_
    refine of_ite_eq_some hs (fun _ => takes_of_takeValue h) fun _ hs => ?_
    refine of_ite_eq_some hs (fun hx => ?_) fun _ hs => ?_
    · exact takes_of_takeQuotedScalar h (by rw [hrest, hx]; rfl)
    refine of_ite_eq_some hs (fun hx => ?_) fun _ hs => ?_
    · exact takes_of_takeQuotedScalar h (by rw [hrest, hx]; rfl)
    refine of_ite_eq_some hs (fun hbegins => ?_) nofun
    exact takes_of_takePlainScalar h hrest (by simpa using hentry) hbegins

end Takes

/-! ## All tokens -/

/-- Blanks and comments change only the place, and whether a key may begin there. -/
theorem toNext_eq (limit : Nat) (s : Scanner) :
    ∃ c allowed, s.toNext limit = { s with cursor := c, keyAllowed := allowed } := by
  induction limit generalizing s with
  | zero => exact ⟨s.cursor, s.keyAllowed, rfl⟩
  | succ limit ih =>
    rw [toNext]
    split
    · exact ⟨s.cursor, s.keyAllowed, rfl⟩
    · split_ifs
      · exact ih (s.skip 1)
      · exact ih (s.skip _)
      · exact ih { s with cursor := s.cursor.skipBreak, keyAllowed := s.keyAllowed || !s.inFlow }
      · exact ⟨s.cursor, s.keyAllowed, rfl⟩

theorem KeysFrom.toNext (h : s.KeysFrom n) (limit : Nat) : Adds n s (s.toNext limit) := by
  obtain ⟨c, allowed, hnext⟩ := toNext_eq limit s
  rw [hnext]
  exact ⟨⟨h.tokens, h.possible, h.outer⟩, .refl⟩

/-- Gaps end before a character that is none. -/
theorem not_prefix_gap {mid raw : List Char} {x : Char} (hx : isGap x = false)
    (hraw : ∀ y ∈ raw, isGap y = true) : ¬ mid ++ [x] <+: raw := by
  intro hpre
  cases hx.symm.trans (hraw x (hpre.subset (by simp)))

/-- A comment does not reach over the end of its line. -/
theorem not_prefix_comment {mid rest : List Char} {b x : Char} (hb : isBreak b = true)
    (hmem : b ∈ mid) : ¬ mid ++ [x] <+: '#' :: rest.takeWhile (!isBreak ·) := by
  intro hpre
  rcases List.mem_cons.mp (hpre.subset (List.mem_append_left [x] hmem)) with rfl | hmem
  · cases hb
  · have hpass := List.mem_takeWhile_imp hmem
    simp [hb] at hpass

/-- Past a comment. -/
theorem rest_skip_comment {c : Cursor} {rest : List Char} (h : c.rest = '#' :: rest) :
    c.rest = '#' :: rest.takeWhile (!isBreak ·) ++
      (c.skip (1 + (rest.takeWhile (!isBreak ·)).length)).rest := by
  obtain ⟨after, hafter⟩ : rest.takeWhile (!isBreak ·) <+: rest := List.takeWhile_prefix _
  have hrest : c.rest = '#' :: rest.takeWhile (!isBreak ·) ++ after := by
    rw [h, List.cons_append, hafter]
  have hskip := Cursor.rest_skip hrest
  rw [List.length_cons, Nat.add_comm] at hskip
  rw [hskip, hrest]

/-- A place behind the end of a line where no gap and no comment begins is not passed over. -/
theorem toNext_before {pre post : List Char} {b x : Char} (hb : isBreak b = true)
    (hx : isGap x = false) (hsign : x ≠ '#') (limit : Nat)
    (h : s.cursor.rest = pre ++ b :: x :: post) :
    ∃ mid, (s.toNext limit).cursor.rest = mid ++ x :: post ∧ mid <:+ pre ++ [b] := by
  -- what is left before that place is empty, or the end of what was there
  suffices hstep : ∀ mid, mid <:+ pre ++ [b] → s.cursor.rest = mid ++ x :: post →
      ∃ mid', (s.toNext limit).cursor.rest = mid' ++ x :: post ∧ mid' <:+ pre ++ [b] from
    hstep (pre ++ [b]) (List.suffix_refl _) (by simpa using h)
  clear h
  induction limit generalizing s with
  | zero => exact fun mid hmid hrest => ⟨mid, hrest, hmid⟩
  | succ limit ih =>
    intro mid hmid hrest
    -- a step that does not reach beyond the place leaves such an end
    have hpass : ∀ c allowed raw, s.cursor.rest = raw ++ c.rest → ¬ mid ++ [x] <+: raw →
        ∃ mid', (({ s with cursor := c, keyAllowed := allowed } : Scanner).toNext limit).cursor.rest =
          mid' ++ x :: post ∧ mid' <:+ pre ++ [b] := by
      intro c allowed raw hraw hpre
      obtain ⟨m, rfl, hm⟩ := exists_append_of_not_prefix hpre (hraw.symm.trans hrest)
      exact ih (s := { s with cursor := c, keyAllowed := allowed }) m
        ((List.suffix_append raw m).trans hmid) hm
    rw [toNext]
    split
    · exact ⟨mid, hrest, hmid⟩
    · rename_i y rest hy
      split_ifs with hblank hcomment hbreak
      · have hgap : isGap y = true := by
          rw [Bool.or_eq_true, Bool.and_eq_true, decide_eq_true_eq, decide_eq_true_eq] at hblank
          rcases hblank with rfl | ⟨rfl, -⟩ <;> rfl
        exact hpass _ s.keyAllowed [y] (by rw [Cursor.rest_skip_one hy, hy]; rfl)
          (not_prefix_gap hx (by simpa using hgap))
      · -- the end of the line is still to come, for the place itself begins no comment
        subst hcomment
        have hne : mid ≠ [] := by
          rintro rfl
          exact hsign (List.cons.inj (hy.symm.trans hrest)).1.symm
        have hmem : b ∈ mid := by
          obtain ⟨l, hl⟩ := hmid
          refine List.mem_of_getLast? ?_
          rw [← List.getLast?_append_of_ne_nil l hne, hl, List.getLast?_concat]
        exact hpass _ s.keyAllowed _ (rest_skip_comment hy) (not_prefix_comment hb hmem)
      · obtain ⟨raw, hraw, -, hbreaks, -⟩ := Cursor.exists_skipBreak hy hbreak
        exact hpass _ _ raw hraw
          (not_prefix_gap hx fun z hz => isGap_of_isBreak (hbreaks z hz))
      · exact ⟨mid, hrest, hmid⟩

/-- A blank in front of a token. -/
theorem toNext_blank {x : Char} {rest : List Char} (h : s.cursor.rest = ' ' :: x :: rest)
    (hx : isGap x = false) (hsign : x ≠ '#') (limit : Nat) : s.toNext (limit + 2) = s.skip 1 := by
  obtain ⟨hblank, hbreak⟩ := Bool.or_eq_false_iff.mp hx
  have hne : x ≠ ' ' ∧ x ≠ '\t' := by
    simpa [isBlank] using hblank
  rw [toNext, h]
  simp only [decide_true, Bool.true_or, if_true]
  rw [toNext, show (s.skip 1).cursor.rest = x :: rest from Cursor.rest_skip_one h]
  simp [hne, hsign, hbreak]

theorem closeBlocks_cursor (column : Int) (outer : List Int) (s : Scanner) :
    (s.closeBlocks column outer).cursor = s.cursor := by
  induction outer generalizing s with
  | nil => rfl
  | cons i is ih =>
    rw [closeBlocks]
    split
    · rw [ih]
      rfl
    · rfl

theorem unroll_cursor (column : Int) : (s.unroll column).cursor = s.cursor := by
  rw [unroll]
  split
  · rfl
  · exact closeBlocks_cursor column _ s

/-- The scanner in front of the next token. -/
def atNext (s : Scanner) : Scanner :=
  let s := s.toNext (s.cursor.rest.length + 1)
  s.unroll s.cursor.column

/-- In the outermost block nothing but the place changes. -/
theorem atNext_eq (hindent : s.indent ≤ 0) : ∃ c allowed,
    s.atNext = { s with cursor := c, keyAllowed := allowed } ∧
      c = (s.toNext (s.cursor.rest.length + 1)).cursor := by
  obtain ⟨c, allowed, hnext⟩ := toNext_eq (s.cursor.rest.length + 1) s
  refine ⟨c, allowed, ?_, by rw [hnext]⟩
  rw [Scanner.atNext, hnext]
  have hcolumn : ¬ ((c.column : Int) < s.indent) := by omega
  cases s.outerIndents with
  | nil => simp [unroll, closeBlocks]
  | cons i is => simp [unroll, closeBlocks, hcolumn]

theorem KeysFrom.atNext (h : s.KeysFrom n) : Adds n s s.atNext :=
  have hnext := h.toNext (s.cursor.rest.length + 1)
  hnext.trans (hnext.keys.unroll _)

/-- Where a text goes on, a token is taken and then all others. -/
theorem takeTokens_succ {limit : Nat} (h : s.atNext.cursor.rest ≠ []) :
    s.takeTokens (limit + 1) = s.atNext.takeToken.bind (·.takeTokens limit) := by
  have hempty : (s.toNext (s.cursor.rest.length + 1)).cursor.rest.isEmpty = false := by
    rw [atNext, unroll_cursor] at h
    simpa using h
  rw [takeTokens]
  simp only [hempty, Bool.false_eq_true, if_false]
  rfl

/-- All tokens are taken, or one and then all others. -/
theorem takeTokens_cases {limit : Nat} (h : s.KeysFrom n) (hs : s.takeTokens limit = some s') :
    Adds n s s' ∨ ∃ s₁ limit', s.atNext.takeToken = some s₁ ∧ limit' < limit ∧
      s₁.takeTokens limit' = some s' := by
  cases limit with
  | zero => cases hs
  | succ limit =>
    rw [takeTokens] at hs
    split at hs
    · have hnext := h.toNext (s.cursor.rest.length + 1)
      have hunroll := hnext.trans (hnext.keys.unroll (-1))
      exact Or.inl (hunroll.trans (hunroll.keys.dropKey hs))
    · obtain ⟨s₁, hs₁, hs⟩ := Option.bind_eq_some_iff.mp hs
      exact Or.inr ⟨s₁, limit, hs₁, Nat.lt_succ_self _, hs⟩

/-- The first token behind others stays, or one that is no text comes before it. -/
theorem takeTokens_opens {P : Token → Prop} {limit : Nat} (hP : ∀ t, t.isScalar = false → P t)
    (h : s.KeysFrom lead.length) (hopens : Opens lead P s.tokens)
    (hlength : lead.length < s.tokens.length) (hs : s.takeTokens limit = some s') :
    Opens lead P s'.tokens := by
  induction limit using Nat.strongRecOn generalizing s with
  | ind limit ih =>
    rcases takeTokens_cases h hs with hadds | ⟨s₁, limit', hs₁, hlt, hs⟩
    · exact hopens.marked hP hadds.marked
    · -- A token stands behind the lead already, so what is taken next is not the first.
      have hnext := h.atNext
      obtain ⟨hkeys, t, ts, htokens, hmarked, -⟩ := takeToken_takes hnext.keys hs₁
      have hmarked := hnext.marked.trans hmarked
      have hle := hmarked.length_le
      refine ih limit' hlt hkeys ?_ ?_ hs
      · rw [htokens]
        exact (hopens.marked hP hmarked).cons (Or.inl (by omega))
      · rw [htokens, List.length_cons]
        omega

/-- The first text behind other tokens is one that can be read there. -/
theorem takeTokens_first {limit : Nat} (h : s.KeysFrom s.tokens.length)
    (hs : s.takeTokens limit = some s') :
    Opens s.tokens (fun t => ∀ text plain, t = .scalar text plain → s.atNext.Reads text plain)
      s'.tokens := by
  have hP : ∀ t : Token, t.isScalar = false →
      ∀ text plain, t = .scalar text plain → s.atNext.Reads text plain := by
    rintro t ht text plain rfl
    cases ht
  have hnone : Opens s.tokens (fun t => ∀ text plain, t = .scalar text plain →
      s.atNext.Reads text plain) s.tokens := ⟨[], rfl, nofun⟩
  rcases takeTokens_cases h hs with hadds | ⟨s₁, limit', hs₁, -, hs⟩
  · exact hnone.marked hP hadds.marked
  · have hnext := h.atNext
    obtain ⟨hkeys, t, ts, htokens, hmarked, hreads⟩ := takeToken_takes hnext.keys hs₁
    have hmarked := hnext.marked.trans hmarked
    refine takeTokens_opens hP hkeys ?_ ?_ hs
    · rw [htokens]
      exact (hnone.marked hP hmarked).cons (Or.inr hreads)
    · rw [htokens]
      exact Nat.lt_succ_of_le hmarked.length_le

end Scanner

end DesignCompiler.Yaml
