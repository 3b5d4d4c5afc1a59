import DesignCompiler.Element.Lowering
import DesignCompiler.Proofs.Outcome

/-!
# DesignCompiler — properties judged by their values

All readers of properties work in one way: the entry of the property is looked up, and its value is
judged, whatever the spelling that holds it. The spelling matters only for the text of a refusal,
and not for all of these: some reasons are always reported under the preferred spelling.

* `Judge.text`, `Judge.length` and so on — the judgements of a value;
* `Judge.color_eq_ok` and so on — the texts that they let pass;
* `Attributes.read`, `Attributes.require` — a property under a judgement;
* `string_eq_read`, `length_eq_read` and so on — each reader is one of the two.
-/

namespace DesignCompiler

/-- Whether a reason is reported under the preferred spelling, whichever holds the value. -/
def Reason.namesPreferred : Reason → Bool
  | .breaksStylesheet => true
  | .emptySource => true
  | .notAnOpacity _ => true
  | _ => false

/-- The spelling of a property that a refusal for this reason names. -/
def Reason.spelling (reason : Reason) (p : Property) (key : String) : String :=
  if reason.namesPreferred then p.preferred else key

/-! ## Judgements -/

namespace Judge

open Attributes

def text : Json → Except Reason String
  | .string s => .ok s
  | _ => .error .notAString

def flag : Json → Except Reason Bool
  | .bool b => .ok b
  | _ => .error .notABoolean

def length (v : Json) : Except Reason Binary64 :=
  match measure? v with
  | none => .error .notANumber
  | some x => if x.isWithin maxMagnitude then .ok x else .error .notALength

def opacity (v : Json) : Except Reason Binary64 := do
  let x ← length v
  if x.exceeds 1 then .error (.notAnOpacity x) else return x

def color (v : Json) : Except Reason String := do
  let s ← text v
  if isColor (Text.trim s) then return Text.trim s else .error (.notAColor (Text.trim s))

def weight (v : Json) : Except Reason String :=
  if weights.contains (weightWord v) then .ok (weightWord v) else .error .notAWeight

def alignment (v : Json) : Except Reason Alignment := do
  let word := normalizeWord (← text v)
  match alignment? word with
  | some l => return l
  | none => .error (.unknownAlignment word)

def fit (v : Json) : Except Reason Fit := do
  let word := normalizeWord (← text v)
  match fit? word with
  | some f => return f
  | none => .error (.unknownFit word)

def family (v : Json) : Except Reason String := do
  let s ← text v
  if breaksStylesheet s then .error .breaksStylesheet else return s

def source (v : Json) : Except Reason String := do
  let s ← text v
  if Text.isAllBlank s then .error .emptySource
  else if breaksStylesheet s then .error .breaksStylesheet
  else return s

variable {v : Json} {s : String}

theorem color_eq_ok (h : color v = .ok s) : isColor s = true := by
  obtain ⟨t, -, h⟩ := bind_eq_ok_iff.mp h
  split at h
  · rename_i hcolor
    exact Except.ok.inj h ▸ hcolor
  · exact nomatch h

theorem weight_eq_ok (h : weight v = .ok s) : s ∈ weights := by
  unfold weight at h
  split at h
  · rename_i hcontains
    exact Except.ok.inj h ▸ List.contains_iff_mem.mp hcontains
  · exact nomatch h

theorem family_eq_ok (h : family v = .ok s) : breaksStylesheet s = false := by
  obtain ⟨t, -, h⟩ := bind_eq_ok_iff.mp h
  split at h
  · exact nomatch h
  · rename_i hbreaks
    exact Except.ok.inj h ▸ Bool.eq_false_iff.mpr hbreaks

theorem source_eq_ok (h : source v = .ok s) :
    Text.isAllBlank s = false ∧ breaksStylesheet s = false := by
  obtain ⟨t, -, h⟩ := bind_eq_ok_iff.mp h
  split at h
  · exact nomatch h
  · rename_i hblank
    split at h
    · exact nomatch h
    · rename_i hbreaks
      obtain rfl : t = s := Except.ok.inj h
      exact ⟨Bool.eq_false_iff.mpr hblank, Bool.eq_false_iff.mpr hbreaks⟩

end Judge

/-! ## Reading under a judgement -/

namespace Attributes

variable {α : Type}

/-- The value of a property, judged if it is there. -/
def read (a : Attributes) (p : Property) (judge : Json → Except Reason α) :
    Except Refusal (Option α) :=
  match a.get? p with
  | none => .ok none
  | some (key, v) =>
    match judge v with
    | .ok x => .ok (some x)
    | .error reason => a.refuse (reason.spelling p key) reason

/-- The value of a property that has to be there. -/
def require (a : Attributes) (p : Property) (judge : Json → Except Reason α) :
    Except Refusal α := do
  match ← a.read p judge with
  | some x => return x
  | none => .error (.missingField a.id (.appearance p.preferred))

variable {a : Attributes} {p : Property} {judge : Json → Except Reason α}

theorem read_of_none (h : a.get? p = none) : a.read p judge = .ok none := by
  rw [read, h]

theorem read_of_some {key : String} {v : Json} (h : a.get? p = some (key, v)) :
    a.read p judge = match judge v with
      | .ok x => .ok (some x)
      | .error reason => a.refuse (reason.spelling p key) reason := by
  rw [read, h]

/-- What holds of all values that pass a judgement holds of the value that was read. -/
theorem forall_mem_of_read {good : α → Prop} (hjudge : ∀ v x, judge v = .ok x → good x)
    {r : Option α} (h : a.read p judge = .ok r) : ∀ x ∈ r, good x := by
  intro x hx
  cases hget : a.get? p with
  | none =>
    rw [read_of_none hget] at h
    rw [← Except.ok.inj h] at hx
    exact nomatch hx
  | some entry =>
    rw [read_of_some hget] at h
    split at h
    · rename_i y hpasses
      rw [← Except.ok.inj h, Option.mem_some] at hx
      exact hx ▸ hjudge _ _ hpasses
    · exact nomatch h

theorem of_require {good : α → Prop} (hjudge : ∀ v x, judge v = .ok x → good x) {x : α}
    (h : a.require p judge = .ok x) : good x := by
  obtain ⟨r, hread, h⟩ := bind_eq_ok_iff.mp h
  cases r with
  | none => exact nomatch h
  | some y =>
    obtain rfl : y = x := Except.ok.inj h
    exact forall_mem_of_read hjudge hread y rfl

/-! ## Readers -/

theorem string_eq_read : a.string p = a.read p Judge.text := by
  cases hget : a.get? p with
  | none => rw [read_of_none hget, string, hget]; rfl
  | some entry =>
    obtain ⟨key, v⟩ := entry
    rw [read_of_some hget, string, hget]
    cases v <;> rfl

theorem requiredString_eq_require : a.requiredString p = a.require p Judge.text := by
  rw [requiredString, string_eq_read, require]
  congr 1
  funext r
  cases r <;> rfl

theorem flag_eq_read : a.flag p = a.read p Judge.flag := by
  cases hget : a.get? p with
  | none => rw [read_of_none hget, flag, hget]; rfl
  | some entry =>
    obtain ⟨key, v⟩ := entry
    rw [read_of_some hget, flag, hget]
    cases v <;> rfl

theorem length_eq_read : a.length p = a.read p Judge.length := by
  cases hget : a.get? p with
  | none => rw [read_of_none hget, length, hget]; rfl
  | some entry =>
    obtain ⟨key, v⟩ := entry
    rw [read_of_some hget, length, hget, Judge.length]
    dsimp only
    cases measure? v with
    | none => rfl
    | some x =>
      dsimp only
      cases x.isWithin maxMagnitude <;> rfl

theorem color_eq_read : a.color p = a.read p Judge.color := by
  cases hget : a.get? p with
  | none => rw [read_of_none hget, color, hget]; rfl
  | some entry =>
    obtain ⟨key, v⟩ := entry
    rw [read_of_some hget, color, hget]
    cases v with
    | string s =>
      dsimp only [Judge.color, Judge.text, bind, Except.bind]
      cases isColor (Text.trim s) <;> rfl
    | _ => rfl

theorem opacity_eq_read : a.opacity = a.read .opacity Judge.opacity := by
  rw [opacity, length_eq_read]
  cases hget : a.get? .opacity with
  | none => rw [read_of_none hget, read_of_none hget]; rfl
  | some entry =>
    rw [read_of_some hget, read_of_some hget, Judge.opacity]
    cases Judge.length entry.2 with
    | error reason => rfl
    | ok x =>
      dsimp only [bind, Except.bind]
      cases x.exceeds 1 <;> rfl

theorem fontWeight_eq_read : a.fontWeight = a.read .fontWeight Judge.weight := by
  cases hget : a.get? .fontWeight with
  | none => rw [read_of_none hget, fontWeight, hget]; rfl
  | some entry =>
    obtain ⟨key, v⟩ := entry
    rw [read_of_some hget, fontWeight, hget, Judge.weight]
    dsimp only
    cases weights.contains (weightWord v) <;> rfl

theorem textAlign_eq_read : a.textAlign = a.read .textAlign Judge.alignment := by
  cases hget : a.get? .textAlign with
  | none => rw [read_of_none hget, textAlign, keyword, hget]; rfl
  | some entry =>
    obtain ⟨key, v⟩ := entry
    rw [read_of_some hget, textAlign, keyword, hget]
    cases v with
    | string s =>
      dsimp only [Judge.alignment, Judge.text, bind, Except.bind, pure, Except.pure]
      cases alignment? (normalizeWord s) <;> rfl
    | _ => rfl

theorem fit_eq_read : a.fit = a.read .fit Judge.fit := by
  cases hget : a.get? .fit with
  | none => rw [read_of_none hget, fit, keyword, hget]; rfl
  | some entry =>
    obtain ⟨key, v⟩ := entry
    rw [read_of_some hget, fit, keyword, hget]
    cases v with
    | string s =>
      dsimp only [Judge.fit, Judge.text, bind, Except.bind, pure, Except.pure]
      cases fit? (normalizeWord s) <;> rfl
    | _ => rfl

theorem fontFamily_eq_read : a.fontFamily = a.read .fontFamily Judge.family := by
  rw [fontFamily, string_eq_read]
  cases hget : a.get? .fontFamily with
  | none => rw [read_of_none hget, read_of_none hget]; rfl
  | some entry =>
    rw [read_of_some hget, read_of_some hget, Judge.family]
    cases Judge.text entry.2 with
    | error reason => rfl
    | ok s =>
      dsimp only [bind, Except.bind, rejectBreaking]
      cases breaksStylesheet s <;> rfl

theorem source_eq_require : a.source = a.require .source Judge.source := by
  rw [source, requiredString_eq_require, require, require]
  cases hget : a.get? .source with
  | none => rw [read_of_none hget, read_of_none hget]; rfl
  | some entry =>
    rw [read_of_some hget, read_of_some hget, Judge.source]
    cases Judge.text entry.2 with
    | error reason => rfl
    | ok s =>
      dsimp only [bind, Except.bind, rejectBlank, rejectBreaking, pure, Except.pure]
      cases Text.isAllBlank s <;> cases breaksStylesheet s <;> rfl

end Attributes

end DesignCompiler
