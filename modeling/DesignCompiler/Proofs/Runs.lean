import Mathlib.Order.Defs.Unbundled

/-!
# DesignCompiler — runs of actions

An action keeps a state and may fail. Its run from a state has a result and the state that is left, also
after a failure. Actions are described by their runs, and what several of them do together is worked
out from those of each.

* `run_pure`, `run_get`, `run_bind` — the run of an action in terms of its parts;
* `run_bind_eq_ok` — one action after another, both of which succeed;
* `Moves` — what all runs of an action do to the state, also those that fail;
* `Stays` — actions that succeed from states of some kind, and leave one of this kind.
-/

namespace DesignCompiler

variable {ε σ α β : Type}

theorem run_pure (a : α) (s : σ) : (pure a : ExceptT ε (StateM σ) α).run.run s = (.ok a, s) := rfl

theorem run_get (s : σ) : (get : ExceptT ε (StateM σ) σ).run.run s = (.ok s, s) := rfl

theorem run_bind (x : ExceptT ε (StateM σ) α) (f : α → ExceptT ε (StateM σ) β) (s : σ) :
    (x >>= f).run.run s =
      match x.run.run s with
      | (.ok a, s') => (f a).run.run s'
      | (.error e, s') => (.error e, s') := by
  simp only [ExceptT.run_bind, StateT.run_bind]
  rcases x.run.run s with ⟨_ | _, _⟩ <;> rfl

theorem run_bind_eq_ok {x : ExceptT ε (StateM σ) α} {f : α → ExceptT ε (StateM σ) β} {s s'' : σ}
    {b : β} (h : (x >>= f).run.run s = (.ok b, s'')) :
    ∃ a s', x.run.run s = (.ok a, s') ∧ (f a).run.run s' = (.ok b, s'') := by
  rw [run_bind] at h
  rcases hx : x.run.run s with ⟨_ | a, s'⟩
  · rw [hx] at h
    exact nomatch h
  · rw [hx] at h
    exact ⟨a, s', rfl, h⟩

/-! ## Moves -/

/-- Whatever its result, a run takes the state to a related one. -/
def Moves (R : σ → σ → Prop) (x : ExceptT ε (StateM σ) α) : Prop :=
  ∀ s, R s (x.run.run s).2

namespace Moves

variable {R : σ → σ → Prop} [IsPreorder σ R] {x : ExceptT ε (StateM σ) α}

theorem pure (a : α) : Moves R (Pure.pure a : ExceptT ε (StateM σ) α) :=
  fun s => refl_of R s

theorem bind {f : α → ExceptT ε (StateM σ) β} (hx : Moves R x) (hf : ∀ a, Moves R (f a)) :
    Moves R (x >>= f) := by
  intro s
  have hfst := hx s
  rw [run_bind]
  rcases h : x.run.run s with ⟨_ | a, s'⟩
  · rwa [h] at hfst
  · rw [h] at hfst
    exact trans_of R hfst (hf a s')

omit [IsPreorder σ R] in
theorem get_bind {f : σ → ExceptT ε (StateM σ) β} (hf : ∀ s, R s ((f s).run.run s).2) :
    Moves R (get >>= f) := by
  intro s
  rw [run_bind, run_get]
  exact hf s

theorem mapM {f : α → ExceptT ε (StateM σ) β} {l : List α} (hf : ∀ a ∈ l, Moves R (f a)) :
    Moves R (l.mapM f) := by
  induction l with
  | nil => exact pure []
  | cons a l ih =>
    obtain ⟨ha, hl⟩ := List.forall_mem_cons.mp hf
    rw [List.mapM_cons]
    exact ha.bind fun _ => (ih hl).bind fun _ => pure _

theorem forM {f : α → ExceptT ε (StateM σ) PUnit} {l : List α} (hf : ∀ a ∈ l, Moves R (f a)) :
    Moves R (forM l f) := by
  induction l with
  | nil => exact pure _
  | cons a l ih =>
    obtain ⟨ha, hl⟩ := List.forall_mem_cons.mp hf
    rw [List.forM_cons]
    exact ha.bind fun _ => ih hl

end Moves

/-! ## Stays -/

/-- From a state of some kind, an action succeeds and leaves a state of this kind. -/
def Stays (I : σ → Prop) (x : ExceptT ε (StateM σ) α) : Prop :=
  ∀ s, I s → ∃ a s', x.run.run s = (.ok a, s') ∧ I s'

namespace Stays

variable {I : σ → Prop} {x : ExceptT ε (StateM σ) α}

theorem pure (a : α) : Stays I (Pure.pure a : ExceptT ε (StateM σ) α) :=
  fun s hs => ⟨a, s, rfl, hs⟩

theorem bind {f : α → ExceptT ε (StateM σ) β} (hx : Stays I x) (hf : ∀ a, Stays I (f a)) :
    Stays I (x >>= f) := by
  intro s hs
  obtain ⟨a, s', hfst, hs'⟩ := hx s hs
  obtain ⟨b, s'', hsnd, hs''⟩ := hf a s' hs'
  refine ⟨b, s'', ?_, hs''⟩
  rw [run_bind, hfst]
  exact hsnd

theorem mapM {f : α → ExceptT ε (StateM σ) β} {l : List α} (hf : ∀ a ∈ l, Stays I (f a)) :
    Stays I (l.mapM f) := by
  induction l with
  | nil => exact pure []
  | cons a l ih =>
    obtain ⟨ha, hl⟩ := List.forall_mem_cons.mp hf
    rw [List.mapM_cons]
    exact ha.bind fun _ => (ih hl).bind fun _ => pure _

theorem forM {f : α → ExceptT ε (StateM σ) PUnit} {l : List α} (hf : ∀ a ∈ l, Stays I (f a)) :
    Stays I (forM l f) := by
  induction l with
  | nil => exact pure _
  | cons a l ih =>
    obtain ⟨ha, hl⟩ := List.forall_mem_cons.mp hf
    rw [List.forM_cons]
    exact ha.bind fun _ => ih hl

end Stays

end DesignCompiler
