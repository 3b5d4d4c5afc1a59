import DesignCompiler.Proofs.Files.Changes
import DesignCompiler.Proofs.Runs

/-!
# DesignCompiler — what actions write

An action writes some texts if every run of it that succeeds does. What actions write one after the
other are the texts of the first, then those of the second; making folders writes nothing.

* `Action.SavesFrom`, `Action.Saves` — an action writes some texts, on one disk or on all;
* `Saves.bind`, `Saves.mapM` — actions one after the other;
* `makeFolders_moves` — what making folders does, whatever its result;
* `saveText_saves`, `makeFolders_saves` — single actions.
-/

namespace DesignCompiler.Disk

namespace Action

variable {α β : Type} {d d' : Disk} {x : Action FileError α} {ts ts' : List (Path × String)}

/-- If the run of an action on a disk succeeds, it writes these texts. -/
def SavesFrom (d : Disk) (x : Action FileError α) (texts : List (Path × String)) : Prop :=
  ∀ (d' : Disk) (a : α), x.run.run d = (.ok a, d') → d.Writes d' texts

/-- Each run of an action that succeeds writes these texts. -/
def Saves (x : Action FileError α) (texts : List (Path × String)) : Prop :=
  ∀ d, SavesFrom d x texts

theorem SavesFrom.set (h : d.Writes d' ts) :
    SavesFrom d (set d' : Action FileError PUnit) ts := by
  rintro _ _ ⟨⟩
  exact h

namespace Saves

theorem pure (a : α) : Saves (Pure.pure a : Action FileError α) [] := by
  rintro d _ _ ⟨⟩
  exact (Extends.refl d).writes

theorem bind {f : α → Action FileError β} (hx : Saves x ts) (hf : ∀ a, Saves (f a) ts') :
    Saves (x >>= f) (ts ++ ts') := by
  intro d d'' b h
  obtain ⟨a, d', hfst, hsnd⟩ := run_bind_eq_ok h
  exact (hx d d' a hfst).trans (hf a d' d'' b hsnd)

theorem get_bind {f : Disk → Action FileError β} (hf : ∀ d, SavesFrom d (f d) ts) :
    Saves (get >>= f) ts := by
  intro d d' b h
  rw [run_bind, run_get] at h
  exact hf d d' b h

theorem mapM {l : List β} {f : β → Action FileError α} {texts : β → List (Path × String)}
    (hf : ∀ b ∈ l, Saves (f b) (texts b)) : Saves (l.mapM f) (l.flatMap texts) := by
  induction l with
  | nil => exact pure []
  | cons b l ih =>
    obtain ⟨hb, hl⟩ := List.forall_mem_cons.mp hf
    rw [List.mapM_cons, List.flatMap_cons, ← List.append_nil (l.flatMap texts)]
    exact hb.bind fun _ => (ih hl).bind fun _ => pure _

end Saves

end Action

/-! ## Folders -/

section Folders

variable {R : Disk → Disk → Prop} [IsPreorder Disk R]

/-- A failure that is only reported if no folder is there. -/
theorem unlessFolder_moves (p : Path) (e : FileError) :
    Moves R (do if ((← get).folder? p).isNone then throw e : Action FileError Unit) := by
  refine Moves.get_bind fun d => ?_
  split <;> exact refl_of R d

variable (hmake : ∀ d d' p, makeFolder d p = .ok d' → R d d')

include hmake

theorem ensureFolder_moves (p : Path) : Moves R (ensureFolder p) := by
  refine Moves.get_bind fun d => ?_
  cases h : d.makeFolder p with
  | ok d' => exact hmake d d' p h
  | error e => exact unlessFolder_moves p e d

/-- By induction on the number of folders above. -/
theorem makeFoldersAbove_moves (limit : Nat) (p : Path) : Moves R (makeFoldersAbove limit p) := by
  induction limit generalizing p with
  | zero => exact Moves.pure ()
  | succ limit ih =>
    rw [makeFoldersAbove]
    split
    · exact Moves.pure ()
    · refine Moves.get_bind fun d => ?_
      cases h : d.makeFolder p with
      | ok d' => exact hmake d d' p h
      | error e =>
        -- only where a folder above is missing others are made; all other failures are reported, or
        -- the folder is there
        cases e with
        | notFound =>
          cases hparent : p.parent? with
          | some above => exact (ih above).bind (fun _ => ensureFolder_moves hmake p) d
          | none => exact refl_of R d
        | isThere => exact unlessFolder_moves p _ d
        | notFolder => exact unlessFolder_moves p _ d
        | isFolder => exact unlessFolder_moves p _ d
        | notText => exact unlessFolder_moves p _ d

/-- Making folders moves the files as making each of them does. -/
theorem makeFolders_moves (p : Path) : Moves R (makeFolders p) :=
  makeFoldersAbove_moves hmake _ p

end Folders

instance : IsPreorder Disk fun d d' => d.Extends d' [] where
  refl := Extends.refl
  trans _ _ _ := Extends.trans

/-! ## Single actions -/

open DesignCompiler.Disk.Action (Saves SavesFrom)

variable (p : Path)

theorem change_saves {f : Disk → Except FileError Disk} {ts : List (Path × String)}
    (h : ∀ d d', f d = .ok d' → d.Writes d' ts) : Saves (change f) ts := by
  refine Saves.get_bind fun d => ?_
  cases hf : f d with
  | ok d' => exact .set (h d d' hf)
  | error e => exact nofun

theorem change_moves {R : Disk → Disk → Prop} [IsPreorder Disk R]
    {f : Disk → Except FileError Disk} (h : ∀ d d', f d = .ok d' → R d d') :
    Moves R (change f) := by
  refine Moves.get_bind fun d => ?_
  cases hf : f d with
  | ok d' => exact h d d' hf
  | error e => exact refl_of R d

theorem saveText_saves (text : String) : Saves (saveText p text) [(p, text)] :=
  change_saves fun _ _ => writeFile_writes

theorem makeFolders_saves : Saves (makeFolders p) [] := by
  have hmoves := makeFolders_moves (R := fun d d' => d.Extends d' [])
    (fun _ _ _ => makeFolder_extends) p
  intro d d' a hrun
  have hext := hmoves d
  rw [hrun] at hext
  exact hext.writes

end DesignCompiler.Disk
