import DesignCompiler.Proofs.Command.Compilation
import DesignCompiler.Proofs.Project.Rereading

/-!
# DesignCompiler — commands on two disks

Commands that only read do the same on two disks if what they read is the same on both: the project, the
list of its designs, and what is in their files. They print the same, they both succeed or both fail, and
neither disk changes. Only what they fail with may differ, which goes to the log.

* `Alike` — an action comes to the same result on two disks, and prints the same;
* `ReadsAlike` — a project and its designs are the same on two disks;
* `readsAlike_of_grows` — so they are when other files have been added;
* `validate_alike`, `showTrees_alike`, `prepare_alike` — the commands.
-/

namespace DesignCompiler.Command

/-! ## Actions -/

/-- Sessions on two disks in which the same is printed. -/
structure SameOutput (d d' : Disk) (s s' : Session) : Prop where
  left : s.disk = d
  right : s'.disk = d'
  printed : s'.printed = s.printed

/-- An action that has the same result on two disks, unless it fails on both, and prints the same. -/
def Alike {α : Type} (d d' : Disk) (x : Action α) : Prop :=
  ∀ s s', SameOutput d d' s s' →
    (∀ a, (x.run.run s').1 = .ok a ↔ (x.run.run s).1 = .ok a) ∧
      SameOutput d d' (x.run.run s).2 (x.run.run s').2

namespace Alike

variable {α β : Type} {d d' : Disk} {x : Action α}

theorem pure (a : α) : Alike d d' (Pure.pure a) :=
  fun _ _ h => ⟨fun _ => Iff.rfl, h⟩

theorem throw (f : Failure) : Alike d d' (MonadExcept.throw f : Action α) :=
  fun _ _ h => ⟨fun _ => Iff.rfl, h⟩

theorem note (level : Level) (message : String) : Alike d d' (note level message) :=
  fun _ _ h => ⟨fun _ => Iff.rfl, h.left, h.right, h.printed⟩

theorem print (text : String) : Alike d d' (print text) :=
  fun _ _ h => ⟨fun _ => Iff.rfl, h.left, h.right, congrArg (· ++ text) h.printed⟩

theorem consult {wrap : Failure → Failure} {f : Disk → Except ProjectError α}
    (h : ∀ a, f d' = .ok a ↔ f d = .ok a) : Alike d d' (consult wrap f) := by
  intro s s' hs
  rw [run_consult, run_consult, hs.left, hs.right]
  exact ⟨fun a => mapError_eq_ok_iff.trans ((h a).trans mapError_eq_ok_iff.symm), hs⟩

/-- The second action only has to be so for results of the first. -/
theorem bind' {f : α → Action β} (hx : Alike d d' x)
    (hf : ∀ a s s', s.disk = d → x.run.run s = (.ok a, s') → Alike d d' (f a)) :
    Alike d d' (x >>= f) := by
  intro s s' hs
  obtain ⟨hresult, hsession⟩ := hx s s' hs
  rw [run_bind, run_bind]
  rcases hrun : x.run.run s with ⟨e | a, s₁⟩
  · -- the first action fails on both disks, or on none
    rcases hrun' : x.run.run s' with ⟨e' | a', s₁'⟩
    · rw [hrun, hrun'] at hsession
      exact ⟨fun b => ⟨nofun, nofun⟩, hsession⟩
    · rw [hrun, hrun'] at hresult
      exact nomatch (hresult a').mp rfl
  · have hrun' : (x.run.run s').1 = .ok a := (hresult a).mpr (by rw [hrun])
    rcases hsnd : x.run.run s' with ⟨e' | a', s₁'⟩
    · rw [hsnd] at hrun'
      exact nomatch hrun'
    · rw [hsnd] at hrun'
      obtain rfl := Except.ok.inj hrun'
      rw [hrun, hsnd] at hsession
      exact hf a' s s₁ hs.left hrun s₁ s₁' hsession

theorem bind {f : α → Action β} (hx : Alike d d' x) (hf : ∀ a, Alike d d' (f a)) :
    Alike d d' (x >>= f) :=
  hx.bind' fun a _ _ _ _ => hf a

/-- What follows something that is read only has to be alike for what is read. -/
theorem consult_bind {wrap : Failure → Failure} {f : Disk → Except ProjectError α}
    {g : α → Action β} (h : ∀ a, f d' = .ok a ↔ f d = .ok a)
    (hg : ∀ a, f d = .ok a → Alike d d' (g a)) : Alike d d' (Command.consult wrap f >>= g) := by
  refine (consult h).bind' fun a s s' hs hrun => hg a ?_
  rw [← hs]
  exact (run_consult_eq_ok hrun).1

theorem forM {f : α → Action PUnit} {l : List α} (hf : ∀ a ∈ l, Alike d d' (f a)) :
    Alike d d' (forM l f) := by
  induction l with
  | nil => exact pure _
  | cons a l ih =>
    obtain ⟨ha, hl⟩ := List.forall_mem_cons.mp hf
    rw [List.forM_cons]
    exact ha.bind fun _ => ih hl

end Alike

/-! ## What is printed -/

variable {d d' : Disk}

theorem showTree_alike (name : String) (page : Page) (index : Nat) :
    Alike d d' (showTree name page index) := by
  rw [showTree]
  split
  · exact .throw _
  · exact (Alike.print _).bind fun _ => .print _

/-- What is printed of compiled designs does not depend on the files. -/
theorem deliver_alike (p : Project) (results : List CompiledDesign) :
    Alike d d' (deliver true p results) :=
  (Alike.forM fun _ _ => .print _).bind fun _ => .note _ _

/-! ## What is read -/

variable [Readers]

/-- The project of a path, the list of its designs and what is in them are the same on two disks. -/
structure ReadsAlike (d d' : Disk) (config : String) : Prop where
  project : ∀ p, Project.load d' ⟨config⟩ = .ok p ↔ Project.load d ⟨config⟩ = .ok p
  listed : ∀ p, Project.load d ⟨config⟩ = .ok p →
    discover d' p.designsPath = discover d p.designsPath
  loaded : ∀ p files, Project.load d ⟨config⟩ = .ok p → discover d p.designsPath = .ok files →
    ∀ f ∈ files, Design.load d' f.path = Design.load d f.path

theorem readsAlike_of_grows {config : String} (h : d.Grows d') (htree : d.IsTree)
    (hsteady : d.Steady ⟨config⟩) (hleads : d'.LeadsToProject ⟨config⟩)
    (hdesigns : ∀ p, Project.load d ⟨config⟩ = .ok p → d.Steady p.designsPath) :
    ReadsAlike d d' config where
  project _ := Project.load_iff_of_grows h htree hsteady hleads
  listed p hp := discover_of_grows h htree (hdesigns p hp)
  loaded _ _ _ hfiles _ hf := load_of_grows h htree hfiles hf

variable {config : String} {p : Project}

namespace ReadsAlike

variable (h : ReadsAlike d d' config) (hp : Project.load d ⟨config⟩ = .ok p)

include h hp

theorem designFiles_eq : p.designFiles d' = p.designFiles d :=
  h.listed p hp

theorem designs_eq : p.designs d' = p.designs d := by
  rw [Project.designs, Project.designs, h.designFiles_eq hp]
  exact bind_congr_of_ok fun files hfiles =>
    mapM_congr fun f hf => by rw [h.loaded p files hp hfiles f hf]

theorem design_eq (name : String) : p.design d' name = p.design d name := by
  rw [Project.design, Project.design, h.designFiles_eq hp]
  refine bind_congr_of_ok fun files hfiles => ?_
  split
  · rename_i f hf
    exact h.loaded p files hp hfiles f (List.mem_of_find?_eq_some hf)
  · rfl

theorem compileFile_eq {files : List DesignFile} (hfiles : p.designFiles d = .ok files)
    {f : DesignFile} (hf : f ∈ files) (s : Settings) :
    compileFile d' s f.path f.name = compileFile d s f.path f.name := by
  rw [compileFile, compileFile, h.loaded p files hp hfiles f hf]

theorem compileAll_eq (s : Settings) :
    compileAll d' s p.designsPath = compileAll d s p.designsPath := by
  rw [compileAll, compileAll, h.listed p hp]
  exact bind_congr_of_ok fun files hfiles =>
    mapM_congr fun f hf => h.compileFile_eq hp hfiles hf s

end ReadsAlike

/-! ## Commands -/

section Commands

variable (h : ReadsAlike d d' config)

include h

theorem validate_alike : Alike d d' (validate config) := by
  refine (Alike.note _ _).bind fun _ => Alike.consult_bind h.project fun p hp => ?_
  refine (Alike.note _ _).bind fun _ => (Alike.note _ _).bind fun _ => (Alike.note _ _).bind fun _ => ?_
  refine Alike.consult_bind (fun _ => by rw [h.designs_eq hp]) fun designs _ => ?_
  refine (Alike.forM fun _ _ => .note _ _).bind fun _ => ?_
  split
  · exact (Alike.throw _).bind fun _ => .note _ _
  · exact .note _ _

theorem showTrees_alike (name : String) (page : Option Nat) :
    Alike d d' (showTrees config name page) := by
  refine Alike.consult_bind h.project fun p hp => ?_
  refine Alike.consult_bind (fun _ => by rw [h.design_eq hp]) fun design _ => ?_
  refine Alike.bind ?_ fun pages => Alike.forM fun (q, index) _ => showTree_alike name q index
  cases page with
  | none => exact .pure _
  | some index =>
    rw [selectPages]
    split
    · exact .pure _
    · exact .throw _

theorem prepare_alike (design : Option String) (dialect : Option Dialect) :
    Alike d d' (prepare config design dialect) := by
  refine (Alike.note _ _).bind fun _ => Alike.consult_bind h.project fun p hp => ?_
  refine Alike.bind ?_ fun _ => .pure _
  cases design with
  | none =>
    exact (Alike.note _ _).bind fun _ => .consult fun _ => by rw [h.compileAll_eq hp]
  | some name =>
    refine Alike.bind ?_ fun _ => .pure _
    refine Alike.consult_bind (fun _ => by rw [h.designFiles_eq hp]) fun files hfiles => ?_
    split
    · exact .throw _
    · rename_i f hf
      refine .consult fun _ => ?_
      rw [h.compileFile_eq hp hfiles (List.mem_of_find?_eq_some hf)]

end Commands

end DesignCompiler.Command
