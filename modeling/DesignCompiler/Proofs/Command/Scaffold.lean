import DesignCompiler.Proofs.Command.Output
import DesignCompiler.Proofs.Files.Below

/-!
# DesignCompiler — new projects

A new project consists of three files. It is refused where one of them, the project file, is there
already; the other two are not looked at before they are written. So nothing is ever taken away, but a
design or a list of ignored files with the name of a new one is overwritten.

* `init_eq` — the steps of the command;
* `Ready` — where a project is made, and on which files;
* `init_cases` — a run fails before anything is written, or is ready;
* `scaffold_cases` — how far the writing gets;
* `Overwrites` — files that are in the way;
* `run_init_keeps` — what a new project does to the files that are there.
-/

namespace DesignCompiler.Command

open Disk

/-! ## The steps of the command -/

/-- The folder of a new project, which is made if nothing is there. -/
def enter (dir : Path) : Action Location := do
  if !(← get).disk.has dir then perform bareFailure (makeFolders dir)
  placeOf dir

/-- The name of a new project: the one that is given, or that of its folder. -/
def nameFor (given : Option String) (place : Location) : Action String :=
  match given.or place.getLast? with
  | some name => pure name
  | none => fail "Could not determine project name from path"

/-- There is one project in a folder. -/
def refuse (path : String) : Action Unit := do
  if (← get).disk.has ((⟨path⟩ : Path).join ⟨configFile⟩) then
    fail ("Directory '" ++ path ++ "' already contains a " ++ configFile)

/-- Makes the files of a new project. -/
def scaffold (dir : Path) (name : String) : Disk.Action FileError Unit := do
  makeFolders (dir.join ⟨"designs"⟩)
  saveText (dir.join ⟨configFile⟩) (projectText name)
  saveText (dir.join ⟨"designs/example.yaml"⟩) exampleDesign
  saveText (dir.join ⟨".gitignore"⟩) ignoredFiles

/-- What is said about a new project. -/
def announce (path name : String) (place : Location) : Action Unit := do
  info ("✓ Created project '" ++ name ++ "' at /" ++ "/".intercalate place)
  info ""
  info "Next steps:"
  if path ≠ "." then info ("  cd " ++ path)
  info "  pagesmith validate    # Check designs"
  info "  pagesmith compile     # Export page code"

/-- What follows an optional step is done in any case. -/
theorem if_bind {α β : Type} {c : Prop} [Decidable c] {x : Action Unit} {y : Action α}
    {k k' : α → Action β} (h : ∀ a, k a = k' a) :
    (if c then x >>= fun _ => y >>= k else y >>= k) = (if c then x >>= fun _ => y else y) >>= k' := by
  obtain rfl := funext h
  split
  · rw [bind_assoc]
  · rfl

theorem refuse_bind {β : Type} (path : String) (k : Action β) :
    (refuse path >>= fun _ => k) = (do
      if (← get).disk.has ((⟨path⟩ : Path).join ⟨configFile⟩) then do
        fail ("Directory '" ++ path ++ "' already contains a " ++ configFile)
        k
      else k) := by
  rw [refuse, bind_assoc]
  refine bind_congr fun s => ?_
  split
  · rfl
  · rw [pure_bind]

theorem init_eq (path : String) (given : Option String) :
    init path given = (do
      let place ← enter ⟨path⟩
      let name ← nameFor given place
      refuse path
      info ("Creating new Pagesmith project: " ++ name)
      perform bareFailure (scaffold ⟨path⟩ name)
      announce path name place) := by
  rw [init, enter, bind_assoc]
  refine bind_congr fun s => if_bind fun place => ?_
  -- the name is given, or it is the last one of the way to the folder, or there is none
  rw [nameFor]
  rcases given with _ | name
  · rcases place.getLast? with _ | name
    · rfl
    · simp only [Option.none_or, pure_bind, refuse_bind]
      rfl
  · simp only [Option.some_or, pure_bind, refuse_bind]
    rfl

/-! ## Ready to be filled -/

/-- Where a project is made, what it is called, and the files there are by then. -/
structure Ready (d : Disk) (dir : Path) (given : Option String) (e : Disk) (l : Location)
    (name : String) : Prop where
  made : (makeFolders dir).run.run d = (.ok (), e)
  located : e.locate dir = .ok (.folder l)
  named : given.or l.getLast? = some name
  fresh : e.has (dir.join ⟨configFile⟩) = false

variable {d e e' : Disk} {dir : Path} {given : Option String} {l : Location} {name : String}

theorem Ready.unique {l' : Location} {name' : String} (h : Ready d dir given e l name)
    (h' : Ready d dir given e' l' name') : e = e' ∧ l = l' ∧ name = name' := by
  obtain rfl : e = e' := congrArg Prod.snd (h.made.symm.trans h'.made)
  obtain rfl : l = l' := Spot.folder.inj (Except.ok.inj (h.located.symm.trans h'.located))
  exact ⟨rfl, rfl, Option.some.inj (h.named.symm.trans h'.named)⟩

theorem run_placeOf (dir : Path) (s : Session) :
    (∃ l, (s.disk.locate dir = .ok (.folder l) ∨ s.disk.locate dir = .ok (.file l)) ∧
        (placeOf dir).run.run s = (.ok l, s)) ∨
      s.disk.has dir = false ∧ ∃ f, (placeOf dir).run.run s = (.error f, s) := by
  rw [placeOf, run_bind, run_get, has]
  rcases hlocate : s.disk.locate dir with e | ⟨l | l | l⟩
  · exact Or.inr ⟨rfl, _, by simp only [hlocate]; rfl⟩
  · exact Or.inl ⟨l, Or.inl rfl, by simp only [hlocate]; rfl⟩
  · exact Or.inl ⟨l, Or.inr rfl, by simp only [hlocate]; rfl⟩
  · exact Or.inr ⟨rfl, _, by simp only [hlocate]; rfl⟩

/-- A project goes to a folder, which is made if nothing is there. A file is noticed later. -/
theorem run_enter {s : Session} {r : Except FileError Unit}
    (hmade : (makeFolders dir).run.run s.disk = (r, e)) :
    (r = .ok () ∧ ∃ l, e.locate dir = .ok (.folder l) ∧
        (enter dir).run.run s = (.ok l, { s with disk := e })) ∨
      (∃ l, e.locate dir = .ok (.file l) ∧ (enter dir).run.run s = (.ok l, { s with disk := e })) ∨
      (∃ f, (enter dir).run.run s = (.error f, { s with disk := e })) ∧
        (r = .ok () → ∀ l, e.locate dir ≠ .ok (.folder l)) := by
  rw [enter, run_bind, run_get]
  by_cases hhas : s.disk.has dir = true
  · simp only [hhas, Bool.not_true, Bool.false_eq_true, if_false]
    -- nothing is made, and making the folders would change nothing either
    rcases run_placeOf dir s with ⟨l, hfolder | hfile, hrun⟩ | ⟨hnone, -⟩
    · obtain ⟨rfl, rfl⟩ := Prod.mk.inj ((makeFolders_of_folder hfolder).symm.trans hmade)
      exact Or.inl ⟨rfl, l, hfolder, hrun⟩
    · obtain ⟨f, hfailed⟩ := makeFolders_of_file hfile
      obtain ⟨-, rfl⟩ := Prod.mk.inj (hfailed.symm.trans hmade)
      exact Or.inr (Or.inl ⟨l, hfile, hrun⟩)
    · exact absurd hhas (Bool.eq_false_iff.mp hnone)
  · rw [Bool.not_eq_true] at hhas
    simp only [hhas, Bool.not_false, if_true, run_bind, run_perform, hmade]
    -- the folders are made, or that fails
    rcases r with f | ⟨⟩
    · exact Or.inr (Or.inr ⟨⟨_, rfl⟩, nofun⟩)
    · rcases run_placeOf dir { s with disk := e } with ⟨l, hfolder | hfile, hrun⟩ | ⟨hnone, f, hrun⟩
      · exact Or.inl ⟨rfl, l, hfolder, hrun⟩
      · exact Or.inr (Or.inl ⟨l, hfile, hrun⟩)
      · refine Or.inr (Or.inr ⟨⟨f, hrun⟩, fun _ l hl => ?_⟩)
        rw [has, hl] at hnone
        cases hnone

theorem run_announce (path name : String) (place : Location) (s : Session) :
    ∃ log, (announce path name place).run.run s = (.ok (), { s with log }) := by
  rw [announce]
  split <;> exact ⟨_, rfl⟩

theorem run_refuse (path : String) (s : Session) :
    (refuse path).run.run s =
      (if s.disk.has ((⟨path⟩ : Path).join ⟨configFile⟩) then
        .error { message := "Directory '" ++ path ++ "' already contains a " ++ configFile }
      else .ok (), s) := by
  rw [refuse, run_bind, run_get]
  simp only
  split <;> rfl

theorem run_nameFor (given : Option String) (place : Location) (s : Session) :
    (nameFor given place).run.run s = ((given.or place.getLast?).elim
      (.error { message := "Could not determine project name from path" }) .ok, s) := by
  rw [nameFor]
  cases given.or place.getLast? <;> rfl

/-- Behind a file nothing is written. -/
theorem scaffold_behind_file (h : d.locate dir = .ok (.file l)) (name : String) :
    (scaffold dir name).run.run d = (.error .notFolder, d) := by
  rw [scaffold, run_bind, makeFolders_behind_file h (by decide)]

/-- In the folder of a project, or behind a file, the command stops for want of a name or because of a
project file, or it makes the files. -/
theorem run_init_entered {path : String} (given : Option String) {s : Session}
    (henter : (enter ⟨path⟩).run.run s = (.ok l, { s with disk := e })) :
    (∃ f log, (init path given).run.run s = (.error f, { s with disk := e, log })) ∧
        (∀ name, given.or l.getLast? = some name → e.has ((⟨path⟩ : Path).join ⟨configFile⟩) = true) ∨
      ∃ name log, given.or l.getLast? = some name ∧
        e.has ((⟨path⟩ : Path).join ⟨configFile⟩) = false ∧ (init path given).run.run s =
          (((scaffold ⟨path⟩ name).run.run e).1.mapError bareFailure,
            { s with disk := ((scaffold ⟨path⟩ name).run.run e).2, log }) := by
  rw [init_eq, run_bind]
  simp only [henter, run_bind, run_nameFor]
  cases hname : given.or l.getLast? with
  | none => exact Or.inl ⟨⟨_, _, rfl⟩, nofun⟩
  | some name =>
    simp only [Option.elim, run_refuse]
    by_cases hhas : e.has ((⟨path⟩ : Path).join ⟨configFile⟩) = true
    · simp only [hhas, if_true]
      exact Or.inl ⟨⟨_, _, rfl⟩, fun _ _ => trivial⟩
    · rw [Bool.not_eq_true] at hhas
      refine Or.inr ⟨name, ?_⟩
      simp only [hhas, Bool.false_eq_true, if_false, run_info, run_perform]
      -- the summary is only printed if all files are written
      rcases hscaffold : (scaffold ⟨path⟩ name).run.run e with ⟨f | ⟨⟩, e'⟩
      · exact ⟨_, trivial, trivial, rfl⟩
      · obtain ⟨log, hannounce⟩ := run_announce path name l { s with disk := e', log := _ }
        exact ⟨log, trivial, trivial, hannounce⟩

/-- The run of a command that makes a project either is ready to do so, and then it does, or it fails
before any file is written. -/
theorem init_cases (d : Disk) (path : String) (given : Option String) :
    (∃ f log, (init path given).run.run { disk := d } =
        (.error f, { disk := ((makeFolders ⟨path⟩).run.run d).2, log }) ∧
          ∀ e l name, ¬ Ready d ⟨path⟩ given e l name) ∨
      ∃ e l name log, Ready d ⟨path⟩ given e l name ∧ (init path given).run.run { disk := d } =
        (((scaffold ⟨path⟩ name).run.run e).1.mapError bareFailure,
          { disk := ((scaffold ⟨path⟩ name).run.run e).2, log }) := by
  rcases hmade : (makeFolders ⟨path⟩).run.run d with ⟨r, e⟩
  have hready : ∀ {e' l name}, Ready d ⟨path⟩ given e' l name → r = .ok () ∧ e' = e := by
    intro e' l name h
    obtain ⟨hr, he⟩ := Prod.mk.inj (h.made.symm.trans hmade)
    exact ⟨hr.symm, he⟩
  rcases run_enter (s := { disk := d }) hmade with
    ⟨rfl, l, hfolder, henter⟩ | ⟨l, hfile, henter⟩ | ⟨⟨f, henter⟩, hnone⟩
  · rcases run_init_entered given henter with
      ⟨⟨f, log, hrun⟩, hthere⟩ | ⟨name, log, hname, hfresh, hrun⟩
    · refine Or.inl ⟨f, log, hrun, fun e' l' name h => ?_⟩
      obtain ⟨-, rfl⟩ := hready h
      obtain rfl : l' = l := Spot.folder.inj (Except.ok.inj (h.located.symm.trans hfolder))
      exact Bool.eq_false_iff.mp h.fresh (hthere name h.named)
    · exact Or.inr ⟨e, l, name, log, ⟨hmade, hfolder, hname, hfresh⟩, hrun⟩
  · -- behind a file the files cannot be made
    have hnone : ∀ e' l' name, ¬ Ready d ⟨path⟩ given e' l' name := by
      intro e' l' name h
      obtain ⟨-, rfl⟩ := hready h
      cases h.located.symm.trans hfile
    rcases run_init_entered given henter with
      ⟨⟨f, log, hrun⟩, -⟩ | ⟨name, log, -, -, hrun⟩
    · exact Or.inl ⟨f, log, hrun, hnone⟩
    · rw [scaffold_behind_file hfile] at hrun
      exact Or.inl ⟨_, log, hrun, hnone⟩
  · rw [init_eq, run_bind]
    simp only [henter]
    refine Or.inl ⟨_, _, rfl, fun e' l' name h => ?_⟩
    obtain ⟨hr, rfl⟩ := hready h
    exact hnone hr l' h.located

/-! ## The files of a new project -/

/-- The texts of a new project, in the order in which they are written. -/
def newTexts (dir : Path) (name : String) : List (Path × String) :=
  [(dir.join ⟨configFile⟩, projectText name), (dir.join ⟨"designs/example.yaml"⟩, exampleDesign),
    (dir.join ⟨".gitignore"⟩, ignoredFiles)]

/-- The places of these texts. -/
def newPlaces (l : Location) : List Location :=
  [l ++ [configFile], l ++ ["designs", "example.yaml"], l ++ [".gitignore"]]

/-- `e'` comes from `e` by writing the first `k` files of a new project, which are as many as
possible. -/
structure Scaffolds (e : Disk) (dir : Path) (l : Location) (name : String) (k : Nat) (e' : Disk) :
    Prop where
  writes : e.Writes e' ((newTexts dir name).take k)
  design : 2 ≤ k ↔ e.spot (l ++ ["designs"]) ≠ .file (l ++ ["designs"]) ∧
    e.spot (l ++ ["designs", "example.yaml"]) ≠ .folder (l ++ ["designs", "example.yaml"])
  ignored : 3 ≤ k ↔ 2 ≤ k ∧ e.spot (l ++ [".gitignore"]) ≠ .folder (l ++ [".gitignore"])

theorem Ready.vacant (h : Ready d dir given e l name) :
    e.spot (l ++ [configFile]) = .vacant (l ++ [configFile]) := by
  have hfresh := h.fresh
  have hlocation := spot_location e (l ++ [configFile])
  rw [has, locate_join h.located (by decide)] at hfresh
  cases hs : e.spot (l ++ [configFile]) with
  | folder x => simp [hs] at hfresh
  | file x => simp [hs] at hfresh
  | vacant x =>
    rw [hs] at hlocation
    obtain rfl : x = l ++ [configFile] := hlocation
    rfl

/-- The folder of designs is made and nothing else, unless there is a file in its place. -/
theorem Ready.designs_cases (h : Ready d dir given e l name) (htree : e.IsTree) :
    e.spot (l ++ ["designs"]) = .file (l ++ ["designs"]) ∧
        (makeFolders (dir.join ⟨"designs"⟩)).run.run e = (.error .isThere, e) ∨
      e.spot (l ++ ["designs"]) ≠ .file (l ++ ["designs"]) ∧
        ∃ e', (makeFolders (dir.join ⟨"designs"⟩)).run.run e = (.ok (), e') ∧ e.Writes e' [] ∧
          e'.spot (l ++ ["designs"]) = .folder (l ++ ["designs"]) ∧
          ∀ ns, ns ≠ [] → ns ≠ ["designs"] → e'.spot (l ++ ns) = e.spot (l ++ ns) := by
  rcases makeFolders_below htree h.located (n := "designs") (by decide) with
    hfile | ⟨hfree, e', hrun, hopens⟩
  · exact Or.inl hfile
  · refine Or.inr ⟨hfree, e', hrun, makeFolders_saves _ e e' () hrun, hopens.there, ?_⟩
    intro ns hne hns
    -- a new folder is on the way to `designs`, but what is on this way is there already
    refine (hopens.spot (l ++ ns)).resolve_right fun ⟨habove, _⟩ => ?_
    rw [List.prefix_append_right_inj, List.prefix_cons_iff] at habove
    rcases habove with rfl | ⟨t, rfl, hnil⟩
    · exact hne rfl
    · exact hns (by rw [List.prefix_nil.mp hnil])

/-- A file is written to a folder that has been there, or has been made, unless there is a folder in
its place. -/
theorem saveText_cases {p q : Path} {m : Location} {n : String} {ts : List (Path × String)}
    (h : e.Writes e' ts) (hp : e'.locate p = .ok (.folder m)) (hn : IsFileName n)
    (hq : q = p.join ⟨n⟩) (text : String) :
    e'.spot (m ++ [n]) = .folder (m ++ [n]) ∧
        (saveText q text).run.run e' = (.error .isFolder, e') ∨
      e'.spot (m ++ [n]) ≠ .folder (m ++ [n]) ∧
        ∃ e'', (saveText q text).run.run e' = (.ok (), e'') ∧ e.Writes e'' (ts ++ [(q, text)]) ∧
          ∀ x, x ≠ m ++ [n] → e''.spot x = e'.spot x := by
  have hrun := saveText_below hp hn text
  rw [← hq] at hrun
  by_cases hfolder : e'.spot (m ++ [n]) = .folder (m ++ [n])
  · rw [if_pos hfolder] at hrun
    exact Or.inl ⟨hfolder, hrun⟩
  · rw [if_neg hfolder] at hrun
    refine Or.inr ⟨hfolder, _, hrun, h.trans (saveText_saves q text e' _ () hrun), fun x hx => ?_⟩
    rw [spot_putFile e' hfolder, if_neg hx]

theorem scaffold_cases (h : Ready d dir given e l name) (htree : e.IsTree) :
    ∃ k ≤ 3, Scaffolds e dir l name k ((scaffold dir name).run.run e).2 ∧
      (((scaffold dir name).run.run e).1 = .ok () ↔ k = 3) := by
  have hexample : dir.join ⟨"designs/example.yaml"⟩ = (dir.join ⟨"designs"⟩).join ⟨"example.yaml"⟩ :=
    (Path.join_join (a := "designs") (b := "example.yaml") (by decide) (by decide)).symm
  rw [scaffold, run_bind]
  rcases h.designs_cases htree with ⟨hfile, hrun₁⟩ | ⟨hfree, e₁, hrun₁, hwrites₁, hthere, hspot₁⟩
  · rw [hrun₁]
    exact ⟨0, by omega, ⟨(Extends.refl e).writes, by simp [hfile], by simp⟩, by simp⟩
  simp only [hrun₁, run_bind]
  -- the project file goes to a vacant place
  rcases saveText_cases hwrites₁ (hwrites₁.frame.locate h.located nofun) (n := configFile)
    (by decide) rfl (projectText name) with ⟨hfolder, -⟩ | ⟨-, e₂, hrun₂, hwrites₂, hspot₂⟩
  · rw [hspot₁ _ (by simp) (by decide), h.vacant] at hfolder
    cases hfolder
  simp only [hrun₂]
  -- the design goes to the folder that has been made
  have hdir₂ := hwrites₂.frame.locate h.located nofun
  have hdesigns : e₂.locate (dir.join ⟨"designs"⟩) = .ok (.folder (l ++ ["designs"])) := by
    rw [locate_join hdir₂ (by decide), hspot₂ _ (by simp [configFile]), hthere]
  have hspot₂' : e₂.spot (l ++ ["designs", "example.yaml"]) =
      e.spot (l ++ ["designs", "example.yaml"]) := by
    rw [hspot₂ _ (by simp), hspot₁ _ (by simp) (by simp)]
  have hdesign := saveText_cases hwrites₂ hdesigns (n := "example.yaml") (by decide) hexample
    exampleDesign
  rw [List.append_assoc, List.singleton_append, hspot₂'] at hdesign
  rcases hdesign with ⟨hdesign, hrun₃⟩ | ⟨hdesign, e₃, hrun₃, hwrites₃, hspot₃⟩
  · rw [hrun₃]
    exact ⟨1, by omega, ⟨hwrites₂, by simp [hdesign], by simp⟩, by simp⟩
  simp only [hrun₃]
  -- the list of ignored files stands beside the project file
  have hspot₃' : e₃.spot (l ++ [".gitignore"]) = e.spot (l ++ [".gitignore"]) := by
    rw [hspot₃ _ (by simp), hspot₂ _ (by simp [configFile]), hspot₁ _ (by simp) (by simp)]
  have hignored := saveText_cases hwrites₃ (hwrites₃.frame.locate h.located nofun)
    (n := ".gitignore") (by decide) rfl ignoredFiles
  rw [hspot₃'] at hignored
  rcases hignored with ⟨hignored, hrun₄⟩ | ⟨hignored, e₄, hrun₄, hwrites₄, -⟩
  · rw [hrun₄]
    exact ⟨2, by omega, ⟨hwrites₃, by simp [hfree, hdesign], by simp [hignored]⟩, by simp⟩
  · rw [hrun₄]
    exact ⟨3, by omega, ⟨hwrites₄, by simp [hfree, hdesign], by simp [hignored]⟩, by simp⟩

/-! ## What is overwritten -/

theorem Ready.frame (h : Ready d dir given e l name) : d.Extends e [] :=
  (makeFolders_saves dir d e () h.made).frame

/-- A file that was there still is when the folders are made. -/
theorem Ready.spot_of_content (h : Ready d dir given e l name) (htree : d.IsTree) {x : Location}
    (hthere : (d.content? x).isSome) : e.spot x = .file x :=
  h.frame.file x (htree.spot_of_mem (isSome_content?_iff.mp hthere))

theorem Ready.tree (h : Ready d dir given e l name) (htree : d.IsTree) : e.IsTree := by
  have hgrows : d.Grows ((makeFolders dir).run.run d).2 :=
    makeFolders_moves (fun _ _ _ => makeFolder_grows) dir d
  rw [h.made] at hgrows
  exact hgrows.tree htree

theorem Ready.target (h : Ready d dir given e l name) : d.target dir = l := by
  rw [← h.frame.target]
  exact (walk_place (locate_eq_ok_iff.mp h.located).2.1).symm

theorem Ready.targets (h : Ready d dir given e l name) :
    e.targets (newTexts dir name) = newPlaces l := by
  have htarget : e.target dir = l := (h.frame.target dir).trans h.target
  have hjoin : ∀ q : Path, q.isAbsolute = false → (∀ n ∈ q.names, IsFileName n) →
      e.target (dir.join q) = l ++ q.names := fun q hq hnames => by
    rw [target_join e hq hnames, htarget]
  simp only [Disk.targets, newTexts, newPlaces, List.map_cons, List.map_nil]
  rw [hjoin ⟨configFile⟩ (by decide) (by decide),
    hjoin ⟨"designs/example.yaml"⟩ (by decide) (by decide),
    hjoin ⟨".gitignore"⟩ (by decide) (by decide)]
  rfl

/-- A file with other contents than a text. -/
def Differs (d : Disk) (l : Location) (text : String) : Prop :=
  ∃ bytes, d.content? l = some bytes ∧ bytes ≠ text.toUTF8

/-- A new project overwrites a design with the name of its own, and a list of ignored files if it gets
so far. -/
def Overwrites (d : Disk) (dir : Path) (given : Option String) : Prop :=
  ∃ e l name, Ready d dir given e l name ∧
    (Differs d (l ++ ["designs", "example.yaml"]) exampleDesign ∨
      e.spot (l ++ ["designs"]) ≠ .file (l ++ ["designs"]) ∧
        e.spot (l ++ ["designs", "example.yaml"]) ≠ .folder (l ++ ["designs", "example.yaml"]) ∧
        Differs d (l ++ [".gitignore"]) ignoredFiles)

/-- What a report says about the files that were there before a project was made. -/
structure Report.Keeps (r : Report) (d : Disk) (path : String) (given : Option String) : Prop where
  folder : ∀ l, d.spot l = .folder l → r.disk.spot l = .folder l
  file : ∀ l, d.spot l = .file l → r.disk.spot l = .file l
  /-- What is new or different is a file of the project. -/
  changed : ∀ l, r.disk.content? l ≠ d.content? l →
    ∃ name bytes, (l, bytes) ∈ d.writes (newTexts ⟨path⟩ name) ∧ r.disk.content? l = some bytes
  /-- Where there is a project file, no file is added or changed. -/
  guarded : (d.content? (d.target ⟨path⟩ ++ [configFile])).isSome →
    r.exit = 1 ∧ ∀ l, r.disk.content? l = d.content? l
  /-- The same is true of a run that has failed because of it. -/
  refused : r.failure = some
      { message := "Directory '" ++ path ++ "' already contains a " ++ configFile } →
    ∀ l, r.disk.content? l = d.content? l
  /-- Exactly then no file loses its contents. -/
  kept : (∀ l bytes, d.content? l = some bytes → r.disk.content? l = some bytes) ↔
    ¬ Overwrites d ⟨path⟩ given

theorem newPlaces_nodup (l : Location) : (newPlaces l).Nodup := by
  simp [newPlaces, configFile]

theorem mem_take_newPlaces {l x : Location} {k : Nat} :
    x ∈ (newPlaces l).take k ↔ 1 ≤ k ∧ x = l ++ [configFile] ∨
      2 ≤ k ∧ x = l ++ ["designs", "example.yaml"] ∨ 3 ≤ k ∧ x = l ++ [".gitignore"] := by
  rcases k with _ | _ | _ | k <;> simp [newPlaces]

section Scaffolds

variable {k : Nat} (h : Ready d dir given e l name)

include h

theorem Ready.targets_take (k : Nat) :
    e.targets ((newTexts dir name).take k) = (newPlaces l).take k := by
  rw [← h.targets, Disk.targets, Disk.targets, List.map_take]

variable (hs : Scaffolds e dir l name k e')

include hs

theorem Scaffolds.frame : d.Extends e' ((newPlaces l).take k) := by
  rw [← h.targets_take]
  exact h.frame.trans hs.writes.frame

theorem Scaffolds.holds {q : Path} {text : String} (hq : (q, text) ∈ (newTexts dir name).take k) :
    e'.Holds q text := by
  have hnodup : (e.targets ((newTexts dir name).take k)).Nodup := by
    rw [h.targets_take]
    exact (newPlaces_nodup l).sublist (List.take_sublist k _)
  exact hs.writes.holds hnodup _ hq

theorem Scaffolds.content {q : Path} {text : String}
    (hq : (q, text) ∈ (newTexts dir name).take k) : e'.content? (e.target q) = some text.toUTF8 := by
  rw [← hs.writes.frame.target]
  exact (hs.holds h hq).content

/-- What is written at each place, if it is reached. -/
theorem Scaffolds.contents :
    (1 ≤ k → e'.content? (l ++ [configFile]) = some (projectText name).toUTF8) ∧
      (2 ≤ k → e'.content? (l ++ ["designs", "example.yaml"]) = some exampleDesign.toUTF8) ∧
      (3 ≤ k → e'.content? (l ++ [".gitignore"]) = some ignoredFiles.toUTF8) := by
  have hplaces := h.targets
  simp only [Disk.targets, newTexts, newPlaces, List.map_cons, List.map_nil, List.cons.injEq] at hplaces
  obtain ⟨hconfig, hexample, hignored, -⟩ := hplaces
  rw [← hconfig, ← hexample, ← hignored]
  refine ⟨fun hk => hs.content h ?_, fun hk => hs.content h ?_, fun hk => hs.content h ?_⟩
  · exact List.mem_take_iff_getElem.mpr ⟨0, by simp [newTexts]; omega, rfl⟩
  · exact List.mem_take_iff_getElem.mpr ⟨1, by simp [newTexts]; omega, rfl⟩
  · exact List.mem_take_iff_getElem.mpr ⟨2, by simp [newTexts]; omega, rfl⟩

/-- A file that is there is written if it has the place of a text. -/
theorem Scaffolds.design_of_content (htree : d.IsTree) {bytes : ByteArray}
    (hthere : d.content? (l ++ ["designs", "example.yaml"]) = some bytes) : 2 ≤ k := by
  have hfile := h.spot_of_content htree (Option.isSome_of_mem hthere)
  have hfolder : e.spot (l ++ ["designs"]) = .folder (l ++ ["designs"]) := by
    refine (h.tree htree).spot_above (List.cons_ne_nil "example.yaml" []) ?_
    rw [List.append_assoc, List.singleton_append, hfile]
    exact nofun
  rw [hs.design, hfile, hfolder]
  exact ⟨nofun, nofun⟩

theorem Scaffolds.ignored_of_content (htree : d.IsTree) {bytes : ByteArray} (hk : 2 ≤ k)
    (hthere : d.content? (l ++ [".gitignore"]) = some bytes) : 3 ≤ k := by
  have hfile := h.spot_of_content htree (Option.isSome_of_mem hthere)
  rw [hs.ignored, hfile]
  exact ⟨hk, nofun⟩

theorem Scaffolds.kept_iff (htree : d.IsTree) :
    (∀ x bytes, d.content? x = some bytes → e'.content? x = some bytes) ↔ ¬ Overwrites d dir given := by
  obtain ⟨-, hdesign, hignored⟩ := hs.contents h
  constructor
  · rintro hkeep ⟨e₀, l₀, name₀, h₀, hover⟩
    obtain ⟨rfl, rfl, rfl⟩ := h.unique h₀
    rcases hover with ⟨bytes, hthere, hne⟩ | ⟨hfree, hfree', bytes, hthere, hne⟩
    · have hk := hs.design_of_content h htree hthere
      exact hne (Option.some.inj ((hkeep _ _ hthere).symm.trans (hdesign hk)))
    · have hk := hs.ignored_of_content h htree (hs.design.mpr ⟨hfree, hfree'⟩) hthere
      exact hne (Option.some.inj ((hkeep _ _ hthere).symm.trans (hignored hk)))
  · intro hover x bytes hthere
    by_cases hx : x ∈ (newPlaces l).take k
    · by_contra hlost
      refine hover ⟨e, l, name, h, ?_⟩
      rcases mem_take_newPlaces.mp hx with ⟨-, rfl⟩ | ⟨hk, rfl⟩ | ⟨hk, rfl⟩
      · -- where the project file goes there was nothing
        cases h.vacant.symm.trans (h.spot_of_content htree (Option.isSome_of_mem hthere))
      · refine Or.inl ⟨bytes, hthere, ?_⟩
        rintro rfl
        exact hlost (hdesign hk)
      · have hk' := (hs.ignored.mp hk).1
        refine Or.inr ⟨(hs.design.mp hk').1, (hs.design.mp hk').2, bytes, hthere, ?_⟩
        rintro rfl
        exact hlost (hignored hk)
    · rw [(hs.frame h).content x hx, hthere]

end Scaffolds

/-- A failure because of a file says something else than one because of a project. -/
theorem bareFailure_ne (f : FileError) (path : String) :
    bareFailure f ≠ { message := "Directory '" ++ path ++ "' already contains a " ++ configFile } := by
  intro heq
  have hhead := congrArg (fun f : Failure => f.message.toList.head?) heq
  simp only [String.toList_append, List.append_assoc] at hhead
  cases f <;> simp [bareFailure, FileError.message] at hhead

/--
**A new project only adds files, but for two of its own names.** Whatever is there stays there, and a
folder with a project is left alone. A file loses its contents exactly if it has the place of the
first design, or of the list of ignored files, in a folder without a project file.
-/
theorem run_init_keeps {arguments : List String} {config path : String} (htree : d.IsTree)
    (harguments : Invocation.ofArguments arguments = some (.run config (.init path given))) :
    (run d arguments).Keeps d path given := by
  rw [run_of_arguments harguments]
  rcases init_cases d path given with ⟨f, log, hrun, hnone⟩ | ⟨e, l, name, log, hready, hrun⟩
  · -- at most folders have been made
    have hext : d.Extends ((makeFolders ⟨path⟩).run.run d).2 [] :=
      makeFolders_moves (R := fun d d' => d.Extends d' []) (fun _ _ _ => makeFolder_extends) _ d
    have hcontent := fun x => hext.content x List.not_mem_nil
    rw [runCommand_of_error (c := .init path given) hrun]
    refine ⟨hext.folder, hext.file, fun x hx => absurd (hcontent x) hx, fun _ => ⟨rfl, hcontent⟩,
      fun _ => hcontent, ?_⟩
    constructor
    · rintro - ⟨e, l, name, hready, -⟩
      exact hnone e l name hready
    · intro _ x bytes hx
      rw [hcontent, hx]
  · obtain ⟨k, -, hs, hok⟩ := scaffold_cases hready (hready.tree htree)
    have hreport : (runCommand d config (.init path given)).disk =
          ((scaffold ⟨path⟩ name).run.run e).2 ∧
        ∀ f, (runCommand d config (.init path given)).failure = some f → ∃ e, f = bareFailure e := by
      rcases hscaffold : (scaffold ⟨path⟩ name).run.run e with ⟨f | ⟨⟩, e'⟩
      · rw [hscaffold] at hrun
        rw [runCommand_of_error (c := .init path given) hrun]
        exact ⟨rfl, fun f' hf => ⟨f, (Option.some.inj hf).symm⟩⟩
      · rw [hscaffold] at hrun
        rw [runCommand_of_ok (c := .init path given) hrun]
        exact ⟨rfl, nofun⟩
    obtain ⟨hdisk, hfailure⟩ := hreport
    rw [← hdisk] at hs
    have hframe := hs.frame hready
    have htarget : d.target ⟨path⟩ = l := hready.target
    refine ⟨hframe.folder, hframe.file, fun x hx => ?_, fun hthere => ?_, fun hrefused => ?_,
      hs.kept_iff hready htree⟩
    · have hmem : x ∈ e.targets ((newTexts ⟨path⟩ name).take k) := by
        by_contra hout
        rw [hready.targets_take] at hout
        exact hx (hframe.content x hout)
      obtain ⟨⟨q, text⟩, hq, rfl⟩ := List.mem_map.mp hmem
      refine ⟨name, text.toUTF8, List.mem_map.mpr ⟨(q, text), List.mem_of_mem_take hq, ?_⟩,
        hs.content hready hq⟩
      rw [hready.frame.target]
    · rw [htarget] at hthere
      cases hready.vacant.symm.trans (hready.spot_of_content htree hthere)
    · obtain ⟨f, hf⟩ := hfailure _ hrefused
      exact absurd hf.symm (bareFailure_ne f path)

/-- A folder whose owner has a list of ignored files already. -/
def occupiedDisk : Disk where
  files := [([".gitignore"], "mine\n".toUTF8), (["src", "notes.txt"], "notes\n".toUTF8)]
  folders := [["src"]]

theorem occupiedDisk_keeps :
    (run occupiedDisk ["init", "--name", "demo"]).Keeps occupiedDisk "." (some "demo") ∧
      Overwrites occupiedDisk ⟨"."⟩ (some "demo") := by
  have harguments : Invocation.ofArguments ["init", "--name", "demo"] =
      some (.run "pagesmith.yaml" (.init "." (some "demo"))) := by decide +kernel
  have hkeeps := run_init_keeps (d := occupiedDisk) (by decide +kernel) harguments
  refine ⟨hkeeps, by_contra fun hnone => ?_⟩
  have hsame := hkeeps.kept.mpr hnone [".gitignore"] "mine\n".toUTF8 (by decide +kernel)
  exact absurd hsame (by decide +kernel)

/-- The list is lost, in a run that succeeds. -/
theorem occupiedDisk_loses :
    (run occupiedDisk ["init", "--name", "demo"]).exit = 0 ∧
      occupiedDisk.content? [".gitignore"] = some "mine\n".toUTF8 ∧
      (run occupiedDisk ["init", "--name", "demo"]).disk.content? [".gitignore"] =
        some ignoredFiles.toUTF8 ∧
      ignoredFiles ≠ "mine\n" := by
  decide +kernel

end DesignCompiler.Command
