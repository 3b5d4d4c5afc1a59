import DesignCompiler.Proofs.Command.Scaffold
import DesignCompiler.Proofs.Project.Naming
import DesignCompiler.Proofs.Project.Rereading
import DesignCompiler.Proofs.Yaml.Places
import DesignCompiler.Proofs.Yaml.Plain
import DesignCompiler.Proofs.Yaml.Quoted
import DesignCompiler.Proofs.Yaml.Tokens

/-!
# DesignCompiler — the names of new projects

The name of a new project stands in its project file as it was given, without quotes. So it is read
back exactly if it needs none; any other name is read as something else, or the file is no project
file at all.

* `afterName`, `afterLine` — the scanner before and behind the name;
* `ofText_projectText_iff` — the names that are read back from a new project file;
* `run_init_named` — the same for a run of the command.
-/

namespace DesignCompiler.Command

open Yaml Disk

variable {d : Disk} {name : String} {cs : List Char} {limit : Nat}

/-! ## Project files -/

/-- What precedes the name, up to a blank. -/
def titleText : String :=
  "# Pagesmith Project Configuration\nname:"

theorem titleText_toList : ∃ rest, titleText.toList = '#' :: rest ∧ rest.length = 38 ∧
    rest.all isAllowed = true :=
  ⟨_, String.toList_ofList, rfl, rfl⟩

/-- What follows the line with the name. -/
def settingsText : String :=
  "version: \"0.1.0\"\n\ndesigns_dir: designs\noutput_dir: .pagesmith/out\n\n" ++
  "emit:\n  dialect: html\n  indent: 2\n  wrap_document: false\n"

/-- In front of the next line no key is indented, and nothing in it could end a quoted text. -/
theorem settingsText_toList : ∃ rest, settingsText.toList = 'v' :: rest ∧ rest.length = 123 ∧
    rest.all isAllowed = true ∧ ∀ double, ('v' :: rest).countP (escapes double) = 0 := by
  have htext : settingsText.toList = _ ++ _ :=
    String.toList_append.trans (congrArg₂ (· ++ ·) String.toList_ofList String.toList_ofList)
  refine ⟨_, htext, rfl, rfl, ?_⟩
  rintro (_ | _) <;> rfl

theorem projectText_toList (name : String) :
    (projectText name).toList =
      titleText.toList ++ ' ' :: (name.toList ++ '\n' :: settingsText.toList) := by
  have happend : ∀ a b c d : String, (a ++ " " ++ b ++ ("\n" ++ c) ++ d).toList =
      a.toList ++ ' ' :: (b.toList ++ '\n' :: (c ++ d).toList) := by
    intro a b c d
    simp
  have htitle : "# Pagesmith Project Configuration\nname: " = titleText ++ " " := by
    cbv
  have hsettings : "\nversion: \"0.1.0\"\n\ndesigns_dir: designs\noutput_dir: .pagesmith/out\n\n" =
      "\n" ++ "version: \"0.1.0\"\n\ndesigns_dir: designs\noutput_dir: .pagesmith/out\n\n" := by
    cbv
  have htext : projectText name = _ := congrArg₂ (fun a b => a ++ name ++ b ++
    "emit:\n  dialect: html\n  indent: 2\n  wrap_document: false\n") htitle hsettings
  exact (congrArg String.toList htext).trans (happend _ _ _ _)

/-- The scanner behind the key of the name. -/
def afterName (cs : List Char) : Scanner where
  cursor := { rest := cs, index := 39, line := 1, column := 5 }
  tokens := [.value, .scalar "name" true, .key, .blockMappingStart]
  indent := 0
  outerIndents := [-1]
  keyAllowed := false

/-- The scanner behind the line with the name, if nothing stood before it. -/
def afterLine (name : String) : Scanner where
  cursor := { rest := settingsText.toList, line := 2 }
  tokens := .scalar name true :: (afterName []).tokens
  indent := 0
  outerIndents := [-1]

theorem takeTokens_title (cs : List Char) (limit : Nat) :
    ({ cursor := { rest := titleText.toList ++ ' ' :: cs } } : Scanner).takeTokens (limit + 2) =
      (afterName (' ' :: cs)).takeTokens limit := by
  have htext : titleText.toList = _ := String.toList_ofList
  rw [htext]
  cbv

/-- The tokens before the name. -/
def titleTokens : List Token :=
  [.blockMappingStart, .key, .scalar "name" true, .value]

/-- The tokens behind the name. -/
def settingsTokens : List Token :=
  [.key, .scalar "version" true, .value, .scalar "0.1.0" false,
    .key, .scalar "designs_dir" true, .value, .scalar "designs" true,
    .key, .scalar "output_dir" true, .value, .scalar ".pagesmith/out" true,
    .key, .scalar "emit" true, .value, .blockMappingStart,
    .key, .scalar "dialect" true, .value, .scalar "html" true,
    .key, .scalar "indent" true, .value, .scalar "2" true,
    .key, .scalar "wrap_document" true, .value, .scalar "false" true, .blockEnd, .blockEnd]

/-- The tokens of a new project file, with those of the name. -/
def newTokens (name : List Token) : List Token :=
  titleTokens ++ name ++ settingsTokens

theorem takeTokens_settings (name : String) :
    ((afterLine name).takeTokens 60).map (·.tokens.reverse) =
      some (newTokens [.scalar name true]) := by
  have htext : settingsText.toList = _ ++ _ :=
    String.toList_append.trans (congrArg₂ (· ++ ·) String.toList_ofList String.toList_ofList)
  rw [afterLine, htext]
  cbv

/-- The scanner in front of the name of a project file. -/
def atName (name : String) : Scanner :=
  afterName (' ' :: (name.toList ++ '\n' :: settingsText.toList))

theorem scan?_projectText (name : String) :
    Token.scan? (projectText name) =
      if name.toList.all isAllowed then
        ((atName name).takeTokens (name.toList.length + 164)).map (·.tokens.reverse)
      else none := by
  obtain ⟨title, htitle, htitleLength, htitleAllowed⟩ := titleText_toList
  obtain ⟨settings, hsettings, hsettingsLength, hsettingsAllowed, -⟩ := settingsText_toList
  have hmark : dropMark (dropMark (projectText name).toList) = (projectText name).toList := by
    rw [projectText_toList, htitle]
    rfl
  -- two steps are for the title, the others for what is behind it
  have hlength : (projectText name).toList.length + 1 = name.toList.length + 164 + 2 := by
    rw [projectText_toList, htitle, hsettings]
    simp only [List.length_append, List.length_cons, htitleLength, hsettingsLength]
    omega
  -- only the name can have characters that are not allowed
  have hallowed : (projectText name).toList.all isAllowed = name.toList.all isAllowed := by
    have hfixed : isAllowed '#' = true ∧ isAllowed ' ' = true ∧ isAllowed '\n' = true ∧
        isAllowed 'v' = true := by decide
    rw [projectText_toList, htitle, hsettings]
    simp only [List.all_append, List.all_cons, htitleAllowed, hsettingsAllowed, hfixed,
      Bool.true_and, Bool.and_true]
  rw [Token.scan?, hmark]
  dsimp only
  rw [hallowed, hlength, projectText_toList, takeTokens_title, ← atName]
  cases name.toList.all isAllowed with
  | true =>
    simp only [Bool.not_true, Bool.false_eq_true, if_false, if_true]
    cases (atName name).takeTokens (name.toList.length + 164) <;> rfl
  | false => rfl

/-! ## Names that need no quotes -/

theorem atNext_atName {x : Char} {rest : List Char} (hname : name.toList = x :: rest)
    (hx : isGap x = false) (hsign : x ≠ '#') : (atName name).atNext = (atName name).skip 1 := by
  have hrest : (atName name).cursor.rest = ' ' :: x :: (rest ++ '\n' :: settingsText.toList) := by
    rw [atName, hname]
    rfl
  have hnext := Scanner.toNext_blank hrest hx hsign ((rest ++ '\n' :: settingsText.toList).length + 1)
  rw [Scanner.atNext, hrest, List.length_cons, List.length_cons, hnext]
  rfl

theorem takeTokens_atName (h : IsPlain name.toList) (limit : Nat) :
    (atName name).takeTokens (limit + 1) =
      ((afterLine name).moved (41 + name.toList.length)).takeTokens limit := by
  obtain ⟨x, rest, hname, hx, hsign⟩ := h.words.exists_cons
  obtain ⟨settings, hsettings, -⟩ := settingsText_toList
  have hrest : ((atName name).skip 1).cursor.rest = name.toList ++ '\n' :: 'v' :: settings := by
    rw [atName, hsettings]
    rfl
  rw [Scanner.takeTokens_succ (by rw [atNext_atName hname hx hsign, hrest]; simp),
    atNext_atName hname hx hsign,
    Scanner.takeToken_of_isPlain h (by decide) rfl rfl (Int.le_refl 0) (show (0 : Int) < 6 by decide)
      hrest, Option.bind_some]
  have hline : (((atName name).skip 1).cursor.skip name.toList.length).skipBreak =
      { rest := 'v' :: settings, index := 41 + name.toList.length, line := 2 } := by
    rw [Cursor.skipBreak, Cursor.rest_skip hrest]
    -- the title, the name, and two characters more
    show Cursor.mk _ (39 + 1 + name.toList.length + 1) _ _ = _
    rw [show 39 + 1 + name.toList.length + 1 = 41 + name.toList.length by omega]
    rfl
  rw [hline, String.ofList_toList, afterLine, hsettings]
  simp only [Scanner.moved, Cursor.moved, Nat.zero_add]
  rfl

/-- What a name that needs no quotes is scanned to. -/
theorem scan?_of_isPlain (h : IsPlain name.toList) :
    Token.scan? (projectText name) = some (newTokens [.scalar name true]) := by
  have hallowed : name.toList.all isAllowed = true :=
    List.all_eq_true.mpr fun x hx => (h.line x hx).1
  obtain ⟨s, hs, htokens⟩ := Option.map_eq_some_iff.mp (takeTokens_settings name)
  rw [scan?_projectText, if_pos hallowed, takeTokens_atName h, Scanner.takeTokens_moved,
    Scanner.takeTokens_mono hs (by omega), Option.map_some, Option.map_some, Scanner.moved_tokens,
    htokens]

/-- The document of a new project file. -/
def newNode (name : String) : Yaml.Node :=
  let plain s := Yaml.Node.scalar s true
  .mapping [(plain "name", plain name), (plain "version", .scalar "0.1.0" false),
    (plain "designs_dir", plain "designs"), (plain "output_dir", plain ".pagesmith/out"),
    (plain "emit", .mapping [(plain "dialect", plain "html"), (plain "indent", plain "2"),
      (plain "wrap_document", plain "false")])]

theorem ofTokens?_newTokens (name : String) :
    Yaml.Node.ofTokens? (newTokens [.scalar name true]) = some (newNode name) := by
  rfl

theorem read_newNode (name : String) : Config.layout.read (newNode name) = .ok { name } := by
  rfl

theorem ofText_of_ofText? {text : String} (base : Path)
    (h : Yaml.Node.ofText? text = some (newNode name)) :
    Project.ofText base text = .ok { config := { name }, base } :=
  Project.ofText_eq_ok_iff.mpr ⟨_, h, read_newNode name, rfl, rfl⟩

/-- A name that needs no quotes is read back. -/
theorem ofText_of_isPlain (h : IsPlain name.toList) (base : Path) :
    Project.ofText base (projectText name) = .ok { config := { name }, base } := by
  refine ofText_of_ofText? base ?_
  rw [Yaml.Node.ofText?, scan?_of_isPlain h, Option.bind_some, ofTokens?_newTokens]

set_option maxRecDepth 2000 in
theorem takeTokens_empty :
    ((atName "").takeTokens 60).map (·.tokens.reverse) = some (newTokens []) := by
  have htext : settingsText.toList = _ ++ _ :=
    String.toList_append.trans (congrArg₂ (· ++ ·) String.toList_ofList String.toList_ofList)
  rw [atName, htext]
  cbv

theorem ofTokens?_newTokens_nil : Yaml.Node.ofTokens? (newTokens []) = some (newNode "") := by
  rfl

/-- So is the empty name: it is what a value that is left out reads as. -/
theorem ofText_empty (base : Path) :
    Project.ofText base (projectText "") = .ok { config := { name := "" }, base } := by
  have hempty : "".toList = [] := rfl
  obtain ⟨s, hs, htokens⟩ := Option.map_eq_some_iff.mp takeTokens_empty
  refine ofText_of_ofText? base ?_
  rw [Yaml.Node.ofText?, scan?_projectText, hempty, List.all_nil, if_pos rfl,
    Scanner.takeTokens_mono hs (by omega), Option.map_some, htokens, Option.bind_some,
    ofTokens?_newTokens_nil]

/-! ## Other names -/

/-- What is left of the name and the lines behind it when the first token is read. -/
theorem exists_rest_atNext (name : String) :
    ∃ mid settings, (atName name).atNext.cursor.rest = mid ++ 'v' :: settings ∧
      mid <:+ ' ' :: name.toList ++ ['\n'] ∧ settingsText.toList = 'v' :: settings := by
  obtain ⟨settings, hsettings, -⟩ := settingsText_toList
  obtain ⟨c, allowed, hnext, hc⟩ := (atName name).atNext_eq (Int.le_refl 0)
  have hrest : (atName name).cursor.rest = (' ' :: name.toList) ++ '\n' :: 'v' :: settings := by
    rw [atName, hsettings]
    rfl
  obtain ⟨mid, hmid, hsuffix⟩ := Scanner.toNext_before (by decide) (by decide)
    (by decide) ((atName name).cursor.rest.length + 1) hrest
  refine ⟨mid, settings, ?_, hsuffix, hsettings⟩
  rw [hnext, ← hmid]
  exact congrArg Cursor.rest hc

/-- A quoted text is not what stands between the key and the next line. -/
theorem ne_of_quoted {double : Bool} {text rest : List Char} {next : Cursor}
    (hrest : (atName name).atNext.cursor.rest = (if double then '"' else '\'') :: rest)
    (htext : takeQuoted double limit ((atName name).atNext.cursor.skip 1) = some (text, next)) :
    text ≠ name.toList := by
  obtain ⟨mid, settings, hmid, hsuffix, hsettings⟩ := exists_rest_atNext name
  obtain ⟨_, hsettings', -, -, hescapes⟩ := settingsText_toList
  obtain rfl := (List.cons.inj (hsettings.symm.trans hsettings')).2
  have hquote : marks double (if double then '"' else '\'') = true := by
    cases double <;> rfl
  -- the quote is a character of the name, not of the settings behind it
  obtain ⟨mid, rfl, rfl⟩ : ∃ m, mid = (if double then '"' else '\'') :: m ∧
      rest = m ++ 'v' :: settings := by
    rw [hrest] at hmid
    cases mid with
    | nil =>
      have hv := (List.cons.inj hmid).1
      cases double <;> cases hv
    | cons y m =>
      obtain ⟨rfl, rfl⟩ := List.cons.inj hmid
      exact ⟨m, rfl, rfl⟩
  -- what is read has fewer marks than the name
  have hlt := takeQuoted_lt htext hquote (Cursor.rest_skip_one hrest) hsuffix.sublist
    (hescapes double)
  have hends : (' ' :: name.toList ++ ['\n']).countP (marks double) =
      name.toList.countP (marks double) := by
    cases double <;> simp [marks]
  rintro rfl
  omega

/-- A plain text in front of the next line is that line only if it needs no quotes. -/
theorem isPlain_of_plain {x : Char} {rest : List Char} {p : Plain} {margin : Nat}
    (hne : name.toList ≠ []) (hallowed : ∀ y ∈ name.toList, isAllowed y = true)
    (hmargin : 0 < margin)
    (hrest : (atName name).atNext.cursor.rest = x :: rest)
    (hdash : ¬ (x = '-' ∧ endsWord rest = true))
    (hbegins : Scanner.beginsPlain false (x :: rest) = true)
    (htext : takePlain false margin limit {} (atName name).atNext.cursor = some p)
    (hname : p.text = name.toList) : IsPlain name.toList := by
  obtain ⟨settings, hsettings, -⟩ := settingsText_toList
  -- the text begins with the first character that is no blank, so that was the first of the name
  have hhead := takePlain_head htext (hname ▸ hne)
  rw [hname, hrest, List.head?_cons] at hhead
  obtain ⟨cs, hcs⟩ := List.head?_eq_some_iff.mp hhead
  obtain ⟨hx, hsign⟩ := not_gap_of_beginsPlain hbegins
  have hall : (atName name).atNext.cursor.rest = name.toList ++ '\n' :: 'v' :: settings := by
    rw [atNext_atName hcs hx hsign, atName, hsettings]
    rfl
  have hwords : Words name.toList :=
    ((folds_of_takePlain htext hmargin (by decide) hall).words hname).resolve_left hne
  obtain rfl : rest = cs ++ '\n' :: 'v' :: settings := by
    rw [hrest, hcs] at hall
    exact (List.cons.inj hall).2
  refine hwords.isPlain hallowed ?_
  rw [hcs]
  exact begins_of_beginsPlain hbegins hdash

/-- A text that is read in place of the name is the name only if it needs no quotes. -/
theorem isPlain_of_reads {text : String} {plain : Bool} (hne : name.toList ≠ [])
    (hallowed : ∀ y ∈ name.toList, isAllowed y = true) (h : (atName name).atNext.Reads text plain)
    (htext : text = name) : IsPlain name.toList := by
  obtain ⟨c, allowed, hnext, -⟩ := (atName name).atNext_eq (Int.le_refl 0)
  have hflow : (atName name).atNext.inFlow = false ∧ (atName name).atNext.indent = 0 := by
    rw [hnext]
    exact ⟨rfl, rfl⟩
  -- no quoted text is the name, so the name is read without quotes
  cases h with
  | quoted double hrest hquoted =>
    refine absurd ?_ (ne_of_quoted hrest hquoted)
    rw [← htext, String.toList_ofList]
  | plain hrest hdash hbegins hplain =>
    rw [hflow.1] at hbegins hplain
    rw [hflow.2] at hplain
    refine isPlain_of_plain hne hallowed (by decide) hrest hdash hbegins hplain ?_
    rw [← htext, String.toList_ofList]

theorem keysFrom_atName (name : String) : (atName name).KeysFrom (atName name).tokens.length := by
  refine ⟨Nat.le_refl _, ?_, ?_⟩
  · rintro _ ⟨⟩
  · rintro _ ⟨⟩

/-- The name of a project file, as it is read, is the text that is read in its place, or empty. -/
theorem isPlain_of_ofText {base : Path} {p : Project}
    (h : Project.ofText base (projectText name) = .ok p) (hname : p.config.name = name)
    (hne : name.toList ≠ []) : IsPlain name.toList := by
  obtain ⟨n, hn, hread, -⟩ := Project.ofText_eq_ok_iff.mp h
  obtain ⟨ts, hts, hn⟩ := Option.bind_eq_some_iff.mp hn
  rw [scan?_projectText] at hts
  split at hts
  · rename_i hallowed
    -- the first four tokens are those in front of the name, so the document is a mapping with it
    obtain ⟨s, hs, rfl⟩ := Option.map_eq_some_iff.mp hts
    obtain ⟨later, htokens, hlast⟩ := Scanner.takeTokens_first (keysFrom_atName name) hs
    rw [htokens, List.reverse_append] at hn
    obtain ⟨v, ps, _, ts', hv, rfl⟩ := Yaml.Node.exists_pairs_of_ofTokens? hn
    obtain ⟨plain, rfl⟩ : ∃ plain, v = .scalar name plain := by
      have hvalue := Config.name_of_read hread
      rw [hname] at hvalue
      cases v with
      | scalar text plain =>
        obtain rfl := Option.some.inj hvalue
        exact ⟨plain, rfl⟩
      | sequence _ | mapping _ | deep => cases hvalue
    rcases Yaml.Node.takeUnless_eq_scalar hv with rfl | hfirst
    · exact absurd rfl hne
    · have hmem : Token.scalar name plain ∈ later.getLast? := by
        rw [← List.head?_reverse, show later.reverse = _ from hfirst]
        rfl
      exact isPlain_of_reads hne (List.all_eq_true.mp hallowed) (hlast _ hmem _ _ rfl) rfl
  · cases hts

/-- The names that are read back from a new project file. -/
theorem ofText_projectText_iff (name : String) (base : Path) :
    (∃ p, Project.ofText base (projectText name) = .ok p ∧ p.config.name = name) ↔
      name = "" ∨ IsPlain name.toList := by
  constructor
  · rintro ⟨p, hp, hname⟩
    by_cases hempty : name = ""
    · exact Or.inl hempty
    · refine Or.inr (isPlain_of_ofText hp hname ?_)
      rwa [ne_eq, String.toList_eq_nil_iff]
  · rintro (rfl | hplain)
    · exact ⟨_, ofText_empty base, rfl⟩
    · exact ⟨_, ofText_of_isPlain hplain base, rfl⟩

/-! ## Runs -/

/-- The project in a folder where one has been made is read from the text that was written. -/
theorem Scaffolds.load_iff {e e' : Disk} {path : String} {given : Option String} {l : Location}
    {k : Nat} (h : Ready d ⟨path⟩ given e l name) (hs : Scaffolds e ⟨path⟩ l name k e') (hk : 1 ≤ k)
    {p : Project} :
    Project.load e' ⟨path⟩ = .ok p ↔ Project.ofText ⟨path⟩ (projectText name) = .ok p := by
  have hfolder : e'.folder? ⟨path⟩ = some l :=
    folder?_eq_some_iff.mpr (hs.writes.frame.locate h.located nofun)
  have htext : e'.readText ((⟨path⟩ : Path).join ⟨configFile⟩) = .ok (projectText name) :=
    (hs.holds h (List.mem_take_iff_getElem.mpr ⟨0, by simp [newTexts]; omega, rfl⟩)).readText
  rw [Project.load_eq_ok_iff, Project.locate, hfolder, Option.isSome_some, if_pos rfl, htext]
  constructor
  · rintro ⟨text, htext, hp⟩
    rwa [Except.ok.inj htext]
  · intro hp
    exact ⟨_, rfl, hp⟩

/-- A run that succeeds has made the whole project. -/
theorem exists_scaffolds {arguments : List String} {config path : String} {given : Option String}
    (htree : d.IsTree)
    (harguments : Invocation.ofArguments arguments = some (.run config (.init path given)))
    (hexit : (run d arguments).exit = 0) :
    ∃ e l name, Ready d ⟨path⟩ given e l name ∧
      Scaffolds e ⟨path⟩ l name 3 (run d arguments).disk := by
  rw [run_of_arguments harguments] at hexit ⊢
  rcases init_cases d path given with ⟨f, log, hrun, -⟩ | ⟨e, l, name, log, hready, hrun⟩
  · rw [runCommand_of_error (c := .init path given) hrun] at hexit
    cases hexit
  · -- a run that ends well has written all three files
    obtain ⟨k, -, hs, hok⟩ := scaffold_cases hready (hready.tree htree)
    rcases hscaffold : (scaffold ⟨path⟩ name).run.run e with ⟨f | ⟨⟩, e'⟩
    · rw [hscaffold] at hrun
      rw [runCommand_of_error (c := .init path given) hrun] at hexit
      cases hexit
    · rw [hscaffold] at hrun hs hok
      obtain rfl := hok.mp rfl
      rw [runCommand_of_ok (c := .init path given) hrun]
      exact ⟨e, l, name, hready, hs⟩

section Runs

variable {arguments : List String} {config path : String} (htree : d.IsTree)
  (harguments : Invocation.ofArguments arguments = some (.run config (.init path (some name))))
  (hexit : (run d arguments).exit = 0)

include htree harguments hexit

theorem load_new_iff {p : Project} :
    Project.load (run d arguments).disk ⟨path⟩ = .ok p ↔
      Project.ofText ⟨path⟩ (projectText name) = .ok p := by
  obtain ⟨e, l, name', hready, hs⟩ := exists_scaffolds htree harguments hexit
  obtain rfl : name = name' := Option.some.inj hready.named
  exact hs.load_iff hready (by decide)

/--
**A new project has the name it was given exactly if the name needs no quotes.** After a run that has
made a project with a name, the project is loaded and has that name if the name is empty, or one line
that YAML reads as it stands; with any other name the project is loaded under another name, or not
at all.
-/
theorem run_init_named :
    (∃ p, Project.load (run d arguments).disk ⟨path⟩ = .ok p ∧ p.config.name = name) ↔
      name = "" ∨ IsPlain name.toList := by
  simp only [load_new_iff htree harguments hexit]
  exact ofText_projectText_iff name ⟨path⟩

end Runs

/-- A folder with nothing in it. -/
def emptyDisk : Disk := {}

theorem emptyDisk_isTree : emptyDisk.IsTree := by
  decide

theorem emptyDisk_named :
    (run emptyDisk ["init", "--name", "My Shop:1 -> a#1"]).exit = 0 ∧
      ∃ p, Project.load (run emptyDisk ["init", "--name", "My Shop:1 -> a#1"]).disk ⟨"."⟩ = .ok p ∧
        p.config.name = "My Shop:1 -> a#1" := by
  have harguments : Invocation.ofArguments ["init", "--name", "My Shop:1 -> a#1"] =
      some (.run "pagesmith.yaml" (.init "." (some "My Shop:1 -> a#1"))) := by decide +kernel
  have hexit : (run emptyDisk ["init", "--name", "My Shop:1 -> a#1"]).exit = 0 := by decide +kernel
  exact ⟨hexit, (run_init_named emptyDisk_isTree harguments hexit).mpr (Or.inr (by decide))⟩

set_option maxRecDepth 2000 in
/-- A colon makes the project file unreadable, and a number sign cuts the name off, in runs that
succeed. -/
theorem emptyDisk_misnamed :
    ((run emptyDisk ["init", "--name", "a: b"]).exit = 0 ∧
      ∀ p, Project.load (run emptyDisk ["init", "--name", "a: b"]).disk ⟨"."⟩ ≠ .ok p) ∧
    (run emptyDisk ["init", "--name", "Shop # 1"]).exit = 0 ∧
      ∃ p, Project.load (run emptyDisk ["init", "--name", "Shop # 1"]).disk ⟨"."⟩ = .ok p ∧
        p.config.name = "Shop" := by
  have htext : settingsText.toList = _ ++ _ :=
    String.toList_append.trans (congrArg₂ (· ++ ·) String.toList_ofList String.toList_ofList)
  have hexit : (run emptyDisk ["init", "--name", "a: b"]).exit = 0 ∧
      (run emptyDisk ["init", "--name", "Shop # 1"]).exit = 0 := by decide +kernel
  -- only the line of the name is scanned; what is behind it does not depend on the name
  refine ⟨⟨hexit.1, fun p hp => ?_⟩, hexit.2,
    { config := { name := "Shop" }, base := ⟨"."⟩ }, ?_, rfl⟩
  · have harguments : Invocation.ofArguments ["init", "--name", "a: b"] =
        some (.run "pagesmith.yaml" (.init "." (some "a: b"))) := by decide +kernel
    have hscan : (atName "a: b").takeTokens ("a: b".toList.length + 164) = none := by
      rw [atName, htext]
      cbv
    obtain ⟨n, hn, -⟩ := Project.ofText_eq_ok_iff.mp
      ((load_new_iff emptyDisk_isTree harguments hexit.1).mp hp)
    rw [Yaml.Node.ofText?, scan?_projectText, if_pos (by decide +kernel), hscan] at hn
    cases hn
  · have harguments : Invocation.ofArguments ["init", "--name", "Shop # 1"] =
        some (.run "pagesmith.yaml" (.init "." (some "Shop # 1"))) := by decide +kernel
    have hscan : ((atName "Shop # 1").takeTokens ("Shop # 1".toList.length + 164)).map
        (·.tokens.reverse) = some (newTokens [.scalar "Shop" true]) := by
      rw [atName, htext]
      cbv
    rw [load_new_iff emptyDisk_isTree harguments hexit.2]
    refine ofText_of_ofText? ⟨"."⟩ ?_
    rw [Yaml.Node.ofText?, scan?_projectText, if_pos (by decide +kernel), hscan,
      Option.bind_some, ofTokens?_newTokens]

end DesignCompiler.Command
