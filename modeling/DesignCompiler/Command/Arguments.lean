import DesignCompiler.Emission.Settings

/-!
# DesignCompiler — arguments of the command line

Options come before or behind the words of a command, each at most once: `--name value`,
`--name=value`, `-n value`, `-nvalue` or `-n=value`; switches can be joined, as in `-vV`. Behind two
dashes everything is a word.

* `scan` — arguments as options and words, up to the first one that settles what happens;
* `Invocation` — what the arguments ask for;
* `Invocation.ofArguments` — the invocation, or none if the arguments make no sense.
-/

namespace DesignCompiler.Command

/-! ## Options and words -/

/-- An option that a command knows. -/
structure OptionSpec where
  long : String
  short : Option Char := none
  /-- Switches have no value. -/
  hasValue : Bool := true

/-- An argument, or two of them. -/
inductive Item where
  | option (long : String) (value : String)
  | word (text : String)
deriving DecidableEq, Repr

/-- Where the arguments of a command end. -/
inductive Ending where
  | complete
  /-- A word that names a command, and the arguments of that command. -/
  | command (name : String) (arguments : List String)
  | help
  | version
  /-- An argument that makes no sense. -/
  | refused
deriving DecidableEq, Repr

/-- What a command accepts. -/
structure Grammar where
  options : List OptionSpec
  /-- Whether the first word names a command. -/
  namesCommand : Bool := false
  hasVersion : Bool := false

/-- Whether an argument can be the value of the option before it. -/
def isValue (argument : String) : Bool :=
  argument == "-" || argument.toList.head? != some '-'

/-- An argument in two parts at its first equals sign. -/
def splitEquals (cs : List Char) : List Char × Option (List Char) :=
  match cs.dropWhile (· != '=') with
  | [] => (cs, none)
  | _ :: value => (cs.takeWhile (· != '='), some value)

/-- What one argument that begins with a dash gives: items, and either what it ends with or the
option that waits for its value. -/
inductive Scanned where
  | items (items : List Item)
  | waiting (items : List Item) (long : String)
  | ending (items : List Item) (ending : Ending)

/-- Adds an item in front. -/
def Scanned.cons (i : Item) : Scanned → Scanned
  | .items is => .items (i :: is)
  | .waiting is long => .waiting (i :: is) long
  | .ending is e => .ending (i :: is) e

/-- An option with two dashes. -/
def scanLong (g : Grammar) (cs : List Char) : Scanned :=
  let (name, value) := splitEquals cs
  let long := String.ofList name
  match g.options.find? (·.long == long), value with
  -- A switch refuses a value, even an empty one.
  | some o, some v =>
    if o.hasValue then .items [.option long (String.ofList v)] else .ending [] .refused
  | some o, none => if o.hasValue then .waiting [] long else .items [.option long ""]
  | none, none =>
    if long = "help" then .ending [] .help
    else if long = "version" && g.hasVersion then .ending [] .version
    else .ending [] .refused
  | none, some _ => .ending [] .refused

/-- Options with one dash, one letter each; the rest behind an option with a value is its value. -/
def scanShort (g : Grammar) : List Char → Scanned
  | [] => .items []
  | c :: cs =>
    match g.options.find? (·.short == some c) with
    | some o =>
      if o.hasValue then
        match cs with
        | [] => .waiting [] o.long
        -- The equals sign is no part of the value.
        | '=' :: value => .items [.option o.long (String.ofList value)]
        | value => .items [.option o.long (String.ofList value)]
      else (scanShort g cs).cons (.option o.long "")
    | none =>
      if c = 'h' then .ending [] .help
      else if c = 'V' && g.hasVersion then .ending [] .version
      else .ending [] .refused

/-- Arguments as items, up to their end. -/
def scan (g : Grammar) : List String → List Item × Ending
  | [] => ([], .complete)
  | a :: rest =>
    match a.toList with
    -- Behind two dashes no command can be named any more.
    | ['-', '-'] =>
      if g.namesCommand && !rest.isEmpty then ([], .refused) else (rest.map .word, .complete)
    | '-' :: c :: cs =>
      match (if c = '-' then scanLong g cs else scanShort g (c :: cs)), rest with
      | .items is, rest =>
        let (more, e) := scan g rest
        (is ++ more, e)
      | .ending is e, _ => (is, e)
      | .waiting is _, [] => (is, .refused)
      -- The value of an option may be the next argument.
      | .waiting is long, value :: rest =>
        if isValue value then
          let (more, e) := scan g rest
          (is ++ .option long value :: more, e)
        else (is, .refused)
    | _ =>
      if g.namesCommand then ([], .command a rest)
      else
        let (more, e) := scan g rest
        (.word a :: more, e)

def words (is : List Item) : List String :=
  is.filterMap fun
    | .word w => some w
    | .option _ _ => none

def values (is : List Item) (long : String) : List String :=
  is.filterMap fun
    | .word _ => none
    | .option l v => if l = long then some v else none

/-- The value of an option that is given at most once. -/
def value? (is : List Item) (long : String) : Option String :=
  (values is long).head?

/-- Whether a switch is given. -/
def hasSwitch (is : List Item) (long : String) : Bool :=
  !(values is long).isEmpty

/-- Whether no option is given twice and there are not too many words. -/
def isPlausible (g : Grammar) (maxWords : Nat) (is : List Item) : Bool :=
  g.options.all (fun o => (values is o.long).length ≤ 1) && (words is).length ≤ maxWords

/-! ## Invocations -/

/-- The commands. -/
inductive Subcommand where
  /-- Makes a new project. -/
  | init (path : String) (name : Option String)
  /-- Checks all pages. -/
  | validate
  /-- Shows the trees of a design. -/
  | tree (design : String) (page : Option Nat)
  /-- Writes or shows the code of designs. -/
  | compile (design : Option String) (dialect : Option Dialect) (stdout : Bool)
deriving DecidableEq, Repr

/-- What arguments ask for. -/
inductive Invocation where
  | run (config : String) (command : Subcommand)
  | help
  | version
deriving DecidableEq, Repr

/-- The options before the command. -/
def mainGrammar : Grammar where
  options := [{ long := "config", short := some 'c' },
    { long := "verbose", short := some 'v', hasValue := false }]
  namesCommand := true
  hasVersion := true

def initGrammar : Grammar where
  options := [{ long := "name", short := some 'n' }]

def validateGrammar : Grammar where
  options := []

def treeGrammar : Grammar where
  options := [{ long := "page", short := some 'p' }]

def compileGrammar : Grammar where
  options := [{ long := "design", short := some 'd' }, { long := "dialect" },
    { long := "stdout", hasValue := false }]

/-- A number of a page, a plus sign in front at will. -/
def pageNumber? (s : String) : Option Nat :=
  let ds := match s.toList with
    | '+' :: ds => ds
    | ds => ds
  let n := Nat.ofDigitChars 10 ds 0
  if !ds.isEmpty && ds.all Char.isDigit && n < Nat.pow 2 64 then some n else none

/-- An optional value that has to make sense if it is given. -/
def check (f : String → Option α) : Option String → Option (Option α)
  | none => some none
  | some s => (f s).map some

/-- The items of a command, if the arguments make sense; none of its own if they ask for help. -/
def itemsOf (g : Grammar) (maxWords : Nat) (arguments : List String) :
    Option (List Item × Ending) :=
  let (is, e) := scan g arguments
  if isPlausible g maxWords is && e ≠ .refused then some (is, e) else none

/-- The command of a name with its arguments; none inside if the arguments ask for help. -/
def commandOf (name : String) (arguments : List String) : Option (Option Subcommand) :=
  match name with
  | "init" => do
    let (is, e) ← itemsOf initGrammar 1 arguments
    if e = .help then return none
    return some (.init ((words is).headD ".") (value? is "name"))
  | "validate" => do
    let (_, e) ← itemsOf validateGrammar 0 arguments
    if e = .help then return none
    return some .validate
  | "tree" => do
    let (is, e) ← itemsOf treeGrammar 1 arguments
    let page ← check pageNumber? (value? is "page")
    if e = .help then return none
    let design ← (words is).head?
    return some (.tree design page)
  | "compile" => do
    let (is, e) ← itemsOf compileGrammar 0 arguments
    let dialect ← check (fun w => (Dialect.ofText w).toOption) (value? is "dialect")
    if e = .help then return none
    return some (.compile (value? is "design") dialect (hasSwitch is "stdout"))
  | "help" => some none
  | _ => none

def Invocation.ofArguments (arguments : List String) : Option Invocation := do
  let (is, e) ← itemsOf mainGrammar 0 arguments
  match e with
  | .help => return .help
  | .version => return .version
  | .command name rest =>
    match ← commandOf name rest with
    | some c => return .run ((value? is "config").getD "pagesmith.yaml") c
    | none => return .help
  | _ => none

end DesignCompiler.Command
