import DesignCompiler.Command.Arguments
import DesignCompiler.Command.Compile
import DesignCompiler.Command.Init

/-!
# DesignCompiler — running commands

* `Report` — what a run leaves behind;
* `run` — a run with given arguments on given files.
-/

namespace DesignCompiler.Command

/-- What a run leaves behind. -/
structure Report where
  /-- Zero after success, one after a failure, two if the arguments make no sense. -/
  exit : Nat
  printed : String := ""
  log : List (Level × String) := []
  failure : Option Failure := none
  disk : Disk

def versionText : String := "pagesmith 0.1.0\n"

/-- How the program is called. -/
def helpText : String :=
  "Usage: pagesmith [--config PATH] [--verbose] <init|validate|tree|compile>\n"

def runSteps [Readers] (config : String) : Subcommand → Action Unit
  | .init path name => init path name
  | .validate => validate config
  | .tree design page => showTrees config design page
  | .compile design dialect stdout => compile config design dialect stdout

def runCommand [Readers] (disk : Disk) (config : String) (c : Subcommand) : Report :=
  match (runSteps config c).run.run { disk } with
  | (.ok (), s) => { exit := 0, printed := s.printed, log := s.log, disk := s.disk }
  | (.error f, s) =>
    { exit := 1, printed := s.printed, log := s.log, failure := some f, disk := s.disk }

def run [Readers] (disk : Disk) (arguments : List String) : Report :=
  match Invocation.ofArguments arguments with
  | none => { exit := 2, disk }
  | some .help => { exit := 0, printed := helpText, disk }
  | some .version => { exit := 0, printed := versionText, disk }
  | some (.run config c) => runCommand disk config c

end DesignCompiler.Command
