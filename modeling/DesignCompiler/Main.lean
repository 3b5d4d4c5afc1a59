import DesignCompiler.Command.Run

/-!
# DesignCompiler — the program

Reads the path of the working folder and the names of the files in it from standard input, one a
line, then the files themselves; runs the command on them; writes the files that changed. Everything
else is decided by `DesignCompiler.Command.run`.

In a shell, `(pwd; find . -type f)` prints both.
-/

namespace DesignCompiler

/-- The files of some names, and the folders above them, in the working folder. -/
def gather (place : Location) (names : List String) : IO Disk := do
  let mut disk : Disk := {
    folders := (List.range place.length).map fun n => place.take (n + 1)
    current := place }
  for name in names do
    let parts := (Path.mk name).names
    let folders := (List.range (parts.length - 1)).map fun n => place ++ parts.take (n + 1)
    let bytes ← IO.FS.readBinFile name
    disk := { disk with
      folders := disk.folders ++ folders.filter fun f => !disk.folders.contains f
      files := disk.files ++ [(place ++ parts, bytes)] }
  return disk

/-- The lines of a stream up to its end. -/
partial def readLines (stream : IO.FS.Stream) : IO (List String) := do
  let line ← stream.getLine
  if line.isEmpty then return []
  return String.ofList (Text.dropEndWhile (· == '\n') line.toList) :: (← readLines stream)

def pathText (l : Location) : String :=
  "/" ++ "/".intercalate l

/-- Makes the folders and writes the files that are new or have changed. -/
def store (before after : Disk) : IO Unit := do
  for l in after.folders do
    if !before.folders.contains l then IO.FS.createDirAll (pathText l)
  for (l, bytes) in after.files do
    if (before.content? l).map (·.data) != some bytes.data then
      IO.FS.writeBinFile (pathText l) bytes

/-- Runs the command. The first line of the input is the path of the working folder, the others are
the names of its files. -/
def serve (arguments : List String) : IO UInt32 := do
  let lines ← readLines (← IO.getStdin)
  let place := (Path.mk (lines.headD "/")).names
  let before ← gather place (lines.drop 1)
  let report := Command.run before arguments
  store before report.disk
  IO.print report.printed
  for (level, message) in report.log do
    IO.eprintln (level.text ++ " " ++ message)
  match report.failure with
  | some f => IO.eprintln f.text
  | none => pure ()
  return report.exit.toUInt32

end DesignCompiler

def main (arguments : List String) : IO UInt32 :=
  DesignCompiler.serve arguments
