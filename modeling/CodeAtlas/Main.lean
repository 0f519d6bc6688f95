import CodeAtlas.CommandLine.Run
import CodeAtlas.Syntax.Bank

/-!
# The command line

The files of the working directory are those that `.atlas-files` lists, one path a line; their
syntax trees, and those of other texts that a command needs, stand in the bank `.atlas-trees`.
-/
namespace CodeAtlas.CommandLine

/-- The bytes of the file at `path`, if it can be read. -/
def readBytes? (path : String) : IO (Option ByteArray) := do
  try return some (← IO.FS.readBinFile path) catch _ => return none

/-- The lines of the file at `path`, none if it cannot be read. -/
def readLines (path : String) : IO (List String) := do
  let bytes := (← readBytes? path).getD .empty
  return ((String.fromUTF8? bytes).getD "").splitOn "\n"

/-- The files of the working directory that are listed, as a directory with the path `root`. -/
def readDirectory (root : String) : IO Directory := do
  let mut d : Directory := { root }
  for path in ← readLines ".atlas-files" do
    if let some bytes ← readBytes? path then
      d := d.write ((path.splitOn "/").filter fun name => name != "" && name != ".") bytes
  return d

end CodeAtlas.CommandLine

open CodeAtlas CommandLine

/-- Runs the command line `args` and prints what it leads to. -/
def main (args : List String) : IO UInt32 := do
  let bank := Bank.parse ("\n".intercalate (← readLines ".atlas-trees"))
  let directory ← readDirectory (← IO.currentDir).toString
  let input ← if args.any isInput then (← IO.getStdin).readToEnd else pure ""
  let outcome := run { grammar := bank.grammar, directory, input } args
  (← IO.getStdout).putStr outcome.output
  (← IO.getStderr).putStr outcome.errors
  return outcome.code.toUInt32
