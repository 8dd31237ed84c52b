import Twinfold.CommandLine.Parse
import Twinfold.CommandLine.Program
import Twinfold.Files.Disk

/-!
# The program

Here the machine itself is the host of a run.
-/

namespace Twinfold

/-- The wording of what went wrong. -/
def causeOf : IO.Error → String
  | .noFileOrDirectory .. => DiskFault.notFound.message
  | .inappropriateType _ 20 _ => DiskFault.notDirectory.message
  | .inappropriateType .. => DiskFault.isDirectory.message
  | e => toString e

/-- Tries something. -/
def attempt {α : Type} (x : IO α) : IO (Except String α) := do
  try return .ok (← x)
  catch e => return .error (causeOf e)

/-- The text of a file. -/
def readFileText (path : Path) : IO Text := do
  match String.fromUTF8? (← IO.FS.readBinFile (String.ofList path)) with
  | some s => return s.toList
  | none => throw (IO.userError DiskFault.invalidText.message)

/-- Creates a new file in a directory. -/
def createFile (directory : Path) : IO (Path × IO.FS.Handle) := do
  let path := Path.joinTo directory s!".twinfold-{← IO.monoNanosNow}".toList
  return (path, ← IO.FS.Handle.mk (String.ofList path) .writeNew)

/-- Prints a log record that is important enough, if it can be printed. -/
def showRecord (least : IO.Ref LogLevel) (record : LogRecord) : IO Unit := do
  if (← least.get).shownFrom record.level then discard (attempt (IO.eprintln record.render))

/-- The machine as a host, for a run that started at a time in milliseconds.  `least` holds the
level from which log records are shown. -/
def machine (started : Nat) (least : IO.Ref LogLevel) : Host IO Path (Path × IO.FS.Handle) where
  paths := Path.paths
  setLogLevel level := least.set (level.getD .info)
  log := showRecord least
  logFinished := do
    showRecord least (.info s!"finished in {(← IO.monoMsNow) - started}ms")
  startThreads _ := return .ok ()
  currentDir := attempt do return (← IO.currentDir).toString.toList
  canonicalize p := attempt do return (← IO.FS.realPath (String.ofList p)).toString.toList
  readText p := attempt (readFileText p)
  createTemp directory := attempt (createFile directory)
  writeTemp temp text := attempt (temp.2.putStr (String.ofList text))
  flushTemp temp := attempt temp.2.flush
  persist temp p := attempt (IO.FS.rename (String.ofList temp.1) (String.ofList p))
  dropTemp temp := do
    try IO.FS.removeFile (String.ofList temp.1)
    catch _ => pure ()
  print text := attempt do
    IO.print (String.ofList text)
    (← IO.getStdout).flush
  printError text := attempt (IO.eprint (String.ofList text))

end Twinfold

/-- Reads the command line and carries it out. -/
def main (args : List String) : IO UInt32 := do
  let host := Twinfold.machine (← IO.monoMsNow) (← IO.mkRef .info)
  let code ← Twinfold.runArgs host Twinfold.parseOrRefuse (args.map String.toList)
  return code.toUInt32
