import Twinfold.CommandLine.Parse
import Twinfold.CommandLine.Program
import Twinfold.Files.Disk

/-!
# Runs in memory

A `Bench` is a machine in memory: a `Disk` and a current directory, what standard output and
standard error have taken, and the new file that is being written.  It may be short of room, so
that texts are written only in part.  `bench` is the host that works on it.

`Invocation.run` is what a request comes to on a bench that has room for everything.
-/

namespace Twinfold

/-- Where a run takes place: what is on the disk, and the current directory. -/
structure Surroundings where
  disk : Disk
  cwd : Path

/-- The location of the current directory. -/
def Surroundings.location (w : Surroundings) : Location :=
  w.cwd.components.filterMap fun c =>
    match c with
    | .name t => some t
    | .root | .parent => none

/-- How much may still be written, in characters; without a number, everything. -/
structure Bench.Room where
  file : Option Nat := none
  stdout : Option Nat := none
  stderr : Option Nat := none

/-- A machine in memory. -/
structure Bench extends Surroundings where
  room : Bench.Room := {}
  /-- The new file that is being written, and its text so far. -/
  temp : Option (Location × Text) := none
  stdout : Text := []
  stderr : Text := []
  log : List LogRecord := []
  /-- The file that was replaced, and its new text. -/
  written : Option (Location × Text) := none

namespace Bench

/-- The part of a text for which there is room. -/
def fitting (room : Option Nat) (text : Text) : Text :=
  match room with
  | some n => text.take n
  | none => text

/-- Whether all of a text was written. -/
def wroteAll (room : Option Nat) (text : Text) : Except String Unit :=
  if fitting room text = text then .ok () else .error "No space left on device (os error 28)"

/-- The room that is left behind a text. -/
def roomLeft (room : Option Nat) (text : Text) : Option Nat := room.map (· - text.length)

/-- A name that is not in use in a directory, among `n` names. -/
def freeName? (d : Disk) (directory : Location) : (n : Nat) → Option Text
  | 0 => none
  | n + 1 =>
    let name := ".tmp".toList ++ Text.ofNat n
    if (d.node? (directory ++ [name])).isNone then some name else freeName? d directory n

/-- How many names are tried for a new file. -/
def nameTries : Nat := 65536

/-- Creates a new file; there is one at a time. -/
def createTemp (directory : Path) : StateM Bench (Except String Location) := fun b =>
  match b.disk.directoryAt b.location directory with
  | .error fault => (.error fault.message, b)
  | .ok above =>
    match b.temp, freeName? b.disk above nameTries with
    | none, some name => (.ok (above ++ [name]), { b with temp := some (above ++ [name], []) })
    | _, _ => (.error "too many temporary files exist", b)

/-- Writes to the new file. -/
def writeTemp (here : Location) (text : Text) : StateM Bench (Except String Unit) := fun b =>
  match b.temp with
  | some (there, before) =>
    if there = here then
      (wroteAll b.room.file text,
        { b with
          temp := some (here, before ++ fitting b.room.file text)
          room := { b.room with file := roomLeft b.room.file text } })
    else (.error "Bad file descriptor (os error 9)", b)
  | none => (.error "Bad file descriptor (os error 9)", b)

/-- Moves the new file to where a path leads. -/
def persist (here : Location) (path : Path) : StateM Bench (Except String Unit) := fun b =>
  match b.temp with
  | some (there, text) =>
    if there = here then
      match b.disk.replaceable? b.location path with
      | .error fault => (.error fault.message, b)
      | .ok target =>
        (.ok (),
          { b with
            disk := b.disk.put target ⟨text.utf8.toArray⟩
            temp := none
            written := some (target, text) })
    else (.error DiskFault.notFound.message, b)
  | none => (.error DiskFault.notFound.message, b)

/-- Removes the new file. -/
def dropTemp (here : Location) : StateM Bench Unit := fun b =>
  match b.temp with
  | some (there, _) => ((), if there = here then { b with temp := none } else b)
  | none => ((), b)

/-- Writes to standard output. -/
def print (text : Text) : StateM Bench (Except String Unit) := fun b =>
  (wroteAll b.room.stdout text,
    { b with
      stdout := b.stdout ++ fitting b.room.stdout text
      room := { b.room with stdout := roomLeft b.room.stdout text } })

/-- Writes to standard error. -/
def printError (text : Text) : StateM Bench (Except String Unit) := fun b =>
  (wroteAll b.room.stderr text,
    { b with
      stderr := b.stderr ++ fitting b.room.stderr text
      room := { b.room with stderr := roomLeft b.room.stderr text } })

end Bench

/-- The host that works on a bench.  There are no links, so that a path in normal form stays as it
is, and no threads. -/
def bench : Host (StateM Bench) Path Location where
  paths := Path.paths
  setLogLevel _ := pure ()
  log record := modify fun b => { b with log := b.log ++ [record] }
  logFinished := pure ()
  startThreads _ := pure (.ok ())
  currentDir := do return .ok (← get).cwd
  canonicalize p := pure (.ok p)
  readText p := do return (← get).disk.readText p |>.mapError DiskFault.message
  createTemp := Bench.createTemp
  writeTemp := Bench.writeTemp
  flushTemp _ := pure (.ok ())
  persist := Bench.persist
  dropTemp := Bench.dropTemp
  print := Bench.print
  printError := Bench.printError

/-- What a run comes to. -/
structure Outcome where
  exitCode : Nat
  stdout : Text
  stderr : Text
  /-- The file that is written, and its new content. -/
  written : Option (Location × Text)
  log : List LogRecord
deriving DecidableEq, Repr

/-- Carries out an invocation in memory. -/
def Invocation.run (w : Surroundings) (i : Invocation) : Outcome :=
  let (exitCode, b) := (carryOut bench i).run { w with }
  ⟨exitCode, b.stdout, b.stderr, b.written, b.log⟩

end Twinfold
