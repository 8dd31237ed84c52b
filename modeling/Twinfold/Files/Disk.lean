import Twinfold.Files.Path

/-!
# Files and directories

A `Disk` is a snapshot of the files and directories a run may meet, each under the
list of names that leads to it from the root.  A directory that holds something need
not be listed.

`Disk.walk` follows a path from a directory; every component but the last has to be a
directory on the way.  Names and paths are limited in size, and no name holds the null
character.  `Disk.readText` reads a file as UTF-8, and `Disk.replaceable?` says whether
a new file can take the place of what is under a path, with `Disk.put`.
-/

namespace Twinfold

/-- A file with its bytes, or a directory. -/
inductive Node
  | file (content : ByteArray)
  | directory

/-- Why a file cannot be read or replaced. -/
inductive DiskFault
  | notFound
  | notDirectory
  | isDirectory
  /-- The name stands for a directory on the way and not for something in it. -/
  | busy
  /-- A name or the whole path is larger than allowed. -/
  | nameTooLong
  /-- The path of a file to be read holds the null character. -/
  | nullInPath
  /-- The path of a file to be replaced holds the null character. -/
  | invalidArgument
  /-- The content is not UTF-8. -/
  | invalidText
deriving DecidableEq, Repr

/-- The wording of a fault. -/
def DiskFault.message : DiskFault → String
  | .notFound => "No such file or directory (os error 2)"
  | .notDirectory => "Not a directory (os error 20)"
  | .isDirectory => "Is a directory (os error 21)"
  | .busy => "Device or resource busy (os error 16)"
  | .nameTooLong => "File name too long (os error 36)"
  | .nullInPath => "file name contained an unexpected NUL byte"
  | .invalidArgument => "Invalid argument (os error 22)"
  | .invalidText => "stream did not contain valid UTF-8"

/-- The names that lead from the root to a file or directory. -/
abbrev Location := List Text

/-- The size that a name in a directory may have, in bytes. -/
def nameLimit : Nat := 255

/-- The size that a path may have, in bytes. -/
def pathLimit : Nat := 4095

/-- Whether a path holds the null character. -/
def Path.holdsNull (p : Path) : Bool := p.contains '\x00'

/-- Whether something can be at a location. -/
def Location.possible (here : Location) : Bool :=
  here.all (fun name => name.size ≤ nameLimit && !name.contains '\x00') &&
    (Text.join ['/'] here).size < pathLimit

/-- A snapshot of files and directories. -/
structure Disk where
  nodes : List (Location × Node)

namespace Disk

/-- What is at a location. -/
def node? (d : Disk) (here : Location) : Option Node :=
  match d.nodes.find? fun entry => entry.1 = here with
  | some entry => some entry.2
  | none =>
    if here.isEmpty || d.nodes.any fun entry => here.isPrefixOf entry.1 then some .directory
    else none

/-- Goes from a location along one component. -/
def enter (d : Disk) (here : Location) (c : Component) : Except DiskFault Location :=
  match c with
  | .root => .ok []
  | .parent | .name _ =>
    match d.node? here with
    | none => .error .notFound
    | some (.file _) => .error .notDirectory
    | some .directory =>
      match c with
      | .name t => if nameLimit < t.size then .error .nameTooLong else .ok (here ++ [t])
      | _ => .ok here.dropLast

/-- Goes from a location along components. -/
def walk (d : Disk) (here : Location) : List Component → Except DiskFault Location
  | [] => .ok here
  | c :: cs =>
    match d.enter here c with
    | .error fault => .error fault
    | .ok next => d.walk next cs

/-- The location to which a path leads from `here`. -/
def follow (d : Disk) (here : Location) (p : Path) : Except DiskFault Location :=
  if pathLimit < p.size then .error .nameTooLong else d.walk here p.components

/-- The text of the file under a path that is seen from the root. -/
def readText (d : Disk) (p : Path) : Except DiskFault Text :=
  if p.holdsNull then .error .nullInPath
  else
    match d.follow [] p with
    | .error fault => .error fault
    | .ok here =>
      match d.node? here with
      | none => .error .notFound
      | some .directory => .error .isDirectory
      | some (.file content) =>
        match String.fromUTF8? content with
        | some s => .ok s.toList
        | none => .error .invalidText

/-- The location of the directory to which a path leads, seen from the directory `cwd`. -/
def directoryAt (d : Disk) (cwd : Location) (p : Path) : Except DiskFault Location :=
  match d.follow cwd p with
  | .error fault => .error fault
  | .ok here =>
    match d.node? here with
    | none => .error .notFound
    | some (.file _) => .error .notDirectory
    | some .directory => .ok here

/-- A path without the slashes at its end, cut in front of its last piece. -/
def cutLast (p : Path) : Path × Text :=
  let bare := p.reverse.dropWhile fun c => c = '/'
  ((bare.dropWhile fun c => c ≠ '/').reverse, (bare.takeWhile fun c => c ≠ '/').reverse)

/-- Whether a piece of a path names no entry of the directory before it. -/
def namesNothing (piece : Text) : Bool :=
  piece.isEmpty || piece = ['.'] || piece = ['.', '.']

/-- The location at which a file can be put under a path seen from `cwd`.  What is in
front of the last piece has to lead to a directory, the last piece has to name an entry
of it, and that entry must not be a directory. -/
def replaceable? (d : Disk) (cwd : Location) (p : Path) : Except DiskFault Location :=
  let (front, last) := cutLast p
  if p.holdsNull then .error .invalidArgument
  else if pathLimit < p.size then .error .nameTooLong
  else
    match d.directoryAt cwd front with
    | .error fault => .error fault
    | .ok _ =>
      if namesNothing last then .error .busy
      else
        match d.walk cwd p.components with
        | .error fault => .error fault
        | .ok here =>
          if p.getLast? = some '/' then .error .notDirectory
          else
            match d.node? here with
            | some .directory => .error .isDirectory
            | _ => .ok here

/-- Puts a file at a location, in the place of what is listed there. -/
def put (d : Disk) (here : Location) (content : ByteArray) : Disk :=
  ⟨(here, .file content) :: d.nodes.filter fun entry => entry.1 ≠ here⟩

end Disk

end Twinfold
