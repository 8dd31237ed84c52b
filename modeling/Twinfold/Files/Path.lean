import Twinfold.Text.Basic

/-!
# Paths

A path is a text whose components are separated by slashes.  `Path.normalize`
removes what does not matter (repeated slashes, single dots) and lets every `..`
undo the name before it; at the root it does nothing, and at the front of a relative
path it stays.  `Path.parent?` drops the last component and leaves the rest of the
path as it is written.
-/

namespace Twinfold

/-- A path. -/
abbrev Path := Text

/-- A component of a path. -/
inductive Component
  | root
  /-- The directory above: `..`. -/
  | parent
  | name (t : Text)
deriving DecidableEq, Repr

namespace Path

/-- Whether a path starts at the root. -/
def isAbsolute (p : Path) : Bool :=
  match p with
  | c :: _ => c = '/'
  | [] => false

/-- The component written by a piece between slashes, if there is one. -/
def component? (piece : Text) : Option Component :=
  if piece.isEmpty || piece = ['.'] then none
  else if piece = ['.', '.'] then some .parent
  else some (.name piece)

/-- The components of a path. -/
def components (p : Path) : List Component :=
  (if p.isAbsolute then [.root] else []) ++ (Text.split '/' p).filterMap component?

/-- Adds a component to normal ones, of which the last comes first. -/
def push (above : List Component) : Component → List Component
  | .parent =>
    match above with
    | .name _ :: rest => rest
    | .root :: rest => .root :: rest
    | _ => .parent :: above
  | c => c :: above

/-- The components in normal form. -/
def normalComponents (cs : List Component) : List Component := (cs.foldl push []).reverse

/-- The text of a component. -/
def pieceOf : Component → Text
  | .root => []
  | .parent => ['.', '.']
  | .name t => t

/-- The path with given components. -/
def ofComponents : List Component → Path
  | [.root] => ['/']
  | cs => Text.join ['/'] (cs.map pieceOf)

/-- The path in normal form. -/
def normalize (p : Path) : Path := ofComponents (normalComponents p.components)

/-- A path seen from a directory. -/
def joinTo (dir p : Path) : Path :=
  if p.isAbsolute then p
  else if dir.isEmpty || dir.getLast? = some '/' then dir ++ p
  else dir ++ '/' :: p

/-- The normal form of a path seen from the directory `cwd`. -/
def resolve (cwd p : Path) : Path := (joinTo cwd p).normalize

/-- The symbol map that belongs to a file. -/
def symbolsOf (p : Path) : Path := p ++ ".symbols".toList

/-- The symbol map to read: the one asked for, seen from `cwd`, or the one that
belongs to the input. -/
def symbolMap (cwd input : Path) (asked : Option Path) : Path :=
  match asked with
  | some p => resolve cwd p
  | none => symbolsOf input

/-! ### The directory of a path -/

/-- Drops the pieces at the end that write no component. -/
def dropIdle (pieces : List Text) : List Text :=
  (pieces.reverse.dropWhile fun piece => (component? piece).isNone).reverse

/-- A path without its last component and the slashes before it; nothing if it has no
component to drop.  A single dot at the very front counts as a component. -/
def parent? (p : Path) : Option Path :=
  let pieces := Text.split '/' p
  let front := pieces.take 1
  let keepsFront := p.isAbsolute || front = [['.']]
  let front := if keepsFront then front else []
  let rest := dropIdle (if keepsFront then pieces.drop 1 else pieces)
  if rest.isEmpty then
    if p.isAbsolute || front.isEmpty then none else some []
  else
    match front ++ dropIdle rest.dropLast with
    | [[]] => some ['/']
    | pieces => some (Text.join ['/'] pieces)

/-- The directory in which a file is written. -/
def directory (p : Path) : Path :=
  match p.parent? with
  | none => ['.']
  | some dir => if dir.isEmpty then ['.'] else dir

end Path

end Twinfold
