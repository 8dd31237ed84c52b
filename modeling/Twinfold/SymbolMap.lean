import Twinfold.Text.Json

/-!
# Symbol maps

A symbol map gives short function names the names they stand for.  It is read from
lines `short:full`; the first colon separates the two, and both are taken without
the white space around them.  Blank lines are skipped, and a later line for the same
short name replaces an earlier one.  The first line that lacks one of its two names
is the error of the whole map.
-/

namespace Twinfold

/-- The lines of a text.  A line ends at a line feed, and a carriage return in front
of it belongs to the line end; a last line without line end is taken as it is. -/
def Text.lines : Text → List Text
  | t => ended (t.split '\n')
where
  /-- The lines among the pieces between line feeds. -/
  ended : List Text → List Text
    | [] => []
    | [last] => if last.isEmpty then [] else [last]
    | piece :: pieces =>
      (if piece.getLast? = some '\r' then piece.dropLast else piece) :: ended pieces

/-- A line that is no entry of a symbol map. -/
structure SymbolMapError where
  /-- The number of the line, counted from one. -/
  line : Nat
  content : Text
deriving DecidableEq, Repr

/-- The wording of the error. -/
def SymbolMapError.message (e : SymbolMapError) : String :=
  s!"invalid symbol map line {e.line}: {String.ofList e.content.quoted}"

/-- Short names with the names they stand for, each short name once. -/
structure SymbolMap where
  entries : List (Text × Text)
deriving DecidableEq, Repr

namespace SymbolMap

/-- The number of short names. -/
def size (m : SymbolMap) : Nat := m.entries.length

/-- The name that a short name stands for. -/
def get? (m : SymbolMap) (short : Text) : Option Text := m.entries.lookup short

/-- The name that a short name stands for, or the short name itself. -/
def expand (m : SymbolMap) (short : Text) : Text := (m.get? short).getD short

/-- Enters a name; an entry of the same short name is replaced. -/
def insert (m : SymbolMap) (short full : Text) : SymbolMap :=
  ⟨(short, full) :: m.entries.filter fun entry => entry.1 ≠ short⟩

/-- The two names on a line, if it has both. -/
def readEntry (line : Text) : Option (Text × Text) :=
  match line.splitOnce ':' with
  | none => none
  | some (short, full) =>
    if short.trim.isEmpty || full.trim.isEmpty then none else some (short.trim, full.trim)

/-- Reads lines, of which the first has the given number, into a map. -/
def readLines (number : Nat) (m : SymbolMap) : List Text → Except SymbolMapError SymbolMap
  | [] => .ok m
  | line :: rest =>
    if line.trim.isEmpty then readLines (number + 1) m rest
    else
      match readEntry line with
      | none => .error ⟨number, line⟩
      | some (short, full) => readLines (number + 1) (m.insert short full) rest

/-- Reads a symbol map. -/
def parse (t : Text) : Except SymbolMapError SymbolMap := readLines 1 ⟨[]⟩ t.lines

end SymbolMap

end Twinfold
