import Twinfold.Coalesce.Member
import Twinfold.Text.Basic

/-!
# Generated names and functions

Identifiers are numbered by length and then alphabetically (`nameAt`): first the
names of one character, then those of two, and so on.  A `NameSupply` hands out the
names in this order and leaves out those that are taken and the reserved words.  As
many names as are avoided can be skipped before a free one comes, which bounds the
search.

An **adapter** keeps the header of a function and has for its body a call that passes
on the parameters, behind the values of the slots.  A **helper** is a function with
the canonical body, in which every slot is replaced by a parameter of its own.
`Layout` says whether optional spaces are written.
-/

namespace Twinfold

/-! ### Fresh names -/

/-- The characters a generated name begins with. -/
def firstChars : List Char := "$ABCDEFGHIJKLMNOPQRSTUVWXYZ_abcdefghijklmnopqrstuvwxyz".toList

/-- The characters a generated name goes on with. -/
def laterChars : List Char :=
  "$0123456789ABCDEFGHIJKLMNOPQRSTUVWXYZ_abcdefghijklmnopqrstuvwxyz".toList

/-- Short words that are no names. -/
def reservedWords : List Text :=
  ["do".toList, "if".toList, "in".toList, "for".toList, "new".toList, "try".toList, "var".toList,
   "env".toList, "let".toList, "case".toList, "else".toList, "enum".toList, "void".toList,
   "this".toList, "with".toList, "await".toList]

/-- The name with a given number.  Behind the names of one character, each name is a
shorter one with a character added. -/
def nameAt (n : Nat) : Text :=
  if n < 54 then [firstChars.getD n '$']
  else nameAt ((n - 54) / 64) ++ [laterChars.getD ((n - 54) % 64) '$']
termination_by n

/-- A supply of names. -/
structure NameSupply where
  /-- Names that are never handed out. -/
  avoided : List Text
  /-- The number of the next name to try. -/
  next : Nat

namespace NameSupply

/-- The supply of all names but those taken and the reserved words. -/
def avoiding (taken : List Text) : NameSupply := ⟨reservedWords ++ taken, 0⟩

/-- The number of the first name from `n` on that is not avoided, where up to `skips`
names may be. -/
def firstFree (avoided : List Text) : (skips : Nat) → (n : Nat) → Nat
  | 0, n => n
  | skips + 1, n => if avoided.contains (nameAt n) then firstFree avoided skips (n + 1) else n

/-- Hands out a name. -/
def fresh (s : NameSupply) : Text × NameSupply :=
  let n := firstFree s.avoided s.avoided.length s.next
  (nameAt n, { s with next := n + 1 })

/-- Hands out `count` names. -/
def freshList (s : NameSupply) : (count : Nat) → List Text × NameSupply
  | 0 => ([], s)
  | count + 1 =>
    let (name, s) := s.fresh
    let (names, s) := s.freshList count
    (name :: names, s)

end NameSupply

/-! ### Adapters and helpers -/

/-- How generated functions are laid out. -/
structure Layout where
  /-- Leave out the spaces that are not needed. -/
  compact : Bool := false
deriving DecidableEq, Repr

namespace Layout

/-- What stands between arguments. -/
def separator (l : Layout) : Text := if l.compact then [','] else [',', ' ']

/-- What stands between a function and its helper. -/
def lineEnd (l : Layout) : Text := if l.compact then [] else ['\n']

/-- The function `d` with its body replaced by a call of `target`; the arguments are
the `leading` ones and then the parameters. -/
def adapter (l : Layout) (d : Declaration) (target : Text) (leading : List Text) : Text :=
  let arguments := Text.join l.separator (leading ++ d.passedParams?.getD [])
  let call := "return ".toList ++ target ++ '(' :: arguments ++ [')']
  if l.compact then d.header.trimEnd ++ '{' :: call ++ ['}']
  else d.header.trimEnd ++ " \x7b ".toList ++ call ++ "; \x7d".toList

/-- The edits that put a parameter into each slot, by offsets in the body of `d`. -/
def slotEdits (d : Declaration) (slots : List (Slot × Text)) : List Edit :=
  slots.filterMap fun (slot, param) =>
    d.lines[slot.line]?.map fun line =>
      let offset := line.start - d.bodyStart
      ⟨offset + slot.span.start, offset + slot.span.stop, param⟩

/-- The helper that shares the body of `d`; the slots are in the order of the body,
each with the name of its parameter. -/
def helper (l : Layout) (d : Declaration) (name : Text) (slots : List (Slot × Text)) : Text :=
  let params := Text.join l.separator (slots.map Prod.snd ++ d.params)
  "function ".toList ++ name ++ '(' :: params ++ ')' ::
    (if l.compact then [] else [' ']) ++ Text.splice 0 (slotEdits d slots) d.body

end Layout

end Twinfold
