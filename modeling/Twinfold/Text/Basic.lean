/-!
# Texts and byte offsets

A **text** is the list of its characters.  Every position this library reports
counts *bytes* of the UTF-8 encoding, so a text carries its `size` in bytes, can
be split `cut` bytes from its start, and can be searched for the byte offset of
a marker (`find?`).  Edits that each replace one byte range are carried out
together, in one walk, by `splice`.
-/

namespace Twinfold

/-- A text is the list of its characters. -/
abbrev Text := List Char

namespace Text

/-- The number of bytes of the UTF-8 encoding. -/
def size : Text → Nat
  | [] => 0
  | c :: t => c.utf8Size + size t

/-- The bytes of the UTF-8 encoding. -/
def utf8 (t : Text) : List UInt8 := t.flatMap String.utf8EncodeChar

/-- Splits a text after its first `n` bytes.  A character that reaches beyond
them still belongs to the first half. -/
def cut : Nat → Text → Text × Text
  | 0, t => ([], t)
  | _ + 1, [] => ([], [])
  | n + 1, c :: t =>
    let halves := cut (n + 1 - c.utf8Size) t
    (c :: halves.1, halves.2)

/-- The byte offset of the first occurrence of `marker`. -/
def find? (marker : Text) : Text → Option Nat
  | [] => if marker.isEmpty then some 0 else none
  | c :: t =>
    if marker.isPrefixOf (c :: t) then some 0 else (find? marker t).map (c.utf8Size + ·)

/-- Whether a line ends inside the text. -/
def breaksLine (t : Text) : Bool := t.contains '\n'

/-- The decimal digits of a number. -/
def ofNat (n : Nat) : Text := Nat.toDigits 10 n

/-- The texts in order, with `separator` between neighbours. -/
def join (separator : Text) (ts : List Text) : Text := List.intercalate separator ts

/-- Splits a text at every `separator`; there is always at least one piece. -/
def split (separator : Char) : Text → List Text
  | [] => [[]]
  | c :: t =>
    match split separator t with
    | [] => [[]]
    | piece :: pieces =>
      if c = separator then [] :: piece :: pieces else (c :: piece) :: pieces

/-- The two sides of the first `separator`, if there is one. -/
def splitOnce (separator : Char) : Text → Option (Text × Text)
  | [] => none
  | c :: t =>
    if c = separator then some ([], t)
    else (splitOnce separator t).map fun sides => (c :: sides.1, sides.2)

/-- The maximal runs of characters in a class, in order and without empty ones. -/
def words (p : Char → Bool) : Text → List Text
  | [] => []
  | c :: t =>
    if p c then
      match t, words p t with
      | d :: _, w :: ws => if p d then (c :: w) :: ws else [c] :: w :: ws
      | _, ws => [c] :: ws
    else words p t

end Text

/-- A replacement of the bytes from `start` up to `stop` by another text. -/
structure Edit where
  start : Nat
  stop : Nat
  text : Text

namespace Text

/-- Carries out edits that are listed from left to right, on a text whose first
byte has offset `offset`. -/
def splice (offset : Nat) : List Edit → Text → Text
  | [], t => t
  | e :: es, t =>
    let kept := t.cut (e.start - offset)
    let dropped := Text.cut (e.stop - e.start) kept.2
    kept.1 ++ e.text ++ splice e.stop es dropped.2

end Text

/-- Inserts an element into a sorted list, in front of the first element that does
not come strictly `before` it. -/
def insertSorted {α : Type} (before : α → α → Bool) (a : α) : List α → List α
  | [] => [a]
  | b :: bs => if before b a then b :: insertSorted before a bs else a :: b :: bs

/-- Sorts a list by insertion; elements of which neither is strictly `before` the
other keep their order. -/
def sortList {α : Type} (before : α → α → Bool) : List α → List α
  | [] => []
  | a :: as => insertSorted before a (sortList before as)

end Twinfold
