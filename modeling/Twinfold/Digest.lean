import Twinfold.Declaration.Basic
import Twinfold.Text.Basic
import Twinfold.Token.Scanners

/-!
# Digests of lines

`fnv1a` is the 64-bit FNV-1a hash of a sequence of bytes.

A sequence of 64-bit hashes is hashed by its **polynomial** in the fixed odd base
`polynomialBase` (`polynomial`).  Its `neighbourhood` holds that hash together with, for
every position, the hash with the element there masked and the hash with the
element there deleted.  Two sequences that differ only at a position share the
masked hash there, and a sequence without one element has the deleted hash of the
longer one.  All arithmetic is modulo 2^64.

A `Fingerprint` is a coarse digest of a list of lines.  The lines are joined by line
ends, their number and the number of characters are appended (`encodeLines`), and
the whole is hashed.  Equal fingerprints only nominate two bodies for comparison.
Of a declaration, the lines are taken with every run of white space collapsed.
-/

namespace Twinfold

/-! ### Hashes of bytes and of sequences of hashes -/

/-- One byte of FNV-1a. -/
def fnvStep (h : UInt64) (b : UInt8) : UInt64 := (h ^^^ b.toUInt64) * 0x100000001b3

/-- The FNV-1a hash of a sequence of bytes. -/
def fnv1a (bytes : List UInt8) : UInt64 := bytes.foldl fnvStep 0xcbf29ce484222325

/-- The base of the polynomial over line hashes. -/
def polynomialBase : UInt64 := 0x9e3779b97f4a7c15

/-- What stands in for the hash of a masked line. -/
def maskValue : UInt64 := 0x5bd1e9951b873593

/-- The polynomial hash of a sequence, continued from the hash `h` of what precedes it. -/
def polynomial (h : UInt64) : List UInt64 → UInt64
  | [] => h
  | x :: xs => polynomial (h * polynomialBase + x) xs

/-- The weight of an element with `n` elements behind it. -/
def lineWeight : Nat → UInt64
  | 0 => 1
  | n + 1 => lineWeight n * polynomialBase

/-- A sequence hash and the hashes of the sequences near it. -/
structure Neighbourhood where
  /-- The hash of the sequence. -/
  whole : UInt64
  /-- By position, the hash with the element there masked. -/
  masked : List UInt64
  /-- By position, the hash with the element there deleted. -/
  deleted : List UInt64
deriving DecidableEq, Repr

/-- For every element of a sequence, the hash with that element masked and the hash
with it deleted.  The sequence goes on from the hash `front`, and `whole` is the hash
of all. -/
def editedHashes (whole front : UInt64) : List UInt64 → List (UInt64 × UInt64)
  | [] => []
  | x :: rest =>
    let weight := lineWeight rest.length
    let through := front * polynomialBase + x
    (whole - x * weight + maskValue * weight, front * weight + (whole - through * weight)) ::
      editedHashes whole through rest

/-- The neighbourhood of a sequence. -/
def neighbourhood (xs : List UInt64) : Neighbourhood :=
  let whole := polynomial 0 xs
  let edited := editedHashes whole 0 xs
  ⟨whole, edited.map Prod.fst, edited.map Prod.snd⟩

/-! ### Fingerprints of function bodies -/

/-- A digest of a list of lines. -/
structure Fingerprint where
  hash : UInt64
  lines : Nat
  /-- The number of characters, line ends between lines included. -/
  chars : Nat
  tokens : Nat
deriving DecidableEq, Repr

/-- The words of a text with one space between neighbours. -/
def collapseSpaces (t : Text) : Text := Text.join [' '] (t.words fun c => !isAsciiSpace c)

/-- What a fingerprint hashes: the joined lines, a `#`, the number of lines, a `:`
and the number of characters. -/
def encodeLines (lines : List Text) : Text :=
  let joined := Text.join ['\n'] lines
  joined ++ '#' :: Text.ofNat lines.length ++ ':' :: Text.ofNat joined.length

/-- The fingerprint of a list of lines that hold a given number of tokens. -/
def Fingerprint.ofLines (lines : List Text) (tokens : Nat) : Fingerprint :=
  ⟨fnv1a (encodeLines lines).utf8, lines.length, (Text.join ['\n'] lines).length, tokens⟩

/-- The fingerprint of a declaration. -/
def Declaration.fingerprint (d : Declaration) : Fingerprint :=
  .ofLines (d.lines.map fun line => collapseSpaces line.text) d.tokenCount

end Twinfold
