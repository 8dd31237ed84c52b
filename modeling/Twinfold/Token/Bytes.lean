import Twinfold.Token.Lexer

/-!
# The lexer over bytes

A source file is a row of bytes in UTF-8, and it is read byte by byte: `ByteLexer.next`
does on bytes what `Lexer.next` does on characters.  A scanner moves a `Place` over the
bytes.  It may stand inside a character or behind the end, since a backslash takes the
next byte with it, whatever this byte belongs to, and since every byte from 0x80 on
counts as a letter.

What is cut out of the bytes has to begin and end between characters.  Elsewhere
`Bytes.slice?` has nothing to give, and a scanner that needs the slice breaks down
there.  A `ByteScan` is therefore partial: it is `none` if a slice is missing or if the
scan never comes to an end, since it goes on where another scan ended (`Bytes.onward`)
and that is no further than before.  Nothing is taken for granted about the bytes or
about progress.

* `Bytes.lex` — the tokens of a source file, as spans without text, and the first error.
-/

namespace Twinfold

/-- The bytes of a source file. -/
abbrev Bytes := Array UInt8

/-- The byte of an ASCII character. -/
def ascii (c : Char) : UInt8 := .ofNat c.toNat

namespace Bytes

/-- Whether a position is between characters: at either end, or in front of a byte that
does not continue a character. -/
def isBoundary (src : Bytes) (pos : Nat) : Bool :=
  pos = 0 || pos = src.size || src[pos]?.any fun b => b < 0x80 || 0xC0 ≤ b

/-- The bytes between two positions; none unless both are between characters. -/
def slice? (src : Bytes) (start stop : Nat) : Option (List UInt8) :=
  if start ≤ stop && src.isBoundary start && src.isBoundary stop then
    some (src.extract start stop).toList
  else none

/-- The spaces beyond ASCII: the byte order mark, the no-break space, and the line and
paragraph separators. -/
def wideSpaces : List (List UInt8) :=
  ['\uFEFF', '\u00A0', '\u2028', '\u2029'].map String.utf8EncodeChar

/-- The number of bytes of the space beyond ASCII at a position, if one stands there. -/
def wideSpace? (src : Bytes) (pos : Nat) : Option Nat := do
  let rest ← src.slice? pos src.size
  let space ← wideSpaces.find? fun space => space.isPrefixOf rest
  return space.length

end Bytes

/-! ### Classes of bytes -/

/-- ASCII white space. -/
def isSpaceByte (b : UInt8) : Bool := b = 0x20 || b = 0x09 || b = 0x0A || b = 0x0C || b = 0x0D

/-- ASCII digits. -/
def isDigitByte (b : UInt8) : Bool := 0x30 ≤ b && b ≤ 0x39

/-- ASCII letters. -/
def isLetterByte (b : UInt8) : Bool := (0x41 ≤ b && b ≤ 0x5A) || (0x61 ≤ b && b ≤ 0x7A)

/-- The bytes an identifier begins with. -/
def beginsIdentByte (b : UInt8) : Bool := isLetterByte b || b = ascii '_' || b = ascii '$' || 0x80 ≤ b

/-- The bytes of an identifier. -/
def continuesIdentByte (b : UInt8) : Bool := beginsIdentByte b || isDigitByte b

/-- The number of bytes of a character, by the first of them. -/
def sizeOfLead (b : UInt8) : Nat :=
  if b < 0x80 then 1 else if b < 0xE0 then 2 else if b < 0xF0 then 3 else 4

/-! ### Moving a place over bytes -/

/-- The place `n` bytes further on the same line. -/
def Place.skip (p : Place) (n : Nat) : Place := { p with offset := p.offset + n }

/-- The same byte, counted on the next line. -/
def Place.nextLine (p : Place) : Place := { p with line := min (p.line + 1) Place.lastLine }

theorem Place.lt_skip (p : Place) {n : Nat} (hn : 0 < n) : p.offset < (p.skip n).offset :=
  Nat.lt_add_of_pos_right hn

theorem Place.lt_skip_ite (p : Place) (c : Prop) [Decidable c] {n : Nat} (hn : 0 < n) :
    p.offset < ((if c then p.nextLine else p).skip n).offset := by
  split <;> exact Nat.lt_add_of_pos_right hn

/-- Why a scan was given up, and the position it had reached. -/
structure GivenUp where
  error : ParseError
  stopped : Nat
deriving DecidableEq, Repr

/-- A scan of bytes, which may be given up; `none` if it breaks down or never ends. -/
abbrev ByteScan (α : Type) := ExceptT GivenUp Option α

/-- Gives up at a position inside a literal or comment that was opened at a place. -/
def giveUp {α : Type} (fault : Fault) (opened : Place) (stopped : Nat) : ByteScan α :=
  throw ⟨⟨fault, opened⟩, stopped⟩

namespace Bytes

/-! ### Getting ahead -/

/-- The number of bytes that are left behind a place. -/
def left (src : Bytes) (p : Place) : Nat := src.size - p.offset

/-- Behind a byte that was read there is less left than in front of it. -/
theorem left_lt {src : Bytes} {p q : Place} {b : UInt8} (h : src[p.offset]? = some b)
    (hlt : p.offset < q.offset) : src.left q < src.left p :=
  Nat.sub_lt_sub_left (Array.getElem?_eq_some_iff.mp h).1 hlt

/-- Goes on at `q`, where less has to be left than at `p`.  A scan that does not get ahead never
ends. -/
def onward {α : Type} (src : Bytes) (p : Place)
    (next : (q : Place) → src.left q < src.left p → ByteScan α) (q : Place) : ByteScan α :=
  if h : src.left q < src.left p then next q h else ExceptT.mk none

/-! ### Comments and spaces -/

/-- Goes to the end of the line. -/
def skipLine (src : Bytes) (p : Place) : Place :=
  match _h : src[p.offset]? with
  | some b => if b = ascii '\n' then p else skipLine src (p.skip 1)
  | none => p
termination_by src.left p
decreasing_by exact left_lt _h (p.lt_skip Nat.zero_lt_one)

/-- Goes behind the mark that closes a block comment. -/
def skipBlock (src : Bytes) (opened p : Place) : ByteScan Place :=
  match _h : src[p.offset]?, src[p.offset + 1]? with
  | some b, some next =>
    let here := if b = ascii '\n' then p.nextLine else p
    if b = ascii '*' && next = ascii '/' then pure (here.skip 2)
    else skipBlock src opened (here.skip 1)
  | _, _ => giveUp .unterminatedComment opened p.offset
termination_by src.left p
decreasing_by exact left_lt _h (p.lt_skip_ite _ Nat.zero_lt_one)

/-- Goes behind spaces and comments. -/
def skipTrivia (src : Bytes) (p : Place) : ByteScan Place :=
  match _h : src[p.offset]? with
  | none => pure p
  | some b =>
    if b = ascii '\n' then skipTrivia src (p.nextLine.skip 1)
    else if isSpaceByte b then skipTrivia src (p.skip 1)
    else
      match if 0x80 ≤ b then src.wideSpace? p.offset else none with
      | some size => src.onward p (fun q _ => skipTrivia src q) (p.skip size)
      | none =>
        if b = ascii '/' && src[p.offset + 1]? = some (ascii '/') then
          src.onward p (fun q _ => skipTrivia src q) (skipLine src p)
        else if b = ascii '/' && src[p.offset + 1]? = some (ascii '*') then do
          src.onward p (fun q _ => skipTrivia src q) (← skipBlock src p (p.skip 2))
        else pure p
termination_by src.left p
decreasing_by
  · exact left_lt _h (p.nextLine.lt_skip Nat.zero_lt_one)
  · exact left_lt _h (p.lt_skip Nat.zero_lt_one)
  all_goals assumption

/-! ### Literals -/

/-- Goes behind a string.  A backslash takes the next byte with it, if there is one. -/
def scanString (src : Bytes) (quote : UInt8) (opened p : Place) : ByteScan Place :=
  match _h : src[p.offset]? with
  | none => giveUp .unterminatedString opened p.offset
  | some b =>
    match if b = ascii '\\' then src[p.offset + 1]? else none with
    | some next =>
      let here := if next = ascii '\n' then p.nextLine else p
      scanString src quote opened (here.skip 2)
    | none =>
      if b = ascii '\n' then giveUp .unterminatedString opened p.offset
      else if b = quote then pure (p.skip 1)
      else scanString src quote opened (p.skip 1)
termination_by src.left p
decreasing_by
  · exact left_lt _h (p.lt_skip_ite _ Nat.zero_lt_two)
  · exact left_lt _h (p.lt_skip Nat.zero_lt_one)

mutual

/-- Goes behind a template. -/
def scanTemplate (src : Bytes) (opened p : Place) : ByteScan Place :=
  match _h : src[p.offset]? with
  | none => giveUp .unterminatedTemplate opened p.offset
  | some b =>
    if b = ascii '\\' then scanTemplate src opened (p.skip 2)
    else if b = ascii '`' then pure (p.skip 1)
    else if b = ascii '$' && src[p.offset + 1]? = some (ascii '{') then do
      let q ← scanSubstitution src (p.skip 2) 0 (p.skip 2)
      src.onward p (fun q _ => scanTemplate src opened q) q
    else if b = ascii '\n' then scanTemplate src opened (p.nextLine.skip 1)
    else scanTemplate src opened (p.skip 1)
termination_by src.left p
decreasing_by
  · exact left_lt _h (p.lt_skip Nat.zero_lt_two)
  · exact left_lt _h (p.lt_skip Nat.zero_lt_two)
  · assumption
  · exact left_lt _h (p.nextLine.lt_skip Nat.zero_lt_one)
  · exact left_lt _h (p.lt_skip Nat.zero_lt_one)

/-- Goes behind the brace that closes a substitution, `depth` braces deep in its code. -/
def scanSubstitution (src : Bytes) (opened : Place) (depth : Nat) (start : Place) :
    ByteScan Place := do
  let p ← skipTrivia src start
  match src[p.offset]? with
  | none => giveUp .unterminatedTemplate opened p.offset
  | some b =>
    if b = ascii '"' || b = ascii '\'' then do
      let q ← scanString src b p (p.skip 1)
      src.onward start (fun q _ => scanSubstitution src opened depth q) q
    else if b = ascii '`' then do
      let q ← src.onward start (fun q _ => scanTemplate src p q) (p.skip 1)
      src.onward start (fun q _ => scanSubstitution src opened depth q) q
    else if b = ascii '{' then
      src.onward start (fun q _ => scanSubstitution src opened (depth + 1) q) (p.skip 1)
    else if b = ascii '}' then
      if depth = 0 then pure (p.skip 1)
      else src.onward start (fun q _ => scanSubstitution src opened (depth - 1) q) (p.skip 1)
    else src.onward start (fun q _ => scanSubstitution src opened depth q) (p.skip 1)
termination_by src.left start
decreasing_by all_goals assumption

end

/-- Goes behind the flags of a regular expression. -/
def scanFlags (src : Bytes) (p : Place) : ByteScan Place :=
  match _h : src[p.offset]? with
  | some b => if continuesIdentByte b then scanFlags src (p.skip 1) else pure p
  | none => pure p
termination_by src.left p
decreasing_by exact left_lt _h (p.lt_skip Nat.zero_lt_one)

/-- Goes behind a regular expression and its flags. -/
def scanRegex (src : Bytes) (opened : Place) (inClass : Bool) (p : Place) : ByteScan Place :=
  match _h : src[p.offset]? with
  | none => giveUp .unterminatedRegex opened p.offset
  | some b =>
    if b = ascii '\n' then giveUp .unterminatedRegex opened p.offset
    else if b = ascii '\\' then scanRegex src opened inClass (p.skip 2)
    else if b = ascii '[' then scanRegex src opened true (p.skip 1)
    else if b = ascii ']' then scanRegex src opened false (p.skip 1)
    else if b = ascii '/' && !inClass then scanFlags src (p.skip 1)
    else scanRegex src opened inClass (p.skip 1)
termination_by src.left p
decreasing_by
  · exact left_lt _h (p.lt_skip Nat.zero_lt_two)
  all_goals exact left_lt _h (p.lt_skip Nat.zero_lt_one)

/-! ### Numbers, words and punctuators -/

/-- Goes behind a number. -/
def scanNumber (src : Bytes) (hex : Bool) (p : Place) : ByteScan Place :=
  match _h : src[p.offset]? with
  | none => pure p
  | some b =>
    if isLetterByte b || isDigitByte b || b = ascii '.' || b = ascii '_' then
      scanNumber src hex (p.skip 1)
    else if !hex && (b = ascii '+' || b = ascii '-') &&
        src[p.offset - 1]?.any (fun last => last = ascii 'e' || last = ascii 'E') then
      scanNumber src hex (p.skip 1)
    else pure p
termination_by src.left p
decreasing_by all_goals exact left_lt _h (p.lt_skip Nat.zero_lt_one)

/-- Whether a hexadecimal number begins at a position. -/
def isHexAt (src : Bytes) (pos : Nat) : Bool :=
  src[pos]? = some (ascii '0') &&
    src[pos + 1]?.any fun b => b = ascii 'x' || b = ascii 'X'

/-- Goes behind an identifier. -/
def scanIdent (src : Bytes) (p : Place) : ByteScan Place :=
  match _h : src[p.offset]? with
  | none => pure p
  | some b =>
    if continuesIdentByte b && (src.wideSpace? p.offset).isNone then scanIdent src (p.skip 1)
    else pure p
termination_by src.left p
decreasing_by exact left_lt _h (p.lt_skip Nat.zero_lt_one)

/-- Goes behind the first punctuator of the list that fits, or else behind one character. -/
def scanPunct (src : Bytes) (p : Place) : ByteScan Place := do
  let rest ← src.slice? p.offset src.size
  match longPuncts.find? fun s => (Text.utf8 s.toList).isPrefixOf rest with
  | some s => pure (p.skip s.utf8ByteSize)
  | none => pure (p.skip (rest.head?.elim 1 sizeOfLead))

end Bytes

/-! ### Tokens -/

/-- A token of a source file: where it begins and ends, and on which line it begins. -/
structure ByteToken where
  kind : TokenKind
  start : Nat
  stop : Nat
  line : Nat
deriving DecidableEq, Repr

/-- The place and the extent of a token. -/
def Token.span (t : Token) : ByteToken := ⟨t.kind, t.start, t.stop, t.place.line⟩

namespace Bytes

/-- The bytes of a token. -/
def textOf? (src : Bytes) (t : ByteToken) : Option (List UInt8) := src.slice? t.start t.stop

/-- Whether a `/` behind the token `previous` begins a regular expression.  This depends
on the text of the token, which is cut out of the source. -/
def regexAllowed (src : Bytes) : Option ByteToken → ByteScan Bool
  | none => pure true
  | some t => do
    let text ← src.textOf? t
    match t.kind with
    | .ident => pure (wordsBeforeRegex.any fun s => text = Text.utf8 s.toList)
    | .punct => pure !([")", "]", "++", "--"].any fun s => text = Text.utf8 s.toList)
    | .number | .string | .template | .regex => pure false

/-- Goes behind the token that begins with the byte `b` at a place, and tells its kind. -/
def scanToken (src : Bytes) (previous : Option ByteToken) (p : Place) (b : UInt8) :
    ByteScan (TokenKind × Place) := do
  if b = ascii '"' || b = ascii '\'' then
    return (.string, ← scanString src b p (p.skip 1))
  else if b = ascii '`' then
    return (.template, ← scanTemplate src p (p.skip 1))
  else if isDigitByte b || (b = ascii '.' && src[p.offset + 1]?.any isDigitByte) then
    return (.number, ← scanNumber src (src.isHexAt p.offset) p)
  else if beginsIdentByte b then
    return (.ident, ← scanIdent src p)
  else if b = ascii '/' then
    if ← regexAllowed src previous then return (.regex, ← scanRegex src p false (p.skip 1))
    else return (.punct, ← scanPunct src p)
  else return (.punct, ← scanPunct src p)

end Bytes

/-- A place in a source file that is read token by token. -/
structure ByteLexer where
  place : Place
  previous : Option ByteToken
  /-- Whether reading was given up. -/
  failed : Bool
deriving DecidableEq, Repr

/-- One step of a lexer over bytes. -/
inductive ByteStep
  | token (t : ByteToken) (after : ByteLexer)
  /-- There are no more tokens. -/
  | finished (after : ByteLexer)
  /-- The bytes cannot be read further. -/
  | failed (error : ParseError) (after : ByteLexer)
deriving DecidableEq, Repr

namespace ByteLexer

/-- The lexer at the start of a source file, behind a first line that begins with `#!`. -/
def start (src : Bytes) : ByteLexer :=
  if (Text.utf8 ['#', '!']).isPrefixOf src.toList then
    ⟨src.skipLine Place.start, none, false⟩
  else ⟨Place.start, none, false⟩

/-- Goes behind the next token, if there is one. -/
def read (src : Bytes) (l : ByteLexer) : ByteScan (Option ByteToken × Place) := do
  let p ← src.skipTrivia l.place
  match src[p.offset]? with
  | none => return (none, p)
  | some b =>
    let (kind, behind) ← src.scanToken l.previous p b
    return (some ⟨kind, p.offset, behind.offset, p.line⟩, behind)

/-- Reads one token.  After an error every further step is `finished`. -/
def next (src : Bytes) (l : ByteLexer) : Option ByteStep :=
  if l.failed then some (.finished l)
  else do
    match ← (l.read src).run with
    | .ok (some t, behind) => return .token t { l with place := behind, previous := some t }
    | .ok (none, behind) => return .finished { l with place := behind }
    | .error e =>
      let place := { l.place with offset := e.stopped }
      return .failed e.error { l with place, failed := true }

end ByteLexer

/-- The tokens of a source file up to its end or to the first error. -/
structure ByteLexed where
  tokens : List ByteToken
  failure : Option ParseError
deriving DecidableEq, Repr

/-- Reads all tokens that are left, as long as each of them gets ahead. -/
def ByteLexer.run (src : Bytes) (l : ByteLexer) : Option ByteLexed := do
  match ← l.next src with
  | .token t after =>
    if src.left after.place < src.left l.place then
      let more ← after.run src
      return ⟨t :: more.tokens, more.failure⟩
    else none
  | .finished _ => return ⟨[], none⟩
  | .failed error _ => return ⟨[], some error⟩
termination_by src.left l.place

/-- The tokens of a source file up to its end or to the first error; none if a scanner
breaks down. -/
def Bytes.lex (src : Bytes) : Option ByteLexed := (ByteLexer.start src).run src

end Twinfold
