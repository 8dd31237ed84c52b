import Twinfold.Token.Basic

/-!
# Scanners of gaps and literals

Scanners answer with a `Scan`: the characters taken, the characters left and the
place between them, or a parse error and the byte at which scanning gave up.

Between tokens stand blanks, line comments and block comments.  A `Comment` is
the state inside a comment; `Comment.opened?` says where one begins and
`Comment.read` what one character does to it.  The same two functions serve the
gaps between tokens (`readGap`) and the code inside template substitutions.

Strings, templates and regular expressions run up to a closing mark, and the code
inside a template substitution may hold further strings, templates and comments.
A literal is read with a stack of **frames**, innermost first; one character at a
time, `Frame.read` says which frames take the place of the innermost one, and
`scanFrames` goes on until no frame is left.

A backslash takes the next character with it.  A line end taken that way counts
as a new line inside a string, and does not count inside a template or a regular
expression.
-/

namespace Twinfold

/-! ### Spaces and comments -/

/-- What a scanner found. -/
inductive Scan
  /-- `taken` was read and `rest` is left, beginning at `place`. -/
  | found (taken rest : Text) (place : Place)
  /-- Scanning gave up at the byte offset `stopped`. -/
  | failed (error : ParseError) (stopped : Nat)
deriving DecidableEq, Repr

/-- Puts a character in front of what was taken. -/
def Scan.cons (c : Char) : Scan → Scan
  | .found taken rest place => .found (c :: taken) rest place
  | .failed error stopped => .failed error stopped

/-- The spaces beyond ASCII that separate tokens: the byte order mark, the
no-break space, and the line and paragraph separators. -/
def isWideSpace (c : Char) : Bool :=
  c = '\uFEFF' || c = '\u00A0' || c = '\u2028' || c = '\u2029'

/-- The ASCII characters that separate words: space, tab, line feed, form feed and
carriage return. -/
def isAsciiSpace (c : Char) : Bool :=
  c = ' ' || c = '\t' || c = '\n' || c = '\x0c' || c = '\r'

/-- The characters that separate tokens. -/
def isGapSpace (c : Char) : Bool := isAsciiSpace c || isWideSpace c

/-- The inside of a comment. -/
inductive Comment
  /-- A comment that ends with its line. -/
  | line
  /-- A comment opened at a place; `star` tells whether the last character was `*`. -/
  | block (opened : Place) (star : Bool)
deriving DecidableEq, Repr

namespace Comment

/-- The comment that opens at place `p` with the character `c`, if any; `next` is
the character behind it. -/
def opened? (p : Place) (c : Char) (next : Option Char) : Option Comment :=
  if c = '/' && next = some '/' then some .line
  else if c = '/' && next = some '*' then some (.block p false)
  else none

/-- The comment after one more character; `none` when that character closes it.
The star that opens a block comment does not count towards closing it. -/
def read (p : Place) (c : Char) : Comment → Option Comment
  | .line => if c = '\n' then none else some .line
  | .block opened star =>
    if star && c = '/' && opened.offset + 2 < p.offset then none
    else some (.block opened (c = '*'))

/-- What it means that the text ends at place `p` inside the comment.  A block
comment is given up on at the last byte, which could not have closed it. -/
def atEnd (p : Place) : Comment → Scan
  | .line => .found [] [] p
  | .block opened _ =>
    .failed ⟨.unterminatedComment, opened⟩ (max (opened.offset + 2) (p.offset - 1))

end Comment

/-- Reads blanks and comments up to the next token. -/
def readGap : Option Comment → Place → Text → Scan
  | none, p, [] => .found [] [] p
  | some k, p, [] => k.atEnd p
  | some k, p, c :: rest => (readGap (k.read p c) (p.after c) rest).cons c
  | none, p, c :: rest =>
    if isGapSpace c then (readGap none (p.after c) rest).cons c
    else
      match Comment.opened? p c rest.head? with
      | some k => (readGap (some k) (p.after c) rest).cons c
      | none => .found [] (c :: rest) p

/-! ### Literals -/

/-- A construct that is open while a literal is read. -/
inductive Frame
  /-- A string in quotes; `escaped` after a backslash. -/
  | quoted (quote : Char) (escaped : Bool) (opened : Place)
  /-- A template in backticks. -/
  | template (escaped : Bool) (opened : Place)
  /-- The code of a substitution, `depth` braces deep, perhaps inside a comment. -/
  | code (depth : Nat) (comment : Option Comment) (opened : Place)
  /-- A regular expression; `inClass` between square brackets. -/
  | regex (escaped inClass : Bool) (opened : Place)
deriving DecidableEq, Repr

namespace Frame

/-- The place behind a character read inside the frame. -/
def advance (p : Place) (c : Char) : Frame → Place
  | .template true _ => p.past c
  | .regex true _ _ => p.past c
  | _ => p.after c

/-- One character of substitution code outside comments.  The brace that opens
the substitution is the first character of its code and counts as depth one. -/
def readCode (depth : Nat) (opened p : Place) (c : Char) (next : Option Char) : List Frame :=
  match Comment.opened? p c next with
  | some k => [.code depth (some k) opened]
  | none =>
    if c = '"' || c = '\'' then [.quoted c false p, .code depth none opened]
    else if c = '`' then [.template false p, .code depth none opened]
    else if c = '{' then [.code (depth + 1) none opened]
    else if c = '}' then
      if depth ≤ 1 then [] else [.code (depth - 1) none opened]
    else [.code depth none opened]

/-- The frames that stand for the innermost frame after the character `c` at place
`p`, where `next` is the character behind it; none when `c` closes the frame.  A
line end inside a string or a regular expression is an error. -/
def read (p : Place) (c : Char) (next : Option Char) : Frame → Except ParseError (List Frame)
  | .quoted quote true opened => .ok [.quoted quote false opened]
  | .quoted quote false opened =>
    if c = '\\' then .ok [.quoted quote true opened]
    else if c = '\n' then .error ⟨.unterminatedString, opened⟩
    else if c = quote then .ok []
    else .ok [.quoted quote false opened]
  | .template true opened => .ok [.template false opened]
  | .template false opened =>
    if c = '\\' then .ok [.template true opened]
    else if c = '`' then .ok []
    else if c = '$' && next = some '{' then
      .ok [.code 0 none ((p.past '$').past '{'), .template false opened]
    else .ok [.template false opened]
  | .code depth (some k) opened => .ok [.code depth (k.read p c) opened]
  | .code depth none opened => .ok (readCode depth opened p c next)
  | .regex true inClass opened => .ok [.regex false inClass opened]
  | .regex false inClass opened =>
    if c = '\n' then .error ⟨.unterminatedRegex, opened⟩
    else if c = '\\' then .ok [.regex true inClass opened]
    else if c = '[' then .ok [.regex false true opened]
    else if c = ']' then .ok [.regex false false opened]
    else if c = '/' && !inClass then .ok []
    else .ok [.regex false inClass opened]

/-- How many bytes a backslash at the very end reaches beyond the text. -/
def overrun (escaped : Bool) : Nat := if escaped then 1 else 0

/-- What it means that the text ends at place `p` inside the frame. -/
def atEnd (p : Place) : Frame → Scan
  | .quoted _ _ opened => .failed ⟨.unterminatedString, opened⟩ p.offset
  | .template escaped opened =>
    .failed ⟨.unterminatedTemplate, opened⟩ (p.offset + overrun escaped)
  | .code _ (some (.block start star)) _ => (Comment.block start star).atEnd p
  | .code _ _ opened => .failed ⟨.unterminatedTemplate, opened⟩ p.offset
  | .regex escaped _ opened => .failed ⟨.unterminatedRegex, opened⟩ (p.offset + overrun escaped)

end Frame

/-- Reads on until every frame is closed. -/
def scanFrames : List Frame → Place → Text → Scan
  | [], p, rest => .found [] rest p
  | frame :: _, p, [] => frame.atEnd p
  | frame :: outer, p, c :: rest =>
    match frame.read p c rest.head? with
    | .error e => .failed e p.offset
    | .ok frames => (scanFrames (frames ++ outer) (frame.advance p c) rest).cons c

end Twinfold
