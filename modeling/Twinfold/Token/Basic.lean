import Twinfold.Text.Basic

/-!
# Places, parse errors and tokens

A **place** is a byte offset together with the line it stands on.  Reading
proceeds character by character: `Place.after` moves past a character and begins
a new line behind a line end, `Place.past` moves on without counting a line.
Lines are counted from one and the count stops at `Place.lastLine`.

A `ParseError` is a fault at a place.  Its `message` names the fault, the line
and the byte.

A token is a significant piece of JavaScript source.  It keeps its own `text` and
the `gap` in front of it (the comments and spaces that separate it from the token
before), so a run of tokens still holds the source it was read from:
`Token.source` puts gap and text together again.

Strings, templates and regular expressions are single tokens, hence a delimiter
is always a punctuator and `opens` / `closes` / `closedBy` decide balance.
-/

namespace Twinfold

/-! ### Places and faults -/

/-- A position in a text: a byte offset and the line it is on. -/
structure Place where
  offset : Nat
  line : Nat
deriving DecidableEq, Repr

namespace Place

/-- Where every text begins. -/
def start : Place := ⟨0, 1⟩

/-- The largest line number; further lines are reported under it. -/
def lastLine : Nat := 4294967295

/-- The place behind a character that stays on the line. -/
def past (p : Place) (c : Char) : Place := { p with offset := p.offset + c.utf8Size }

/-- The place behind a character; a line end begins the next line. -/
def after (p : Place) (c : Char) : Place :=
  ⟨p.offset + c.utf8Size, if c = '\n' then min (p.line + 1) lastLine else p.line⟩

/-- The place behind a text without line ends. -/
def pastText (p : Place) (t : Text) : Place := { p with offset := p.offset + t.size }

end Place

/-- What can be wrong with a source text. -/
inductive Fault
  | unterminatedString
  | unterminatedTemplate
  | unterminatedComment
  | unterminatedRegex
  /-- A delimiter without its partner. -/
  | unbalanced (delimiter : Char)
  | unexpectedToken
  | missingName
deriving DecidableEq, Repr

/-- The wording of a fault. -/
def Fault.message : Fault → String
  | .unterminatedString => "unterminated string literal"
  | .unterminatedTemplate => "unterminated template literal"
  | .unterminatedComment => "unterminated block comment"
  | .unterminatedRegex => "unterminated regular expression literal"
  | .unbalanced delimiter => "unbalanced `" ++ String.singleton delimiter ++ "`"
  | .unexpectedToken => "unexpected token"
  | .missingName => "function declaration without a name"

/-- A fault and where it is. -/
structure ParseError where
  fault : Fault
  place : Place
deriving DecidableEq, Repr

/-- The wording of a parse error. -/
def ParseError.message (e : ParseError) : String :=
  s!"{e.fault.message} at line {e.place.line} (byte {e.place.offset})"

/-! ### Tokens -/

/-- The kinds of tokens. -/
inductive TokenKind
  | ident
  | number
  | string
  | template
  | regex
  | punct
deriving DecidableEq, Repr

/-- A significant piece of source text. -/
structure Token where
  kind : TokenKind
  /-- The spaces and comments between the token before and this one. -/
  gap : Text
  text : Text
  /-- The place of the first character of `text`. -/
  place : Place
deriving DecidableEq, Repr

namespace Token

/-- The byte offset of the token. -/
def start (t : Token) : Nat := t.place.offset

/-- The byte offset behind the token. -/
def stop (t : Token) : Nat := t.place.offset + t.text.size

/-- The gap and the token. -/
def source (t : Token) : Text := t.gap ++ t.text

/-- Whether the token is a given punctuator. -/
def punctIs (t : Token) (text : String) : Bool := t.kind = .punct && t.text = text.toList

/-- Whether the token is a given word. -/
def identIs (t : Token) (text : String) : Bool := t.kind = .ident && t.text = text.toList

/-- Whether the text of the token, of whatever kind, is one of a list. -/
def isAnyOf (t : Token) (texts : List String) : Bool := texts.any fun s => t.text = s.toList

/-- Whether the token is an opening delimiter. -/
def opens (t : Token) : Bool := t.kind = .punct && t.isAnyOf ["(", "[", "\x7b"]

/-- Whether the token is a closing delimiter. -/
def closes (t : Token) : Bool := t.kind = .punct && t.isAnyOf [")", "]", "\x7d"]

/-- Whether `closer` is the partner of the opening delimiter `t`. -/
def closedBy (t closer : Token) : Bool :=
  (t.punctIs "(" && closer.punctIs ")") ||
  (t.punctIs "[" && closer.punctIs "]") ||
  (t.punctIs "\x7b" && closer.punctIs "\x7d")

/-- The fault of a delimiter without its partner. -/
def unbalanced (t : Token) : ParseError := ⟨.unbalanced (t.text.headD '?'), t.place⟩

/-- The source of a run of tokens. -/
def sourceOf (ts : List Token) : Text := ts.flatMap source

end Token

end Twinfold
