import Twinfold.Token.Basic

/-!
# Function declarations

The unit of comparison is a statement-level function declaration.  A
`Declaration` keeps what the later stages need: its name, parameters and flavour,
the logical lines of its body, its byte offsets, and the source of its two parts,
the `header` in front of the opening brace and the `body` from brace to brace.

`Options` say which declarations are looked at and how their lines are compared.
-/

namespace Twinfold

/-- How a function is declared. -/
inductive Flavor
  | plain
  | async
  | generator
  | asyncGenerator
deriving DecidableEq, Repr

/-- The flavour of a declaration with or without `async` and `*`. -/
def Flavor.of (isAsync isGenerator : Bool) : Flavor :=
  match isAsync, isGenerator with
  | false, false => .plain
  | true, false => .async
  | false, true => .generator
  | true, true => .asyncGenerator

/-- A logical line of a function body: the bytes from `start` up to `stop`. -/
structure LogicalLine where
  text : Text
  start : Nat
  stop : Nat
  tokenCount : Nat
deriving DecidableEq, Repr

/-- A function declaration found in a source text. -/
structure Declaration where
  /-- The position among the declarations of the source. -/
  index : Nat
  name : Text
  params : List Text
  flavor : Flavor
  lines : List LogicalLine
  /-- The first byte of the declaration, `async` included. -/
  start : Nat
  /-- The byte offset of the brace that opens the body. -/
  bodyStart : Nat
  /-- The byte offset behind the brace that closes the body. -/
  stop : Nat
  /-- The line of the word `function`. -/
  line : Nat
  /-- The offset of the innermost brace around the declaration.  Declarations of
  one scope see the same bindings. -/
  scope : Option Nat
  /-- The source from `start` up to `bodyStart`. -/
  header : Text
  /-- The source from `bodyStart` up to `stop`. -/
  body : Text
deriving DecidableEq, Repr

namespace Declaration

/-- The whole source of a declaration. -/
def source (d : Declaration) : Text := d.header ++ d.body

/-- The number of tokens in the body lines. -/
def tokenCount (d : Declaration) : Nat :=
  d.lines.foldr (fun line count => line.tokenCount + count) 0

end Declaration

/-- A part of a source text between two markers. -/
structure Region where
  start : Text
  stop : Text
deriving DecidableEq, Repr

namespace Region

/-- The function section of a bundle that Emscripten has written. -/
def emscripten : Region :=
  ⟨"// EMSCRIPTEN_START_FUNCS".toList, "// EMSCRIPTEN_END_FUNCS".toList⟩

/-- The byte offsets between which the region lies: behind the first start marker
and in front of the first end marker after it. -/
def window? (r : Region) (source : Text) : Option (Nat × Nat) :=
  (r.start.find? source).bind fun first =>
    let low := first + r.start.size
    (r.stop.find? (source.cut low).2).map fun distance => (low, low + distance)

end Region

/-- How body lines are compared. -/
structure LineRules where
  /-- Compare lines by their tokens and leave out the blanks around them. -/
  normalizeWhitespace : Bool := true
  /-- Compare parameters by position and not by name. -/
  ignoreParamNames : Bool := false
deriving DecidableEq, Repr

/-- What is looked at and how it is compared. -/
structure Options where
  rules : LineRules := {}
  /-- Functions with fewer body lines are not compared. -/
  minLines : Nat := 1
  /-- Where declarations are looked for; everywhere if there is none. -/
  region : Option Region := none
deriving DecidableEq, Repr

end Twinfold
