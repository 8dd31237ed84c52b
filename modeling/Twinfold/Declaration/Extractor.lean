import Twinfold.Declaration.Reading
import Twinfold.Token.Lexer

/-!
# Finding declarations

An `Extractor` walks over the tokens of a text and yields the declarations that stand
at statement level, one after another.  Outside of declarations it keeps the two tokens
before and the delimiters that are open.  `Extractor.seek` goes on to the next word
`function` that begins a declaration, and `Extractor.next` reads the declaration there.

* `Extractor.length_of_next` — a declaration uses up tokens, so extraction ends.
-/

namespace Twinfold

/-- Where extraction stands between two declarations. -/
structure Extractor where
  /-- Whether blanks around lines are left out. -/
  normalize : Bool
  /-- Declarations begin at this byte offset or behind it. -/
  low : Nat
  /-- Tokens from this byte offset on are not looked at. -/
  high : Nat
  /-- The tokens that are left. -/
  tokens : List Token
  /-- Why there are no more tokens, if the text could not be read further. -/
  failure : Option ParseError
  previous : Option Token
  beforePrevious : Option Token
  /-- The delimiters that are open, innermost first. -/
  opened : List Token
  /-- The index of the next declaration. -/
  index : Nat

/-- One step of an extractor. -/
inductive ExtractorStep
  | declaration (d : Declaration) (after : Extractor)
  | failed (error : ParseError)
  | finished

namespace Extractor

/-- The extractor at the start of a text.  If a marker of the region is missing,
there is nothing to extract. -/
def start (source : Text) (options : Options) : Extractor :=
  let window := match options.region with
    | none => some (0, source.size)
    | some region => region.window? source
  match window with
  | none => ⟨options.rules.normalizeWhitespace, 0, 0, [], none, none, none, [], 0⟩
  | some (low, high) =>
    let lexed := lex source
    ⟨options.rules.normalizeWhitespace, low, high, lexed.tokens, lexed.failure, none, none, [], 0⟩

/-- What a walk over the tokens outside of declarations comes to. -/
inductive Sighting
  /-- A declaration begins; the extractor stands behind its word `function`. -/
  | lead (lead : Lead) (after : Extractor)
  | failed (error : ParseError)
  | finished

/-- The innermost brace that is open. -/
def scope (x : Extractor) : Option Nat :=
  (x.opened.find? fun t => t.punctIs "\x7b").map Token.start

/-- What the end of the tokens means: an error of the lexer, or a delimiter that was
never closed, or nothing. -/
def atEnd (x : Extractor) : Sighting :=
  match x.failure, x.opened with
  | some error, _ => .failed error
  | none, t :: _ => .failed t.unbalanced
  | none, [] => .finished

/-- The delimiters open behind a token, if it fits those in front of it. -/
def track (opened : List Token) (t : Token) : Except ParseError (List Token) :=
  if t.opens then .ok (t :: opened)
  else if t.closes then
    match opened with
    | [] => .error t.unbalanced
    | o :: os => if o.closedBy t then .ok os else .error t.unbalanced
  else .ok opened

/-- The beginning of the next declaration. -/
def seek (x : Extractor) : List Token → Sighting
  | [] => ({ x with tokens := [] } : Extractor).atEnd
  | t :: ts =>
    if x.high ≤ t.start then .finished
    else
      match (if x.low ≤ t.start then leadAt? x.previous x.beforePrevious t ts else none) with
      | some lead => .lead lead { x with tokens := ts }
      | none =>
        match track x.opened t with
        | .error e => .failed e
        | .ok opened =>
          ({ x with opened, previous := some t, beforePrevious := x.previous } : Extractor).seek ts

/-- The next declaration. -/
def next (x : Extractor) : ExtractorStep :=
  match x.seek x.tokens with
  | .finished => .finished
  | .failed e => .failed e
  | .lead lead x =>
    match readDeclaration x.normalize x.failure x.index x.scope lead x.tokens with
    | .error e => .failed e
    | .ok r => .declaration r.declaration { x with
        tokens := r.rest, previous := some r.close, beforePrevious := none, index := x.index + 1 }

/-- An extractor that yields nothing any more. -/
def spent (x : Extractor) : Extractor := { x with tokens := [], failure := none, opened := [] }

end Extractor

/-! ### A declaration uses up tokens -/

namespace Extractor

/-- Behind the lead of a declaration fewer tokens are left, so seeking one declaration after the
other ends. -/
theorem length_of_seek {x y : Extractor} {lead : Lead} {ts : List Token}
    (h : x.seek ts = .lead lead y) : y.tokens.length < ts.length := by
  induction ts generalizing x with
  | nil =>
    simp only [seek, atEnd] at h
    split at h <;> cases h
  | cons t ts ih =>
    simp only [seek] at h
    split at h
    · cases h
    · split at h
      · cases h; exact Nat.lt_succ_self _
      · split at h
        · cases h
        · exact Nat.lt_succ_of_lt (ih h)

/-- **Progress.**  An extractor that yields a declaration has fewer tokens left. -/
theorem length_of_next {x after : Extractor} {d : Declaration}
    (h : x.next = .declaration d after) : after.tokens.length < x.tokens.length := by
  unfold next at h
  split at h
  · cases h
  · cases h
  · rename_i lead y sought
    split at h
    · cases h
    · rename_i r reading
      cases h
      have := length_of_seek sought
      have := length_of_readDeclaration reading
      dsimp only
      omega

end Extractor

/-! ### All declarations -/

/-- The declarations of a text up to its end or to the first error. -/
structure Extraction where
  declarations : List Declaration
  failure : Option ParseError
deriving DecidableEq, Repr

/-- Extracts all declarations that are left. -/
def Extractor.run (x : Extractor) : Extraction :=
  match _h : x.next with
  | .declaration d after =>
    let more := after.run
    ⟨d :: more.declarations, more.failure⟩
  | .failed error => ⟨[], some error⟩
  | .finished => ⟨[], none⟩
termination_by x.tokens.length
decreasing_by exact Extractor.length_of_next (by assumption)

/-- The declarations of a text up to its end or to the first error. -/
def extract (source : Text) (options : Options) : Extraction :=
  (Extractor.start source options).run

/-- The declarations of a text, or the first error. -/
def declarations (source : Text) (options : Options) : Except ParseError (List Declaration) :=
  let extraction := extract source options
  match extraction.failure with
  | some error => .error error
  | none => .ok extraction.declarations

end Twinfold
