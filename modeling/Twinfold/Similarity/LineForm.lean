import Twinfold.Similarity.Basic
import Twinfold.Token.Lexer

/-!
# What is compared of a line

A line is lexed once more on its own.  Its `LineForm` holds the tokens and a
**key**: two lines are equal if their keys are.

* With white space normalised the key is the token texts with single spaces in
  between; otherwise the gaps stay as they are.
* Where parameters are compared by position, a word that names a parameter stands
  in the key as the null character and the position, so that the name does not count.
* A line that cannot be lexed is compared by its text and has no tokens.

A callee can only become an argument if it is free in its function.  Bound are the
names that declarations introduce in the lines of the body (`markBindings`) and the
names in the parameter lists of nested functions, of arrows and of `catch` clauses
(`nestedNames`).  Marks are set line by line: at a declaration keyword, at the name or
the whole pattern behind it, and at the further names of a `var`, `let` or `const` list.
-/

namespace Twinfold

/-! ### Keys -/

/-- A token of a line, with the position of the parameter it names. -/
structure FormToken where
  token : Token
  param : Option Nat
deriving DecidableEq, Repr

namespace FormToken

/-- What stands in a key for the token. -/
def word (t : FormToken) : Text :=
  match t.param with
  | some position => '\x00' :: Text.ofNat position
  | none => t.token.text

/-- Whether two tokens are the same: they name parameters at one position, or neither
names a parameter and the texts agree. -/
def same (t u : FormToken) : Bool :=
  match t.param, u.param with
  | some p, some q => p = q
  | none, none => t.token.text = u.token.text
  | _, _ => false

end FormToken

/-- Whether a token between two neighbours is the key of a property. -/
def isPropertyKey (before after : Option Token) : Bool :=
  after.any (fun t => t.punctIs ":") && before.all fun t => t.isAnyOf ["\x7b", ","]

/-- The position of the parameter a token names.  A word behind a dot and the key of
a property name none. -/
def paramPosition? (names : List Text) (before : Option Token) (t : Token)
    (after : Option Token) : Option Nat :=
  if t.kind = .ident && !before.any (fun b => b.isAnyOf [".", "?."]) &&
      !isPropertyKey before after then
    names.findIdx? fun name => name = t.text
  else none

/-- The tokens of a line behind `before`, with the parameters they name. -/
def formTokens (names : List Text) : (before : Option Token) → List Token → List FormToken
  | _, [] => []
  | before, t :: ts =>
    ⟨t, paramPosition? names before t ts.head?⟩ :: formTokens names (some t) ts

/-- What is compared of a line. -/
structure LineForm where
  text : Text
  key : Text
  tokens : List FormToken
deriving DecidableEq, Repr

namespace LineForm

/-- The form of a line in a function whose parameters have the given names. -/
def of (rules : LineRules) (names : List Text) (text : Text) : LineForm :=
  match tokenize text with
  | .error _ => ⟨text, text, []⟩
  | .ok lexed =>
    let tokens := formTokens (if rules.ignoreParamNames then names else []) none lexed
    let key :=
      if rules.normalizeWhitespace then Text.join [' '] (tokens.map FormToken.word)
      else
        tokens.flatMap (fun t => t.token.gap ++ t.word) ++
          text.drop (Token.sourceOf lexed).length
    ⟨text, key, tokens⟩

/-- The lexed tokens of the line. -/
def lexed (line : LineForm) : List Token := line.tokens.map FormToken.token

end LineForm

/-! ### Which names a body binds -/

/-- The words that begin a declaration. -/
def declarationWords : List String := ["var", "let", "const", "function", "class"]

/-- The words that begin a list of declarations. -/
def listWords : List String := ["var", "let", "const"]

/-- Where in a line the search for bindings stands. -/
structure BindingState where
  /-- How many more delimiters were opened than closed. -/
  depth : Int := 0
  /-- The depth of an open list of declarations, where commas introduce names. -/
  listDepth : Option Int := none
  /-- Whether the next token may be a name or a pattern that is bound. -/
  expectsName : Bool := false
  /-- The depth outside of an open pattern. -/
  pattern : Option Int := none

/-- Reads a token: whether it is marked, and the state behind it. -/
def BindingState.read (s : BindingState) (t : Token) : Bool × BindingState :=
  match s.pattern with
  | some outside =>
    if t.opens then (true, { s with depth := s.depth + 1 })
    else if t.closes then
      let depth := s.depth - 1
      (true, { s with depth, pattern := if depth = outside then none else some outside })
    else (true, s)
  | none =>
    if t.kind = .ident && t.isAnyOf declarationWords then
      let listDepth := if t.isAnyOf listWords then some s.depth else none
      (true, { s with expectsName := true, listDepth })
    else if s.expectsName && t.kind = .ident then (true, { s with expectsName := false })
    else if s.expectsName && (t.punctIs "\x7b" || t.punctIs "[") then
      (true, { s with expectsName := false, pattern := some s.depth, depth := s.depth + 1 })
    else
      let s := { s with expectsName := false }
      if t.opens then (false, { s with depth := s.depth + 1 })
      else if t.closes then
        let depth := s.depth - 1
        (false, { s with depth, listDepth := s.listDepth.filter fun d => d ≤ depth })
      else if t.punctIs "," && s.listDepth = some s.depth then (false, { s with expectsName := true })
      else if t.punctIs ";" then (false, { s with listDepth := none })
      else (false, s)

/-- For every token of a line whether it belongs to a binding. -/
def markBindings (s : BindingState) : List Token → List Bool
  | [] => []
  | t :: ts =>
    let (mark, s) := s.read t
    mark :: markBindings s ts

namespace LineForm

/-- For every token of the line whether it belongs to a binding. -/
def marks (line : LineForm) : List Bool := markBindings {} line.lexed

/-- Whether the line declares something. -/
def declares (line : LineForm) : Bool := line.marks.any id

/-- The names the line declares. -/
def declaredNames (line : LineForm) : List Text :=
  (line.lexed.zip line.marks).filterMap fun (t, marked) =>
    if marked && t.kind = .ident then some t.text else none

end LineForm

/-! ### Parameter lists inside a body -/

/-- The words up to the closing delimiter that brings the depth to zero. -/
def namesUpToClose : (depth : Nat) → List Token → List Text
  | _, [] => []
  | depth, t :: ts =>
    if t.opens then namesUpToClose (depth + 1) ts
    else if t.closes then if depth ≤ 1 then [] else namesUpToClose (depth - 1) ts
    else if t.kind = .ident then t.text :: namesUpToClose depth ts
    else namesUpToClose depth ts

/-- The words back to the opening delimiter that brings the depth to zero, in tokens
that are listed backwards; nothing if there is no such delimiter. -/
def namesBackToOpen? : (depth : Nat) → List Token → Option (List Text)
  | _, [] => none
  | depth, t :: ts =>
    if t.closes then namesBackToOpen? (depth + 1) ts
    else if t.opens then if depth ≤ 1 then some [] else namesBackToOpen? (depth - 1) ts
    else if t.kind = .ident then (namesBackToOpen? depth ts).map (t.text :: ·)
    else namesBackToOpen? depth ts

/-- The parameters in front of an arrow; `before` lists the tokens there backwards. -/
def arrowParams (before : List Token) : List Text :=
  match before with
  | [] => []
  | t :: _ =>
    if t.kind = .ident then [t.text]
    else if t.punctIs ")" then (namesBackToOpen? 0 before).getD []
    else []

/-- The words in the list behind `function` or `catch`, which opens within the next
three tokens. -/
def clauseParams (after : List Token) : List Text :=
  let lead := after.takeWhile fun t => !t.punctIs "("
  if lead.length < 3 then namesUpToClose 0 (after.drop lead.length) else []

/-- The names in the parameter lists of nested functions, arrows and `catch` clauses;
`before` lists the tokens already passed, backwards. -/
def nestedNames (before : List Token) : List Token → List Text
  | [] => []
  | t :: ts =>
    (if t.punctIs "=>" then arrowParams before
     else if t.kind = .ident && t.isAnyOf ["function", "catch"] then clauseParams ts
     else []) ++ nestedNames (t :: before) ts

end Twinfold
