import Twinfold.Declaration.Parts

/-!
# Recognising and reading a declaration

A declaration begins at a word `function`, or at an `async` in front of it, that begins
a statement (`leadAt?`).  Whether a word begins a statement is decided from the token
before it (`beginsStatement`): there is none, or it ends or opens a statement, or a
complete expression stands before a line end.

`readDeclaration` reads on behind the word: an optional `*`, the name, the parameters
and the body.

* `length_of_readDeclaration` — a declaration uses up tokens.
-/

namespace Twinfold

/-- The words that wait for an operand: no statement ends behind them. -/
def operandWords : List String :=
  ["new", "typeof", "void", "delete", "in", "of", "instanceof", "await", "yield", "case",
   "extends", "async", "function"]

/-- Whether an expression can end with the token. -/
def Token.endsExpression (t : Token) : Bool :=
  match t.kind with
  | .ident => !t.isAnyOf operandWords
  | .number | .string | .template | .regex => true
  | .punct => t.isAnyOf [")", "]", "++", "--"]

/-- Whether a statement can begin with `t`, which stands behind `previous`. -/
def beginsStatement (previous : Option Token) (t : Token) : Bool :=
  match previous with
  | none => true
  | some p =>
    (p.kind = .punct && p.isAnyOf [";", "\x7b", "\x7d"]) ||
    (p.kind = .ident && p.isAnyOf ["export", "default"]) ||
    (p.endsExpression && t.gap.breaksLine)

/-- How a declaration begins. -/
structure Lead where
  /-- The first token of the declaration: `async` or `function`. -/
  first : Token
  /-- The word `function`. -/
  keyword : Token
  isAsync : Bool
  /-- Whether the declaration is a default export and needs no name. -/
  afterDefault : Bool
deriving DecidableEq, Repr

/-- Whether a declaration goes on with these tokens behind the word `function`.  If
there are none, reading the declaration reports what is wrong. -/
def continuesDeclaration (afterDefault : Bool) : List Token → Bool
  | [] => true
  | t :: _ => t.kind = .ident || t.punctIs "*" || (afterDefault && t.punctIs "(")

/-- The beginning of a declaration whose word `function` is `t`, if one begins here.
The tokens `previous` and `beforePrevious` precede `t`, and `rest` follows. -/
def leadAt? (previous beforePrevious : Option Token) (t : Token) (rest : List Token) :
    Option Lead :=
  let afterAsync := previous.any fun p => p.identIs "async"
  let asyncLead := previous.filter fun p => afterAsync && beginsStatement beforePrevious p
  let (first, opener) := match asyncLead with
    | some p => (p, beforePrevious)
    | none => (t, previous)
  let afterDefault := opener.any fun o => o.identIs "default"
  if t.identIs "function" && (asyncLead.isSome || !afterAsync) && beginsStatement opener first &&
      continuesDeclaration afterDefault rest then
    some ⟨first, t, asyncLead.isSome, afterDefault⟩
  else none

/-! ### Reading one declaration -/

/-- Takes the first token if it passes a test. -/
def takeIf (p : Token → Bool) : List Token → Option Token × List Token
  | [] => (none, [])
  | t :: ts => if p t then (some t, ts) else (none, t :: ts)

/-- Takes a punctuator; another token in its place is unexpected. -/
def expectPunct (text : String) (atEnd : ParseError) :
    List Token → Except ParseError (Token × List Token)
  | [] => .error atEnd
  | t :: ts => if t.punctIs text then .ok (t, ts) else .error ⟨.unexpectedToken, t.place⟩

/-- The name of a declaration, which only a default export may lack. -/
def nameOf (afterDefault : Bool) (atEnd : ParseError) (name : Option Token) (rest : List Token) :
    Except ParseError Text :=
  match name, rest with
  | some t, _ => .ok t.text
  | none, [] => .error atEnd
  | none, t :: _ =>
    if afterDefault then .ok "default".toList else .error ⟨.missingName, t.place⟩

/-- A declaration as it is read, together with the brace that closes it and the
tokens behind it. -/
structure Reading where
  declaration : Declaration
  close : Token
  rest : List Token

/-- Reads the declaration behind its `lead`. -/
def readDeclaration (normalize : Bool) (failure : Option ParseError) (index : Nat)
    (scope : Option Nat) (lead : Lead) (tokens : List Token) : Except ParseError Reading := do
  let atEnd := failure.getD ⟨.unexpectedToken, lead.keyword.place⟩
  let (star, tokens) := takeIf (fun t => t.punctIs "*") tokens
  let (ident, tokens) := takeIf (fun t => t.kind = .ident) tokens
  let name ← nameOf lead.afterDefault atEnd ident tokens
  let (paren, tokens) ← expectPunct "(" atEnd tokens
  let params ← enclose failure paren [] tokens
  let (brace, tokens) ← expectPunct "\x7b" atEnd params.rest
  let body ← enclose failure brace [] tokens
  let keywords := if lead.isAsync then [lead.keyword] else []
  let headerTokens := keywords ++ star.toList ++ ident.toList ++
    (paren :: params.inner) ++ [params.close]
  .ok {
    declaration := {
      index
      name
      params := readParams params.inner params.close.gap
      flavor := .of lead.isAsync star.isSome
      lines := readLines normalize brace body.inner body.close.gap
      start := lead.first.start
      bodyStart := brace.start
      stop := body.close.stop
      line := lead.keyword.place.line
      scope
      header := lead.first.text ++ Token.sourceOf headerTokens ++ brace.gap
      body := brace.text ++ Token.sourceOf (body.inner ++ [body.close]) }
    close := body.close
    rest := body.rest }

/-! ### A declaration uses up tokens -/

/-- Taking a token that may be there leaves no more than there was. -/
theorem length_takeIf (p : Token → Bool) (ts : List Token) :
    (takeIf p ts).2.length ≤ ts.length := by
  unfold takeIf
  split
  · exact Nat.le_refl _
  · split <;> simp

/-- Behind an expected punctuator fewer tokens are left. -/
theorem length_of_expectPunct {text : String} {e : ParseError} {ts : List Token}
    {r : Token × List Token} (h : expectPunct text e ts = .ok r) : r.2.length < ts.length := by
  unfold expectPunct at h
  split at h
  · cases h
  · split at h
    · cases h; exact Nat.lt_succ_self _
    · cases h

/-- Behind a declaration less is left.  Each part that is read takes tokens from the front, and the
body at least its brace. -/
theorem length_of_readDeclaration {normalize : Bool} {failure : Option ParseError} {index : Nat}
    {scope : Option Nat} {lead : Lead} {tokens : List Token} {r : Reading}
    (h : readDeclaration normalize failure index scope lead tokens = .ok r) :
    r.rest.length < tokens.length := by
  have star := length_takeIf (fun t => t.punctIs "*") tokens
  have ident := length_takeIf (fun t => t.kind = .ident)
    (takeIf (fun t => t.punctIs "*") tokens).2
  simp only [readDeclaration, bind, Except.bind] at h
  split at h
  · cases h
  · split at h
    · cases h
    · rename_i paren hparen
      split at h
      · cases h
      · rename_i params hparams
        split at h
        · cases h
        · rename_i brace hbrace
          split at h
          · cases h
          · rename_i body hbody
            cases h
            have := length_of_expectPunct hparen
            have := length_of_enclose _ _ _ _ hparams
            have := length_of_expectPunct hbrace
            have := length_of_enclose _ _ _ _ hbody
            dsimp only
            omega

end Twinfold
