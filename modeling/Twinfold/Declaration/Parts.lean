import Twinfold.Declaration.Basic
import Twinfold.Text.CharClass
import Twinfold.Token.Basic

/-!
# The parts of a function

`enclose` reads from behind an opening delimiter to its partner.  Delimiters in
between have to be balanced.  There are two ways to fail: a closing delimiter that
does not fit the innermost open one, which is blamed, and the end of the tokens,
for which the innermost open delimiter is blamed.  Behind the closing delimiter
less is left (`length_of_enclose`).

The parameters of a function are the pieces of its parameter list between the
commas that stand in no further delimiters, each without the white space around
it.  A last piece that is empty, as after a trailing comma, is no parameter.

The tokens of a function body fall into runs, its logical lines.  A line ends
where the source line ends, after `{`, around `}`, and after a `;` that stands
directly in a block (`endsLine`).  `splitRuns` cuts the tokens accordingly and
`readLines` gives each run its text.  The text of a line goes from its first to its
last token.  When white space matters, a line also takes the spaces and tabs behind
it, and those in front of it that the line before has left.
-/

namespace Twinfold

/-! ### What a pair of delimiters encloses -/

/-- The tokens between two delimiters, the closing one, and what comes after it. -/
structure Enclosure where
  inner : List Token
  close : Token
  rest : List Token
deriving DecidableEq, Repr

/-- Puts a token in front of the enclosed ones. -/
def Enclosure.cons (t : Token) (e : Enclosure) : Enclosure := { e with inner := t :: e.inner }

/-- Reads up to the partner of the outermost of the open delimiters; `opener` is the
innermost of them and `outer` are the others.  If the tokens end because the text
could not be read further, `failure` tells why. -/
def enclose (failure : Option ParseError) (opener : Token) (outer : List Token) :
    List Token → Except ParseError Enclosure
  | [] => .error (failure.getD opener.unbalanced)
  | t :: ts =>
    if t.opens then (enclose failure t (opener :: outer) ts).map (.cons t)
    else if t.closes then
      if opener.closedBy t then
        match outer with
        | [] => .ok ⟨[], t, ts⟩
        | o :: os => (enclose failure o os ts).map (.cons t)
      else .error t.unbalanced
    else (enclose failure opener outer ts).map (.cons t)

/-- A token in front of an enclosure changes nothing behind it. -/
theorem rest_of_map_cons {r : Except ParseError Enclosure} {t : Token} {e : Enclosure} {n : Nat}
    (bound : ∀ e, r = .ok e → e.rest.length < n) (h : r.map (.cons t) = .ok e) :
    e.rest.length < n := by
  cases r with
  | error x => cases h
  | ok e' => cases h; exact bound e' rfl

/-- Behind the closing delimiter less is left.  So the part behind a nested delimiter can be read
by recursion. -/
theorem length_of_enclose {failure : Option ParseError} (opener : Token) (outer ts : List Token) :
    ∀ e, enclose failure opener outer ts = .ok e → e.rest.length < ts.length := by
  induction ts generalizing opener outer with
  | nil => intro e h; cases h
  | cons t ts ih =>
    intro e h
    have step : ∀ opener outer, (enclose failure opener outer ts).map (.cons t) = .ok e →
        e.rest.length < (t :: ts).length := fun opener outer h =>
      Nat.lt_succ_of_lt (rest_of_map_cons (ih opener outer) h)
    unfold enclose at h
    split at h
    · exact step _ _ h
    · split at h
      · split at h
        · split at h
          · cases h; exact Nat.lt_succ_self _
          · exact step _ _ h
        · cases h
      · exact step _ _ h

/-! ### Parameter lists -/

/-- How many delimiters are open behind a token. -/
def Token.depthAfter (depth : Nat) (t : Token) : Nat :=
  if t.opens then depth + 1 else if t.closes then depth - 1 else depth

/-- The pieces between the outermost commas; `closing` is the gap behind the last token. -/
def paramPieces (closing : Text) : Nat → List Token → List Text
  | _, [] => [closing]
  | depth, t :: ts =>
    if depth = 0 && t.punctIs "," then t.gap :: paramPieces closing depth ts
    else
      match paramPieces closing (t.depthAfter depth) ts with
      | [] => []
      | piece :: pieces => (t.source ++ piece) :: pieces

/-- The pieces as parameters. -/
def paramsOfPieces : List Text → List Text
  | [] => []
  | [last] => if last.trim.isEmpty then [] else [last.trim]
  | piece :: pieces => piece.trim :: paramsOfPieces pieces

/-- The parameters in a list of tokens that `closing` separates from the closing
parenthesis. -/
def readParams (ts : List Token) (closing : Text) : List Text :=
  paramsOfPieces (paramPieces closing 0 ts)

/-! ### Logical lines -/

/-- The tokens of one logical line. -/
structure LineRun where
  first : Token
  others : List Token
deriving DecidableEq, Repr

namespace LineRun

/-- The tokens of the run. -/
def tokens (r : LineRun) : List Token := r.first :: r.others

/-- The last token of the run. -/
def last (r : LineRun) : Token := r.others.getLast?.getD r.first

/-- The line with given blanks in front of it and behind it. -/
def toLine (before behind : Text) (r : LineRun) : LogicalLine where
  text := before ++ r.first.text ++ Token.sourceOf r.others ++ behind
  start := r.first.start - before.size
  stop := r.last.stop + behind.size
  tokenCount := r.others.length + 1

end LineRun

/-- The delimiters that are open behind a token, innermost first. -/
def Token.openAfter (opened : List Token) (t : Token) : List Token :=
  if t.opens then t :: opened else if t.closes then opened.tail else opened

/-- Whether a line ends between the neighbours `t` and `u`; `opened` are the
delimiters open behind `t`. -/
def endsLine (opened : List Token) (t u : Token) : Bool :=
  u.gap.breaksLine || t.punctIs "\x7b" || t.punctIs "\x7d" || u.punctIs "\x7d" ||
    (t.punctIs ";" && opened.head?.any fun o => o.punctIs "\x7b")

/-- Cuts tokens into lines; `opened` are the delimiters open in front of them. -/
def splitRuns : (opened : List Token) → List Token → List LineRun
  | _, [] => []
  | opened, t :: ts =>
    let opened := t.openAfter opened
    match splitRuns opened ts with
    | [] => [⟨t, []⟩]
    | r :: rs => if endsLine opened t r.first then ⟨t, []⟩ :: r :: rs else ⟨t, r.tokens⟩ :: rs

/-- Spaces and tabs, the blanks a line may take with it. -/
def isIndent (c : Char) : Bool := c = ' ' || c = '\t'

/-- The indentation at the end of a gap. -/
def indentAtEnd (gap : Text) : Text := (gap.reverse.takeWhile isIndent).reverse

/-- The lines of runs with the blanks around them.  `before` is what the line before
has left of the gap in front of the first run, and `closing` is the gap behind the
last one. -/
def wideLines (closing : Text) : (before : Text) → List LineRun → List LogicalLine
  | _, [] => []
  | before, [r] => [r.toLine (indentAtEnd before) (closing.takeWhile isIndent)]
  | before, r :: s :: rs =>
    r.toLine (indentAtEnd before) (s.first.gap.takeWhile isIndent) ::
      wideLines closing (s.first.gap.dropWhile isIndent) (s :: rs)

/-- The lines of a body: `opener` is its brace, `inner` are its tokens and `closing`
is the gap in front of the brace that closes it. -/
def readLines (normalize : Bool) (opener : Token) (inner : List Token) (closing : Text) :
    List LogicalLine :=
  let runs := splitRuns [opener] inner
  if normalize then runs.map (LineRun.toLine [] [])
  else wideLines closing (inner.head?.elim [] Token.gap) runs

end Twinfold
