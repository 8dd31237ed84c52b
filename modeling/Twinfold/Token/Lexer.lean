import Twinfold.Token.Scanners

/-!
# From text to tokens

A `Lexer` is a place in a text: what is left to read, what was already skipped in
front of it, and the token before.  `Lexer.next` reads one token; `Lexer.run` reads them all,
which `tokenize` does from the start of a text.

Whether a `/` begins a regular expression or divides depends on the token before
it (`slashBeginsRegex`).  Punctuators are read as long as possible, in the order of
the list `longPuncts`.

* `Lexer.rest_lt_of_next` — reading a token leaves less to read, so a run ends.
-/

namespace Twinfold

/-- The punctuators of more than one character; the first that fits is taken. -/
def longPuncts : List String :=
  [">>>=", "...", "===", "!==", "**=", "<<=", ">>=", ">>>", "&&=", "||=", "??=", "=>", "==",
   "!=", "<=", ">=", "&&", "||", "??", "?.", "++", "--", "+=", "-=", "*=", "/=", "%=", "&=",
   "|=", "^=", "**", "<<", ">>"]

/-- The words after which a `/` begins a regular expression. -/
def wordsBeforeRegex : List String :=
  ["return", "typeof", "instanceof", "in", "of", "new", "delete", "void", "throw", "case", "do",
   "else", "yield", "await"]

/-- The characters an identifier begins with: ASCII letters, `_`, `$` and everything
beyond ASCII. -/
def beginsIdent (c : Char) : Bool := c.isAlpha || c = '_' || c = '$' || 128 ≤ c.toNat

/-- The characters of an identifier: those it begins with, and digits. -/
def continuesIdent (c : Char) : Bool := beginsIdent c || c.isDigit

/-- Whether a `/` behind the token `previous` begins a regular expression. -/
def slashBeginsRegex : Option Token → Bool
  | none => true
  | some t =>
    match t.kind with
    | .ident => t.isAnyOf wordsBeforeRegex
    | .punct => !t.isAnyOf [")", "]", "++", "--"]
    | .number | .string | .template | .regex => false

/-- The scan that takes the first `n` characters of a line. -/
def takeChars (n : Nat) (p : Place) (t : Text) : Scan :=
  .found (t.take n) (t.drop n) (p.pastText (t.take n))

/-- How many characters continue a number whose last character is `last`.  A sign
continues the number after an exponent mark, except in hexadecimal. -/
def numberLength (hex : Bool) (last : Char) : Text → Nat
  | [] => 0
  | c :: rest =>
    if c.isAlphanum || c = '.' || c = '_' ||
        (!hex && (c = '+' || c = '-') && (last = 'e' || last = 'E')) then
      numberLength hex c rest + 1
    else 0

/-- Whether a text begins like a hexadecimal number. -/
def isHex : Text → Bool
  | '0' :: c :: _ => c = 'x' || c = 'X'
  | _ => false

/-- The length of the identifier a text begins with. -/
def identLength (t : Text) : Nat := (t.takeWhile fun c => continuesIdent c && !isWideSpace c).length

/-- The length of the punctuator a text begins with. -/
def punctLength (t : Text) : Nat :=
  match longPuncts.find? fun s => s.toList.isPrefixOf t with
  | some s => s.length
  | none => 1

/-- Takes the flags behind the body of a regular expression. -/
def Scan.withFlags : Scan → Scan
  | .found taken rest place =>
    let flags := rest.takeWhile continuesIdent
    .found (taken ++ flags) (rest.drop flags.length) (place.pastText flags)
  | .failed error stopped => .failed error stopped

/-- Reads the token that begins with the character `c` at place `p`. -/
def scanToken (previous : Option Token) (p : Place) (c : Char) (rest : Text) : TokenKind × Scan :=
  if c = '"' || c = '\'' then
    (.string, (scanFrames [.quoted c false p] (p.past c) rest).cons c)
  else if c = '`' then
    (.template, (scanFrames [.template false p] (p.past c) rest).cons c)
  else if c.isDigit || (c = '.' && rest.head?.any Char.isDigit) then
    (.number, (takeChars (numberLength (isHex (c :: rest)) c rest) (p.past c) rest).cons c)
  else if beginsIdent c then
    (.ident, (takeChars (identLength rest) (p.past c) rest).cons c)
  else if c = '/' && slashBeginsRegex previous then
    (.regex, ((scanFrames [.regex false false p] (p.past c) rest).cons c).withFlags)
  else
    (.punct, (takeChars (punctLength (c :: rest) - 1) (p.past c) rest).cons c)

/-- A place in a text that is read token by token. -/
structure Lexer where
  /-- The characters that were passed over and belong to no token yet. -/
  skipped : Text
  /-- What is left to read. -/
  rest : Text
  place : Place
  previous : Option Token

/-- One step of a lexer. -/
inductive LexerStep
  | token (t : Token) (after : Lexer)
  /-- There are no more tokens. -/
  | finished (after : Lexer)
  /-- The text cannot be read further. -/
  | failed (error : ParseError) (after : Lexer)

namespace Lexer

/-- The lexer at the start of a text.  A first line that begins with `#!` belongs to the
first gap. -/
def start (source : Text) : Lexer :=
  if ['#', '!'].isPrefixOf source then
    let line := source.takeWhile (· ≠ '\n')
    ⟨line, source.drop line.length, Place.start.pastText line, none⟩
  else ⟨[], source, Place.start, none⟩

/-- A lexer with nothing left to read, which stopped at a byte offset. -/
def spent (offset : Nat) (l : Lexer) : Lexer :=
  { l with skipped := [], rest := [], place := { l.place with offset } }

/-- Reads one token.  After the last token and after an error the lexer is spent,
and every further step is `finished`. -/
def next (l : Lexer) : LexerStep :=
  match readGap none l.place l.rest with
  | .failed error stopped => .failed error (l.spent stopped)
  | .found gap rest place =>
    match rest with
    | [] => .finished ⟨l.skipped ++ gap, [], place, l.previous⟩
    | c :: rest =>
      match scanToken l.previous place c rest with
      | (_, .failed error stopped) => .failed error (l.spent stopped)
      | (kind, .found text rest after) =>
        let t : Token := ⟨kind, l.skipped ++ gap, text, place⟩
        .token t ⟨[], rest, after, some t⟩

end Lexer

/-! ### A token leaves less to read -/

/-- A character in front of what was taken changes nothing behind it. -/
theorem Scan.length_cons {c : Char} {s : Scan} {taken rest : Text} {p : Place} {n : Nat}
    (bound : ∀ taken rest p, s = .found taken rest p → rest.length ≤ n)
    (h : s.cons c = .found taken rest p) : rest.length ≤ n := by
  cases s with
  | found a b q => cases h; exact bound _ _ _ rfl
  | failed e o => cases h

/-- Reading a gap never adds to what is left.  A gap may be empty. -/
theorem length_of_readGap (k : Option Comment) (p : Place) (t : Text) :
    ∀ taken rest q, readGap k p t = .found taken rest q → rest.length ≤ t.length := by
  induction t generalizing k p with
  | nil =>
    intro taken rest q h
    rcases k with _ | _ | _ <;> simp_all [readGap, Comment.atEnd]
  | cons c t ih =>
    intro taken rest q h
    have step : ∀ k p, (readGap k p t).cons c = .found taken rest q →
        rest.length ≤ (c :: t).length := fun k p h =>
      Nat.le_succ_of_le (Scan.length_cons (ih k p) h)
    cases k with
    | some k => exact step _ _ (by simpa [readGap] using h)
    | none =>
      simp only [readGap] at h
      split at h
      · exact step _ _ h
      · split at h
        · exact step _ _ h
        · cases h; exact Nat.le_refl _

/-- Reading frames never adds to what is left.  With no frame open nothing is read at all. -/
theorem length_of_scanFrames (frames : List Frame) (p : Place) (t : Text) :
    ∀ taken rest q, scanFrames frames p t = .found taken rest q → rest.length ≤ t.length := by
  induction t generalizing frames p with
  | nil =>
    intro taken rest q h
    cases frames with
    | nil => simp_all [scanFrames]
    | cons f fs =>
      simp only [scanFrames] at h
      unfold Frame.atEnd at h
      split at h <;> simp_all [Comment.atEnd]
  | cons c t ih =>
    intro taken rest q h
    cases frames with
    | nil => simp_all [scanFrames]
    | cons f fs =>
      simp only [scanFrames] at h
      split at h
      · cases h
      · exact Nat.le_succ_of_le (Scan.length_cons (ih _ _) h)

/-- Taking characters leaves no more than there was. -/
theorem length_of_takeChars {n : Nat} {p : Place} {t : Text} :
    ∀ taken rest q, takeChars n p t = .found taken rest q → rest.length ≤ t.length := by
  intro taken rest q h
  cases h
  simp

/-- Flags are only taken from what is left. -/
theorem Scan.length_withFlags {s : Scan} {n : Nat}
    (bound : ∀ taken rest p, s = .found taken rest p → rest.length ≤ n) :
    ∀ taken rest p, s.withFlags = .found taken rest p → rest.length ≤ n := by
  intro taken rest p h
  cases s with
  | failed e o => cases h
  | found a b q =>
    cases h
    have := bound _ _ _ rfl
    simp only [List.length_drop]
    omega

/-- Behind a token less is left than from its first character on.  The first character is part of
every token. -/
theorem length_of_scanToken {previous : Option Token} {p : Place} {c : Char} {t : Text} :
    ∀ taken rest q, (scanToken previous p c t).2 = .found taken rest q →
      rest.length ≤ t.length := by
  intro taken rest q h
  unfold scanToken at h
  split at h
  · exact Scan.length_cons (length_of_scanFrames _ _ _) h
  · split at h
    · exact Scan.length_cons (length_of_scanFrames _ _ _) h
    · split at h
      · exact Scan.length_cons length_of_takeChars h
      · split at h
        · exact Scan.length_cons length_of_takeChars h
        · split at h
          · exact Scan.length_withFlags
              (fun _ _ _ => Scan.length_cons (length_of_scanFrames _ _ _)) _ _ _ h
          · exact Scan.length_cons length_of_takeChars h

namespace Lexer

/-- **Progress.**  A lexer that yields a token has less to read afterwards.  So the lexer comes to
the end of its text. -/
theorem rest_lt_of_next {l after : Lexer} {t : Token} (h : l.next = .token t after) :
    after.rest.length < l.rest.length := by
  unfold next at h
  split at h
  · cases h
  · rename_i gap rest place found
    have skipped := length_of_readGap _ _ _ _ _ _ found
    split at h
    · cases h
    · rename_i c rest
      split at h
      · cases h
      · rename_i kind text rest' after' scanned
        cases h
        have := length_of_scanToken text rest' after' (by rw [scanned])
        simp only [List.length_cons] at skipped
        exact Nat.lt_of_le_of_lt this skipped

end Lexer

/-- The tokens of a text up to its end or to the first error. -/
structure Lexed where
  tokens : List Token
  failure : Option ParseError
deriving DecidableEq, Repr

/-- Reads all tokens that are left. -/
def Lexer.run (l : Lexer) : Lexed :=
  match _h : l.next with
  | .token t after =>
    let more := after.run
    ⟨t :: more.tokens, more.failure⟩
  | .finished _ => ⟨[], none⟩
  | .failed error _ => ⟨[], some error⟩
termination_by l.rest.length
decreasing_by exact Lexer.rest_lt_of_next (by assumption)

/-- The tokens of a text up to its end or to the first error. -/
def lex (source : Text) : Lexed := (Lexer.start source).run

/-- The tokens of a text, or the first error. -/
def tokenize (source : Text) : Except ParseError (List Token) :=
  let lexed := lex source
  match lexed.failure with
  | some error => .error error
  | none => .ok lexed.tokens

end Twinfold
