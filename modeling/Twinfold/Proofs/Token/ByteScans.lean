import Twinfold.Proofs.Token.ByteLiterals

/-!
# Lexing bytes is lexing characters

Every token is scanned alike in bytes and in characters, and so is a whole source file: the lexer over
bytes finds the spans of the tokens that the lexer over characters finds, and the same error behind
them.  Nowhere does it break down: every slice that it asks for begins and ends between characters.

* `scanNumber_eq`, `scanIdent_eq`, `scanPunct_eq` — the scanners of tokens that are no literals;
* `scanToken_followedBy` — a token of any kind;
* `next_overBytes` — one step of the lexer;
* `lex_utf8` — all tokens of a source file.
-/

namespace Twinfold

namespace Bytes

variable {src : Bytes} {p : Place} {c : Char} {t : Text}

/-! ### Numbers, words and punctuators -/

/-- **A number**, behind its character `last`.  Whether a sign goes on with it depends on the byte
in front of the sign, which is that of the character there, since numbers are ASCII. -/
theorem scanNumber_eq (hex : Bool) {last : Char} (hlast : last.toNat < 128)
    (hpos : 0 < p.offset) (hbefore : src[p.offset - 1]? = some (ascii last))
    (h : src.Stands p.offset t) :
    src.scanNumber hex p = pure (p.pastText (t.take (numberLength hex last t))) := by
  induction t generalizing p last with
  | nil =>
    rw [scanNumber_unfold, h.getElem?_end (Nat.le_refl _)]
    rfl
  | cons c t ih =>
    have hstep : src.scanNumber hex p =
        if continuesNumber hex last c then src.scanNumber hex (p.skip 1) else pure p := by
      by_cases hc : c.toNat < 128
      · rw [scanNumber_unfold, h.getElem?_ascii hc]
        simp only [isLetterByte_ascii hc, isDigitByte_ascii hc, hbefore, Option.any_some,
          ascii_eq_iff hc (d := '.') (by decide), ascii_eq_iff hc (d := '_') (by decide),
          ascii_eq_iff hc (d := '+') (by decide), ascii_eq_iff hc (d := '-') (by decide),
          ascii_eq_iff hlast (d := 'e') (by decide), ascii_eq_iff hlast (d := 'E') (by decide)]
        rw [continuesNumber, Char.isAlphanum]
        split_ifs <;> simp_all
      · obtain ⟨b, hb, hle⟩ := h.exists_first_byte (Nat.not_lt.mp hc)
        have hne : ∀ d : Char, d.toNat < 128 → ¬b = ascii d := fun d hd => ne_ascii hle hd
        rw [scanNumber_unfold, hb, continuesNumber_of_le (Nat.not_lt.mp hc)]
        simp only [not_isLetterByte_of_le hle, not_isDigitByte_of_le hle, hne '.' (by decide),
          hne '_' (by decide), hne '+' (by decide), hne '-' (by decide), decide_false, Bool.or_self,
          Bool.and_false, Bool.false_and, Bool.false_eq_true, if_false]
    rw [hstep, numberLength_cons]
    by_cases hmore : continuesNumber hex last c = true
    · have hc : c.toNat < 128 := by
        by_contra hlt
        rw [continuesNumber_of_le (Nat.not_lt.mp hlt)] at hmore
        cases hmore
      rw [if_pos hmore, if_pos hmore, ih hc (p := p.skip 1) (Nat.succ_pos _)
        (h.getElem?_ascii hc) (h.tail_ascii hc)]
      simp only [List.take_succ_cons, Place.pastText, Place.skip, Text.size_cons,
        utf8Size_of_ascii hc, Nat.add_assoc]
    · rw [if_neg hmore, if_neg hmore]
      rfl

/-- **An identifier.**  It ends in front of a space beyond ASCII, which is looked for at every
byte.  Inside a character none is found, so that the end is between characters. -/
theorem scanIdent_eq (h : src.Stands p.offset t) :
    src.scanIdent p =
      pure (p.pastText (t.takeWhile fun c => continuesIdent c && !isWideSpace c)) := by
  have hskip : ∀ (q : Place) (b : UInt8), src[q.offset]? = some b → continuesIdentByte b = true →
      src.wideSpace? q.offset = none → src.scanIdent q = src.scanIdent (q.skip 1) := by
    intro q b hb hcontinues hwide
    rw [scanIdent_unfold, hb]
    exact if_pos (by rw [hcontinues, hwide]; rfl)
  induction t generalizing p with
  | nil =>
    rw [scanIdent_unfold, h.getElem?_end (Nat.le_refl _)]
    rfl
  | cons c t ih =>
    obtain ⟨b, hb⟩ := h.exists_getElem?
    have hcontinues : continuesIdentByte b = continuesIdent c := by
      by_cases hc : c.toNat < 128
      · rw [h.getElem?_ascii hc, Option.some_inj] at hb
        rw [← hb, continuesIdentByte_ascii hc]
      · obtain ⟨b', hb', hle⟩ := h.exists_first_byte (Nat.not_lt.mp hc)
        cases hb.symm.trans hb'
        rw [continuesIdentByte_of_le hle, continuesIdent_of_le (Nat.not_lt.mp hc)]
    have htake := List.takeWhile_cons (a := c) (l := t)
      (p := fun c => continuesIdent c && !isWideSpace c)
    by_cases hmore : (continuesIdent c && !isWideSpace c) = true
    · rw [htake, if_pos hmore]
      simp only [Bool.and_eq_true, Bool.not_eq_true'] at hmore
      obtain ⟨hident, hwide⟩ := hmore
      rw [hskip p b hb (hcontinues.trans hident) (by rw [h.wideSpace?_eq, hwide]; rfl),
        h.walks_rest (f := src.scanIdent), ih h.tail]
      · simp only [Place.pastText, Place.skip, Text.size_cons, Nat.add_assoc]
      · exact fun q b hb hle hwide => hskip q b hb (continuesIdentByte_of_le hle) hwide
    · have hstop : ¬(continuesIdentByte b && (src.wideSpace? p.offset).isNone) = true := by
        rw [hcontinues, h.wideSpace?_eq]
        by_cases hwide : isWideSpace c = true <;> simp_all
      rw [htake, if_neg hmore, scanIdent_unfold, hb]
      exact if_neg hstop

/-- The text that is cut out to find a punctuator is there.  Its bytes are those of a punctuator if
its characters are. -/
theorem scanPunct_stands (h : src.Stands p.offset (c :: t)) :
    src.scanPunct p =
      match longPuncts.find? fun s => s.toList.isPrefixOf (c :: t) with
      | some s => pure (p.skip s.utf8ByteSize)
      | none => pure (p.skip ((Text.utf8 (c :: t)).head?.elim 1 sizeOfLead)) := by
  have hfits (s : String) : (Text.utf8 s.toList).isPrefixOf (Text.utf8 (c :: t)) =
      s.toList.isPrefixOf (c :: t) := by
    rw [Bool.eq_iff_iff, List.isPrefixOf_iff_prefix, List.isPrefixOf_iff_prefix, utf8_prefix_iff]
  simp only [← hfits]
  rw [scanPunct, h.slice?_rest]
  rfl

/-- **A punctuator.**  The bytes that follow are compared with the punctuators, from the longest
ones on, and all of these are ASCII. -/
theorem scanPunct_eq (h : src.Stands p.offset (c :: t)) (hc : c.toNat < 128) :
    src.scanPunct p = pure (p.pastText ((c :: t).take (punctLength (c :: t)))) := by
  have hsizes : ∀ s ∈ longPuncts, s.utf8ByteSize = Text.size s.toList ∧ s.length = s.toList.length := by
    decide
  rw [scanPunct_stands h, punctLength]
  cases hfind : longPuncts.find? fun s => s.toList.isPrefixOf (c :: t) with
  | some s =>
    obtain ⟨hsize, hlength⟩ := hsizes s (List.mem_of_find?_eq_some hfind)
    have hprefix := List.find?_some (p := fun s : String => s.toList.isPrefixOf (c :: t)) hfind
    obtain ⟨rest, hrest⟩ := List.isPrefixOf_iff_prefix.mp hprefix
    dsimp only
    rw [hsize, hlength, ← hrest, List.take_left]
    rfl
  | none =>
    rw [Text.utf8_cons, utf8EncodeChar_of_ascii hc]
    simp [sizeOfLead, ascii_lt hc, Place.pastText, Place.skip, utf8Size_of_ascii hc]

/-! ### Tokens -/

/-- The text of a token can be cut out of the source. -/
def HasText (src : Bytes) (t : Token) : Prop := src.textOf? t.span = some t.text.utf8

/-- **What a slash means** is found in the text of the token before, which can be cut out.  The
lexer over bytes remembers only the span of that token. -/
theorem regexAllowed_eq {previous : Option Token} (h : ∀ t ∈ previous, src.HasText t) :
    src.regexAllowed (previous.map Token.span) = pure (slashBeginsRegex previous) := by
  cases previous with
  | none => rfl
  | some t =>
    have hany : ∀ texts : List String,
        (texts.any fun s => decide (t.text.utf8 = Text.utf8 s.toList)) = t.isAnyOf texts := by
      intro texts
      simp only [Token.isAnyOf, Text.utf8_inj]
    rw [Option.map_some, regexAllowed, h t rfl, slashBeginsRegex, ← hany, ← hany]
    cases hkind : t.kind <;> simp only [Token.span, hkind] <;> rfl

/-- A token begins with a digit in bytes if it does in characters. -/
theorem any_isDigitByte {pos : Nat} (h : src.Stands pos t) :
    (src[pos]?.any isDigitByte) = t.head?.any Char.isDigit := by
  cases t with
  | nil =>
    rw [h.getElem?_end (Nat.le_refl _)]
    rfl
  | cons c t =>
    by_cases hc : c.toNat < 128
    · rw [h.getElem?_ascii hc]
      exact isDigitByte_ascii hc
    · obtain ⟨b, hb, hle⟩ := h.exists_first_byte (Nat.not_lt.mp hc)
      have halphanum := not_isAlphanum_of_le (Nat.not_lt.mp hc)
      rw [Char.isAlphanum, Bool.or_eq_false_iff] at halphanum
      rw [hb]
      exact (not_isDigitByte_of_le hle).trans halphanum.2.symm

/-- A hexadecimal number is told by its first two characters.  Both of them are ASCII if it is one.
-/
theorem isHexAt_eq (h : src.Stands p.offset (c :: t)) : src.isHexAt p.offset = isHex (c :: t) := by
  have hzero := h.getElem?_eq_ascii_iff (d := '0') (by decide)
  rw [List.head?_cons, Option.some_inj] at hzero
  by_cases hc : c = '0'
  · subst hc
    have htail := h.tail_ascii (by decide)
    rw [isHexAt, hzero.mpr rfl, decide_eq_true rfl, Bool.true_and]
    cases t with
    | nil =>
      rw [htail.getElem?_end (Nat.le_refl _)]
      rfl
    | cons d t =>
      obtain ⟨b, hb⟩ := htail.exists_getElem?
      rw [hb]
      simp only [Option.any_some, htail.byte_eq_ascii_iff hb (d := 'x') (by decide),
        htail.byte_eq_ascii_iff hb (d := 'X') (by decide)]
      rfl
  · have hnot : isHex (c :: t) = false := by
      unfold isHex
      split
      · simp_all
      · rfl
    simp [isHexAt, hzero, hc, hnot]

/-- A string, with its quote. -/
theorem outcome_string (h : src.Stands p.offset (c :: t)) (hquote : c = '"' ∨ c = '\'') :
    src.scanString (ascii c) p (p.skip 1) = (scanOf .string p c t).outcome := by
  have hc : c.toNat < 128 := by rcases hquote with rfl | rfl <;> decide
  have hne : c ≠ '\\' := by rcases hquote with rfl | rfl <;> decide
  rw [scanString_eq hc hne p (p := p.skip 1) (h.tail_ascii hc), scanOf, Scan.outcome_cons, Place.past,
    utf8Size_of_ascii hc]
  rfl

/-- A template, with its backtick. -/
theorem outcome_template (h : src.Stands p.offset ('`' :: t)) :
    src.scanTemplate p (p.skip 1) = (scanOf .template p '`' t).outcome := by
  rw [scanTemplate_eq (p := p.skip 1) (h.tail_ascii (by decide)), scanOf, Scan.outcome_cons]
  rfl

/-- A number, with its first character.  It is a digit or a dot, and whether the number is
hexadecimal is looked up once, in front of it. -/
theorem outcome_number (h : src.Stands p.offset (c :: t)) (hfirst : c.isDigit = true ∨ c = '.') :
    src.scanNumber (src.isHexAt p.offset) p = (scanOf .number p c t).outcome := by
  have hc : c.toNat < 128 := by
    by_contra hlt
    have halphanum := not_isAlphanum_of_le (Nat.not_lt.mp hlt)
    rw [Char.isAlphanum, Bool.or_eq_false_iff] at halphanum
    rcases hfirst with hfirst | rfl
    · rw [halphanum.2] at hfirst
      cases hfirst
    · exact hlt (by decide)
  have hstep : src.scanNumber (src.isHexAt p.offset) p =
      src.scanNumber (src.isHexAt p.offset) (p.skip 1) := by
    rw [scanNumber_unfold, h.getElem?_ascii hc]
    refine if_pos ?_
    rw [isDigitByte_ascii hc]
    rcases hfirst with hfirst | rfl
    · rw [hfirst, Bool.or_true, Bool.true_or, Bool.true_or]
    · decide
  rw [hstep, isHexAt_eq h, scanNumber_eq _ hc (p := p.skip 1) (Nat.succ_pos _)
    (h.getElem?_ascii hc) (h.tail_ascii hc), scanOf, takeChars, Scan.outcome_cons, Place.past,
    utf8Size_of_ascii hc]
  rfl

/-- An identifier, with its first letter. -/
theorem outcome_ident (h : src.Stands p.offset (c :: t)) (hletter : beginsIdent c = true)
    (hwide : isWideSpace c = false) : src.scanIdent p = (scanOf .ident p c t).outcome := by
  have htake : (c :: t).takeWhile (fun c => continuesIdent c && !isWideSpace c) =
      c :: t.takeWhile fun c => continuesIdent c && !isWideSpace c :=
    List.takeWhile_cons_of_pos (by simp [continuesIdent, hletter, hwide])
  rw [scanIdent_eq h, htake, scanOf, takeChars, Scan.outcome_cons, identLength,
    ← List.prefix_iff_eq_take.mp (List.takeWhile_prefix _)]
  simp only [Place.pastText, Place.past, Text.size_cons, Nat.add_assoc]
  rfl

/-- A punctuator, with its first character. -/
theorem outcome_punct (h : src.Stands p.offset (c :: t)) (hc : c.toNat < 128) :
    src.scanPunct p = (scanOf .punct p c t).outcome := by
  obtain ⟨n, hn⟩ := Nat.exists_eq_succ_of_ne_zero (Nat.ne_of_gt (punctLength_pos (c :: t)))
  rw [scanPunct_eq h hc, scanOf, takeChars, Scan.outcome_cons, hn, Nat.succ_eq_add_one,
    Nat.add_sub_cancel, List.take_succ_cons]
  simp only [Place.pastText, Place.past, Text.size_cons, Nat.add_assoc]
  rfl

/-- A regular expression, with its opening slash. -/
theorem outcome_regex (h : src.Stands p.offset ('/' :: t)) :
    src.scanRegex p false (p.skip 1) = (scanOf .regex p '/' t).outcome := by
  rw [scanRegex_eq p false (p := p.skip 1) (h.tail_ascii (by decide))]
  exact (Scan.followedBy_withFlags_cons _ _).symm

section

variable {previous : Option Token} {b : UInt8}

/-- An identifier begins with a byte beyond ASCII if it begins with such a character. -/
theorem beginsIdentByte_eq (h : src.Stands p.offset (c :: t)) (hb : src[p.offset]? = some b) :
    beginsIdentByte b = beginsIdent c := by
  by_cases hc : c.toNat < 128
  · rw [h.getElem?_ascii hc, Option.some_inj] at hb
    rw [← hb, beginsIdentByte_ascii hc]
  · obtain ⟨b', hb', hle⟩ := h.exists_first_byte (Nat.not_lt.mp hc)
    cases hb.symm.trans hb'
    simp [beginsIdentByte_of_le hle, beginsIdent, Nat.not_lt.mp hc]

/-- The scan of a token and its kind. -/
theorem bind_outcome_scanOf {kind : TokenKind} {scan : ByteScan Place}
    (h : scan = (scanOf kind p c t).outcome) :
    (do return (kind, ← scan) : ByteScan (TokenKind × Place)) =
      (scanOf kind p c t).followedBy fun _ q => pure (kind, q) := by
  rw [h]
  exact Scan.outcome_bind _

/-- **The token at a position** is read by the same scanner in bytes and in characters.  The first
byte decides as the first character does, and each kind of token has its lemma. -/
theorem scanToken_followedBy (hprevious : ∀ t ∈ previous, src.HasText t)
    (h : src.Stands p.offset (c :: t)) (hspace : isGapSpace c = false)
    (hb : src[p.offset]? = some b) :
    src.scanToken (previous.map Token.span) p b =
      (scanOf (kindAt previous c t.head?) p c t).followedBy fun _ q =>
        pure (kindAt previous c t.head?, q) := by
  have hbyte (d : Char) (hd : d.toNat < 128) : b = ascii d ↔ c = d := h.byte_eq_ascii_iff hb hd
  have hdigit : isDigitByte b = c.isDigit := by
    have hany := any_isDigitByte h
    rwa [hb] at hany
  have hnumber : (c.isDigit || decide (c = '.') && src[p.offset + 1]?.any isDigitByte) =
      (c.isDigit || decide (c = '.') && t.head?.any Char.isDigit) := by
    by_cases hdot : c = '.'
    · subst hdot
      rw [any_isDigitByte (h.tail_ascii (by decide))]
    · simp [hdot]
  rw [scanToken]
  simp only [hbyte '"' (by decide), hbyte '\'' (by decide), hbyte '`' (by decide),
    hbyte '.' (by decide), hbyte '/' (by decide), hdigit, beginsIdentByte_eq h hb, hnumber]
  unfold kindAt
  by_cases hquote : (decide (c = '"') || decide (c = '\'')) = true
  · have hcases : c = '"' ∨ c = '\'' := by simpa using hquote
    have hc : c.toNat < 128 := by rcases hcases with rfl | rfl <;> decide
    rw [if_pos hquote, if_pos hquote, (hbyte c hc).mpr rfl]
    exact bind_outcome_scanOf (outcome_string h hcases)
  rw [if_neg hquote, if_neg hquote]
  by_cases htemplate : c = '`'
  · subst htemplate
    exact bind_outcome_scanOf (outcome_template h)
  rw [if_neg htemplate, if_neg htemplate]
  by_cases hcase : (c.isDigit || decide (c = '.') && t.head?.any Char.isDigit) = true
  · have hfirst : c.isDigit = true ∨ c = '.' := by
      simp only [Bool.or_eq_true, Bool.and_eq_true, decide_eq_true_eq] at hcase
      exact hcase.imp_right And.left
    rw [if_pos hcase, if_pos hcase]
    exact bind_outcome_scanOf (outcome_number h hfirst)
  rw [if_neg hcase, if_neg hcase]
  by_cases hletter : beginsIdent c = true
  · rw [if_pos hletter, if_pos hletter]
    exact bind_outcome_scanOf (outcome_ident h hletter (Bool.or_eq_false_iff.mp hspace).2)
  rw [if_neg hletter, if_neg hletter]
  have hc : c.toNat < 128 := by
    by_contra hlt
    exact hletter (by simp [beginsIdent, Nat.not_lt.mp hlt])
  have hpunct := bind_outcome_scanOf (outcome_punct h hc)
  by_cases hslash : c = '/'
  · subst hslash
    rw [if_pos rfl, regexAllowed_eq hprevious, pure_bind]
    cases slashBeginsRegex previous with
    | false => exact hpunct
    | true => exact bind_outcome_scanOf (outcome_regex h)
  · simpa [hslash] using hpunct

end

end Bytes

/-! ### Lexers -/

/-- A lexer over characters as a lexer over bytes. -/
def Lexer.overBytes (l : Lexer) : ByteLexer := ⟨l.place, l.previous.map Token.span, false⟩

/-- A step of a lexer over characters as a step over bytes. -/
def LexerStep.overBytes : LexerStep → ByteStep
  | .token t after => .token t.span after.overBytes
  | .finished after => .finished after.overBytes
  | .failed e after => .failed e { after.overBytes with failed := true }

/-- A lexer stands in a source: what is left to read stands at its place, and the text of the token
before can be cut out. -/
structure Lexer.StandsIn (l : Lexer) (src : Bytes) : Prop where
  rest : src.Stands l.place.offset l.rest
  previous : ∀ t ∈ l.previous, src.HasText t

namespace Lexer.StandsIn

variable {src : Bytes} {l after : Lexer} {t : Token}

/-- What is read at a place: the gap, and then the token that begins behind it.  Either of the two
may be given up, with the same error in both lexers. -/
theorem read_overBytes (h : l.StandsIn src) :
    l.overBytes.read src = (readGap none l.place l.rest).followedBy fun rest place =>
      match rest with
      | [] => pure (none, place)
      | c :: rest =>
        (scanOf (kindAt l.previous c rest.head?) place c rest).followedBy fun _ q =>
          pure (some ⟨kindAt l.previous c rest.head?, place.offset, q.offset, place.line⟩, q) := by
  rw [ByteLexer.read, Bytes.skipTrivia_eq (p := l.overBytes.place) h.rest, Scan.outcome_bind]
  refine Scan.followedBy_congr fun gap rest place hgap => ?_
  obtain ⟨hrest, hoffset⟩ := eq_append_of_readGap hgap
  have hplace : src.Stands place.offset rest := by
    rw [hoffset]
    exact Bytes.Stands.behind (hrest ▸ h.rest)
  cases rest with
  | nil =>
    rw [hplace.getElem?_end (Nat.le_refl _)]
  | cons c rest =>
    obtain ⟨b, hb⟩ := hplace.exists_getElem?
    have hstart := startsToken_of_readGap hgap (List.cons_ne_nil c rest)
    rw [hb]
    dsimp only
    rw [Lexer.overBytes, Bytes.scanToken_followedBy h.previous hplace
      (startsToken_cons_iff.mp hstart).1 hb, Scan.followedBy_bind]
    rfl

/-- **One token** is the same in bytes and in characters.  Afterwards the two lexers stand at the
same place, behind the same token. -/
theorem next_overBytes (h : l.StandsIn src) :
    l.overBytes.next src = some l.next.overBytes := by
  rw [ByteLexer.next, if_neg (show ¬l.overBytes.failed = true from Bool.false_ne_true),
    h.read_overBytes, Lexer.next]
  cases hgap : readGap none l.place l.rest with
  | failed e stopped => rfl
  | found gap rest place =>
    cases rest with
    | nil => rfl
    | cons c rest =>
      have hstart := startsToken_of_readGap hgap (List.cons_ne_nil c rest)
      simp only [Scan.followedBy, scanToken_eq]
      cases hscan : scanOf (kindAt l.previous c rest.head?) place c rest with
      | failed e stopped => rfl
      | found text rest' after =>
        have htoken : scanToken l.previous place c rest =
            (kindAt l.previous c rest.head?, .found text rest' after) := by
          rw [scanToken_eq, hscan]
        obtain ⟨-, -, hafter⟩ := reads_of_scanToken hstart htoken
        have hspan : Token.span ⟨kindAt l.previous c rest.head?, l.skipped ++ gap, text, place⟩ =
            ⟨kindAt l.previous c rest.head?, place.offset, after.offset, place.line⟩ := by
          rw [Token.span, Token.start, Token.stop, hafter]
        simp only [LexerStep.overBytes, Lexer.overBytes, Option.map_some, hspan]
        rfl

/-- Behind a token the lexer stands in the source again. -/
theorem of_next (h : l.StandsIn src) (hnext : l.next = .token t after) :
    src.HasText t ∧ after.StandsIn src := by
  obtain ⟨gap, -, -, hrest, -, -, hprevious, hstart, hstop⟩ := reads_of_next hnext
  have htoken : src.Stands t.place.offset (t.text ++ after.rest) := by
    rw [hstart]
    exact Bytes.Stands.behind (hrest ▸ h.rest)
  have htext : src.HasText t := htoken.slice?_eq
  refine ⟨htext, ⟨hstop ▸ htoken.behind, fun u hu => ?_⟩⟩
  rw [hprevious] at hu
  cases hu
  exact htext

/-- A token takes bytes, so behind it there are fewer left. -/
theorem left_lt_of_next (h : l.StandsIn src) (hnext : l.next = .token t after) :
    src.left after.overBytes.place < src.left l.overBytes.place := by
  obtain ⟨gap, -, -, hrest, hreads, -, -, hstart, hstop⟩ := reads_of_next hnext
  obtain ⟨c, text, htext⟩ := List.exists_cons_of_ne_nil hreads.ne_nil
  have hpos : 0 < t.text.size := by
    rw [htext, Text.size_cons]
    exact Nat.lt_of_lt_of_le (Char.utf8Size_pos c) (Nat.le_add_right _ _)
  have hsize := h.rest.size_eq
  rw [hrest, Text.size_append, Text.size_append] at hsize
  change src.size - after.place.offset < src.size - l.place.offset
  omega

/-- **All tokens** are the same in bytes and in characters, and so is the error behind them.  The
text of each token can be cut out of the bytes. -/
theorem run_overBytes (h : l.StandsIn src) :
    l.overBytes.run src = some ⟨l.run.tokens.map Token.span, l.run.failure⟩ ∧
      ∀ t ∈ l.run.tokens, src.HasText t := by
  induction l using Lexer.run.induct with
  | case1 l t after hnext ih =>
    obtain ⟨htext, hafter⟩ := h.of_next hnext
    obtain ⟨hrun, htexts⟩ := ih hafter
    rw [ByteLexer.run, h.next_overBytes, hnext, run_of_token hnext]
    refine ⟨?_, List.forall_mem_cons.mpr ⟨htext, htexts⟩⟩
    simp only [LexerStep.overBytes, Option.bind_eq_bind, Option.bind_some]
    rw [if_pos (h.left_lt_of_next hnext), hrun]
    rfl
  | case2 l after hnext =>
    rw [ByteLexer.run, h.next_overBytes, hnext, run_of_finished hnext]
    exact ⟨rfl, by simp⟩
  | case3 l e after hnext =>
    rw [ByteLexer.run, h.next_overBytes, hnext, run_of_failed hnext]
    exact ⟨rfl, by simp⟩

end Lexer.StandsIn

/-- The lexer at the start of a source stands in it. -/
theorem standsIn_start (source : Text) : (Lexer.start source).StandsIn source.utf8.toArray := by
  have hstart := Bytes.stands_start source
  rw [← hashBang_append_drop source] at hstart
  have hbehind := hstart.behind
  rw [hashBang_append_drop] at hbehind
  rw [start_eq]
  exact ⟨hbehind, fun t ht => by cases ht⟩

/-- A first line with `#!` is passed over in bytes as in characters. -/
theorem start_overBytes (source : Text) :
    ByteLexer.start source.utf8.toArray = (Lexer.start source).overBytes := by
  have hprefix : (Text.utf8 ['#', '!']).isPrefixOf source.utf8 = ['#', '!'].isPrefixOf source := by
    rw [Bool.eq_iff_iff, List.isPrefixOf_iff_prefix, List.isPrefixOf_iff_prefix, utf8_prefix_iff]
  rw [ByteLexer.start, Lexer.start, hprefix]
  split
  · rw [Bytes.skipLine_eq (p := Place.start) (Bytes.stands_start source)]
    rfl
  · rfl

/-- **Lexing bytes is lexing characters.**  On the bytes of a text no scanner breaks down and every
scan comes to an end; what comes out are the tokens and the error that the characters give, and the
text of every token can be cut out between its ends. -/
theorem lex_utf8 (source : Text) :
    Bytes.lex source.utf8.toArray =
        some ⟨(lex source).tokens.map Token.span, (lex source).failure⟩ ∧
      ∀ t ∈ (lex source).tokens, Bytes.HasText source.utf8.toArray t := by
  rw [Bytes.lex, start_overBytes]
  exact (standsIn_start source).run_overBytes

end Twinfold
