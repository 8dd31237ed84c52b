import Twinfold.Declaration.Extractor
import Twinfold.Proofs.Token.Spelling

/-!
# The tokens of a declaration

A declaration is read from tokens that stand one behind the other: the words in front, the
parameters in parentheses and the body in braces.  `Parts` names them, and `Parts.read` is the
declaration that they are read as.

* `exists_parts_of_readDeclaration` — whatever is read as a declaration has such parts;
* `readDeclaration_of_wellFormed` — and whatever has them is read as one, whatever follows.

Reading looks at kinds and texts only.  So it does not matter where the tokens stand or what
is between them (`Parts.WellFormed.congr`).
-/

namespace Twinfold

/-! ### What is told by kind and text -/

section

variable {t u t' u' : Token}

theorem punctIs_congr (h : t.word = u.word) (text : String) : t.punctIs text = u.punctIs text := by
  obtain ⟨hkind, htext⟩ := word_eq_iff.mp h
  rw [Token.punctIs, Token.punctIs, hkind, htext]

theorem identIs_congr (h : t.word = u.word) (text : String) : t.identIs text = u.identIs text := by
  obtain ⟨hkind, htext⟩ := word_eq_iff.mp h
  rw [Token.identIs, Token.identIs, hkind, htext]

theorem isAnyOf_congr (h : t.word = u.word) (texts : List String) :
    t.isAnyOf texts = u.isAnyOf texts := by
  rw [Token.isAnyOf, Token.isAnyOf, (word_eq_iff.mp h).2]

/-- One of some texts is one of more texts. -/
theorem isAnyOf_mono {texts texts' : List String} (h : t.isAnyOf texts = true)
    (hsubset : texts ⊆ texts') : t.isAnyOf texts' = true := by
  obtain ⟨text, htext, hsame⟩ := List.any_eq_true.mp h
  exact List.any_eq_true.mpr ⟨text, hsubset htext, hsame⟩

theorem opens_congr (h : t.word = u.word) : t.opens = u.opens := by
  rw [Token.opens, Token.opens, isAnyOf_congr h, (word_eq_iff.mp h).1]

theorem closes_congr (h : t.word = u.word) : t.closes = u.closes := by
  rw [Token.closes, Token.closes, isAnyOf_congr h, (word_eq_iff.mp h).1]

theorem closedBy_congr (h : t.word = u.word) (h' : t'.word = u'.word) :
    t.closedBy t' = u.closedBy u' := by
  simp only [Token.closedBy, punctIs_congr h, punctIs_congr h']

theorem punctIs_iff {text : String} : t.punctIs text = true ↔ t.word = (.punct, text.toList) := by
  simp [Token.punctIs, Token.word]

theorem text_of_punctIs {text : String} (h : t.punctIs text = true) : t.text = text.toList :=
  congrArg Prod.snd (punctIs_iff.mp h)

theorem identIs_iff {text : String} : t.identIs text = true ↔ t.word = (.ident, text.toList) := by
  simp [Token.identIs, Token.word]

end

/-- A punctuator is no other one. -/
theorem punctIs_eq_false {t : Token} {text text' : String} (h : t.punctIs text = true)
    (hne : text.toList ≠ text'.toList) : t.punctIs text' = false := by
  by_contra hother
  rw [Bool.not_eq_false] at hother
  exact hne ((text_of_punctIs h).symm.trans (text_of_punctIs hother))

theorem identIs_of_punctIs {t : Token} {text : String} (h : t.punctIs text = true) (word : String) :
    t.identIs word = false := by
  simp [Token.identIs, (Prod.mk.inj (punctIs_iff.mp h)).1]

/-! ### Delimiters -/

section

variable {t : Token} {text : String}

/-- Words are no delimiters. -/
theorem not_delimiter_of_ident (h : t.kind = .ident) : t.opens = false ∧ t.closes = false := by
  simp [Token.opens, Token.closes, h]

/-- Which punctuators open. -/
theorem opens_of_punctIs (h : t.punctIs text = true) (htext : text ∈ ["(", "[", "\x7b"]) :
    t.opens = true := by
  have hopening : ∀ text ∈ ["(", "[", "\x7b"],
      Token.opens ⟨.punct, [], text.toList, .start⟩ = true := by
    decide
  have hword : t.word = Token.word ⟨.punct, [], text.toList, .start⟩ := punctIs_iff.mp h
  rw [opens_congr hword]
  exact hopening text htext

/-- Which punctuators close. -/
theorem closes_of_punctIs (h : t.punctIs text = true) (htext : text ∈ [")", "]", "\x7d"]) :
    t.closes = true := by
  have hclosing : ∀ text ∈ [")", "]", "\x7d"],
      Token.closes ⟨.punct, [], text.toList, .start⟩ = true := by
    decide
  have hword : t.word = Token.word ⟨.punct, [], text.toList, .start⟩ := punctIs_iff.mp h
  rw [closes_congr hword]
  exact hclosing text htext

/-- Punctuators that are no delimiters. -/
theorem not_delimiter_of_punctIs (h : t.punctIs text = true) (htext : text ∈ ["*", ",", "..."]) :
    t.opens = false ∧ t.closes = false := by
  have hplain : ∀ text ∈ ["*", ",", "..."],
      Token.opens ⟨.punct, [], text.toList, .start⟩ = false ∧
        Token.closes ⟨.punct, [], text.toList, .start⟩ = false := by
    decide
  have hword : t.word = Token.word ⟨.punct, [], text.toList, .start⟩ := punctIs_iff.mp h
  rw [opens_congr hword, closes_congr hword]
  exact hplain text htext

/-- What opens closes nothing. -/
theorem closes_eq_false_of_opens (h : t.opens = true) : t.closes = false := by
  rw [← Bool.not_eq_true]
  intro hcloses
  simp only [Token.opens, Token.closes, Token.isAnyOf, List.any_cons, List.any_nil, Bool.or_false,
    Bool.and_eq_true, Bool.or_eq_true, decide_eq_true_eq] at h hcloses
  rcases h.2 with h | h | h <;> rw [h] at hcloses <;> exact absurd hcloses.2 (by decide)

/-- No delimiter opens and closes. -/
theorem opens_eq_false_of_closes (h : t.closes = true) : t.opens = false := by
  by_contra hopens
  rw [Bool.not_eq_false] at hopens
  rw [closes_eq_false_of_opens hopens] at h
  cases h

/-- Delimiters are no words. -/
theorem kind_ne_ident_of_delimiter (h : t.opens = true ∨ t.closes = true) : t.kind ≠ .ident := by
  intro hkind
  simp [not_delimiter_of_ident hkind] at h

end

/-! ### Reading -/

theorem exists_text_of_function {t : Token} (h : t.identIs "function" = true) :
    ∃ body, t.text = 'f' :: 'u' :: body :=
  ⟨"nction".toList, (congrArg Prod.snd (identIs_iff.mp h)).trans (by decide)⟩

/-- Tokens the last of which is a delimiter are read in front of everything.  A delimiter ends
where it ends, and what is behind it cannot lengthen it. -/
theorem Spells.before_all {previous : Option Token} {ts : List Token} {t : Token} {tail : Text}
    (h : Spells previous (ts ++ [t]) tail) {text : String} (ht : t.punctIs text = true)
    (htext : text ∈ ["(", ")", "\x7b", "\x7d"]) (tail' : Text) : Spells previous (ts ++ [t]) tail' := by
  have hdelimiter : ∀ text ∈ ["(", ")", "\x7b", "\x7d"], ∃ c ∈ ['(', ')', '\x7b', '\x7d', ',', ';'],
      text.toList = [c] ∧ c ∈ separators := by decide
  obtain ⟨c, hc, hlist, hseparator⟩ := hdelimiter text htext
  have hword := punctIs_iff.mp ht
  rw [hlist] at hword
  obtain ⟨hkind, htoken⟩ := Prod.mk.inj hword
  rw [spells_append_iff] at h ⊢
  obtain ⟨hfront, hgap, _⟩ := h
  refine ⟨hfront.retail (.inr ⟨t.gap, c, tail, tail', inNoPunct_of_separator c hseparator, ?_, ?_⟩),
    hgap, ?_, trivial⟩
  · simp [htoken]
  · simp [htoken]
  · rw [hkind, htoken]
    exact reads_delimiter hc _ _

/-! ### Enclosures -/

/-- The delimiter that a token is, if it is one. -/
def Token.delimiter (t : Token) : Option (TokenKind × Text) :=
  if t.opens || t.closes then some t.word else none

theorem delimiter_congr {t u : Token} (h : t.word = u.word) : t.delimiter = u.delimiter := by
  unfold Token.delimiter
  rw [opens_congr h, closes_congr h, h]

/-- Tokens with the same words are the same delimiters. -/
theorem map_delimiter_congr {ts us : List Token} (h : ts.map Token.word = us.map Token.word) :
    ts.map Token.delimiter = us.map Token.delimiter := by
  induction ts generalizing us with
  | nil =>
    obtain rfl : us = [] := by simpa [eq_comm] using h
    rfl
  | cons t ts ih =>
    obtain ⟨u, us, rfl, hword, hwords⟩ := List.map_eq_cons_iff.mp h.symm
    rw [List.map_cons, List.map_cons, delimiter_congr hword.symm, ih hwords.symm]

/-- Tokens that are the same delimiter have one kind and one text. -/
theorem word_eq_of_delimiter {t u : Token} (h : t.delimiter = u.delimiter)
    (ht : t.opens = true ∨ t.closes = true) : t.word = u.word := by
  unfold Token.delimiter at h
  rw [if_pos (by simpa using ht)] at h
  split at h
  · exact Option.some_inj.mp h
  · cases h

/-- What is no delimiter is none wherever it stands. -/
theorem not_delimiter_congr {t u : Token} (h : t.delimiter = u.delimiter)
    (ht : t.opens = false ∧ t.closes = false) : u.opens = false ∧ u.closes = false := by
  unfold Token.delimiter at h
  rw [if_neg (by simp [ht])] at h
  split at h
  · cases h
  · rename_i hu
    simpa using hu

/-- What is enclosed is a front of the tokens.  Nothing is left out and nothing is put in another
place. -/
theorem eq_append_of_enclose {failure : Option ParseError} {opener : Token} {outer ts : List Token}
    {e : Enclosure} (h : enclose failure opener outer ts = .ok e) :
    ts = e.inner ++ e.close :: e.rest := by
  induction ts generalizing opener outer e with
  | nil => cases h
  | cons t ts ih =>
    have hstep : ∀ opener outer, (enclose failure opener outer ts).map (.cons t) = .ok e →
        t :: ts = e.inner ++ e.close :: e.rest := by
      intro opener outer h
      rcases hrest : enclose failure opener outer ts with x | e' <;> rw [hrest] at h
      · cases h
      · cases h
        exact congrArg (t :: ·) (ih hrest)
    unfold enclose at h
    split at h
    · exact hstep _ _ h
    · split at h
      · split at h
        · split at h
          · cases h
            rfl
          · exact hstep _ _ h
        · cases h
      · exact hstep _ _ h

/-- **Enclosures.**  Tokens with the same delimiters are enclosed in the same way, whatever comes
behind them. -/
theorem enclose_congr {failure failure' : Option ParseError} {opener opener' : Token}
    {outer outer' ts inner' : List Token} {e : Enclosure} {close' : Token}
    (h : enclose failure opener outer ts = .ok e) (hopener : opener.word = opener'.word)
    (houter : outer.map Token.word = outer'.map Token.word)
    (hinner : e.inner.map Token.delimiter = inner'.map Token.delimiter)
    (hclose : e.close.word = close'.word) (rest' : List Token) :
    enclose failure' opener' outer' (inner' ++ close' :: rest') = .ok ⟨inner', close', rest'⟩ := by
  induction ts generalizing opener opener' outer outer' e inner' with
  | nil => cases h
  | cons t ts ih =>
    -- A token that is enclosed: go on with the delimiters that are open behind it.
    have hstep : ∀ o os, (enclose failure o os ts).map (.cons t) = .ok e →
        ∃ t' inner'', inner' = t' :: inner'' ∧ t.delimiter = t'.delimiter ∧
          ∀ o' os', o.word = o'.word → os.map Token.word = os'.map Token.word →
            enclose failure' o' os' (inner'' ++ close' :: rest') = .ok ⟨inner'', close', rest'⟩ := by
      intro o os h
      rcases hrest : enclose failure o os ts with x | e' <;> rw [hrest] at h
      · cases h
      · cases h
        cases inner' with
        | nil => cases hinner
        | cons t' inner'' =>
          obtain ⟨hsame, hinner⟩ := List.cons.inj hinner
          exact ⟨t', inner'', rfl, hsame, fun o' os' ho hos => ih hrest ho hos hinner hclose⟩
    unfold enclose at h
    split at h
    · rename_i hopens
      obtain ⟨t', inner'', rfl, hsame, hmore⟩ := hstep _ _ h
      have hword := word_eq_of_delimiter hsame (.inl hopens)
      rw [List.cons_append, enclose.eq_def]
      dsimp only
      rw [if_pos (opens_congr hword ▸ hopens), hmore t' (opener' :: outer') hword]
      · rfl
      · simp [hopener, houter]
    · rename_i hopens
      split at h
      · rename_i hcloses
        split at h
        · rename_i hclosed
          split at h
          · cases h
            obtain rfl : inner' = [] := by simpa [eq_comm] using hinner
            obtain rfl : outer' = [] := by simpa [eq_comm] using houter
            change t.word = close'.word at hclose
            rw [List.nil_append, enclose, if_neg (opens_congr hclose ▸ hopens),
              if_pos (closes_congr hclose ▸ hcloses),
              if_pos (closedBy_congr hopener hclose ▸ hclosed)]
          · cases outer' with
            | nil => cases houter
            | cons o' os' =>
              obtain ⟨ho, hos⟩ := List.cons.inj houter
              obtain ⟨t', inner'', rfl, hsame, hmore⟩ := hstep _ _ h
              have hword := word_eq_of_delimiter hsame (.inr hcloses)
              rw [List.cons_append, enclose, if_neg (opens_congr hword ▸ hopens),
                if_pos (closes_congr hword ▸ hcloses),
                if_pos (closedBy_congr hopener hword ▸ hclosed), hmore o' os' ho hos]
              rfl
        · cases h
      · rename_i hcloses
        obtain ⟨t', inner'', rfl, hsame, hmore⟩ := hstep _ _ h
        obtain ⟨hopens', hcloses'⟩ := not_delimiter_congr hsame
          ⟨eq_false_of_ne_true hopens, eq_false_of_ne_true hcloses⟩
        rw [List.cons_append, enclose.eq_def]
        dsimp only
        rw [if_neg (by simp [hopens']), if_neg (by simp [hcloses']),
          hmore opener' outer' hopener houter]
        rfl

/-- What is enclosed is closed by the partner of the outermost delimiter.  Inner pairs are closed
on the way, so the outermost delimiter is the last one that is left. -/
theorem closedBy_of_enclose {failure : Option ParseError} {opener : Token} {outer ts : List Token}
    {e : Enclosure} (h : enclose failure opener outer ts = .ok e) :
    ∀ o ∈ (opener :: outer).getLast?, o.closedBy e.close = true := by
  induction ts generalizing opener outer e with
  | nil => cases h
  | cons t ts ih =>
    have hstep : ∀ opener outer, (enclose failure opener outer ts).map (.cons t) = .ok e →
        ∀ o ∈ (opener :: outer).getLast?, o.closedBy e.close = true := by
      intro opener outer h
      rcases hrest : enclose failure opener outer ts with x | e' <;> rw [hrest] at h
      · cases h
      · cases h
        have hclosed := ih hrest
        exact hclosed
    unfold enclose at h
    split at h
    · simpa using hstep _ _ h
    · split at h
      · split at h
        · rename_i hclosed
          split at h
          · cases h
            intro o ho
            cases ho
            exact hclosed
          · simpa using hstep _ _ h
        · cases h
      · exact hstep _ _ h

/-! ### Reading up to the body -/

/-- What is taken stood in front of what is left. -/
theorem eq_append_takeIf (p : Token → Bool) (ts : List Token) :
    ts = (takeIf p ts).1.toList ++ (takeIf p ts).2 ∧ ∀ t ∈ (takeIf p ts).1, p t = true := by
  cases ts with
  | nil => simp [takeIf]
  | cons t ts =>
    rw [takeIf]
    split <;> simp [*]

/-- A token that may be there is taken if it is there, and only then. -/
theorem takeIf_append {p : Token → Bool} {taken : Option Token} {rest : List Token}
    (htaken : ∀ t ∈ taken, p t = true) (hrest : taken = none → ∀ t ∈ rest.head?, p t = false) :
    takeIf p (taken.toList ++ rest) = (taken, rest) := by
  cases taken with
  | some t => simp [takeIf, htaken]
  | none =>
    cases rest with
    | nil => rfl
    | cons t rest =>
      have hnot := hrest rfl t rfl
      simp [takeIf, hnot]

/-- An expected punctuator is there if and only if the next token is that punctuator.  Nothing else
is skipped or taken. -/
theorem expectPunct_eq_ok_iff {text : String} {e : ParseError} {ts rest : List Token} {t : Token} :
    expectPunct text e ts = .ok (t, rest) ↔ ts = t :: rest ∧ t.punctIs text = true := by
  cases ts with
  | nil => simp [expectPunct]
  | cons u ts =>
    rw [expectPunct]
    split
    · rename_i hu
      simp only [Except.ok.injEq, Prod.mk.injEq, List.cons.injEq]
      constructor
      · rintro ⟨rfl, rfl⟩
        exact ⟨⟨rfl, rfl⟩, hu⟩
      · exact fun h => h.1
    · rename_i hu
      simp only [reduceCtorEq, List.cons.injEq, false_iff]
      rintro ⟨⟨rfl, rfl⟩, ht⟩
      exact hu ht

/-! ### The parts of a declaration -/

/-- The tokens of a declaration. -/
structure Parts where
  /-- The word `async`, if there is one. -/
  async : Option Token
  keyword : Token
  star : Option Token
  ident : Option Token
  paren : Token
  params : List Token
  parenClose : Token
  brace : Token
  inner : List Token
  braceClose : Token

namespace Parts

/-- The tokens from the word `function` up to the body, but for that word. -/
def signature (p : Parts) : List Token :=
  p.star.toList ++ p.ident.toList ++ (p.paren :: p.params) ++ [p.parenClose]

/-- The tokens of the body. -/
def block (p : Parts) : List Token := p.brace :: (p.inner ++ [p.braceClose])

/-- The tokens from the word `function` on. -/
def unit (p : Parts) : List Token := p.keyword :: (p.signature ++ p.block)

/-- All tokens of the declaration. -/
def tokens (p : Parts) : List Token := p.async.toList ++ p.unit

/-- The first token. -/
def first (p : Parts) : Token := p.async.getD p.keyword

/-- The declaration that is read from the parts. -/
def read (p : Parts) (normalize : Bool) (index : Nat) (scope : Option Nat) : Declaration where
  index := index
  name := p.ident.elim "default".toList Token.text
  params := readParams p.params p.parenClose.gap
  flavor := .of p.async.isSome p.star.isSome
  lines := readLines normalize p.brace p.inner p.braceClose.gap
  start := p.first.start
  bodyStart := p.brace.start
  stop := p.braceClose.stop
  line := p.keyword.place.line
  scope := scope
  header := p.first.text ++
    Token.sourceOf ((if p.async.isSome then [p.keyword] else []) ++ p.signature) ++ p.brace.gap
  body := p.brace.text ++ Token.sourceOf (p.inner ++ [p.braceClose])

/-- The beginning of the declaration. -/
def lead (p : Parts) (afterDefault : Bool) : Lead :=
  ⟨p.first, p.keyword, p.async.isSome, afterDefault⟩

/-- The parts fit together to a declaration.  Only a default export needs no name. -/
structure WellFormed (p : Parts) (afterDefault : Bool) : Prop where
  star : ∀ t ∈ p.star, t.punctIs "*" = true
  ident : ∀ t ∈ p.ident, t.kind = .ident
  named : p.ident = none → afterDefault = true
  paren : p.paren.punctIs "(" = true
  params : enclose none p.paren [] (p.params ++ [p.parenClose]) = .ok ⟨p.params, p.parenClose, []⟩
  brace : p.brace.punctIs "\x7b" = true
  inner : enclose none p.brace [] (p.inner ++ [p.braceClose]) = .ok ⟨p.inner, p.braceClose, []⟩

end Parts

/-- The enclosed tokens in front of other tokens. -/
theorem enclose_append {opener close : Token} {inner : List Token}
    (h : enclose none opener [] (inner ++ [close]) = .ok ⟨inner, close, []⟩)
    (failure : Option ParseError) (rest : List Token) :
    enclose failure opener [] (inner ++ close :: rest) = .ok ⟨inner, close, rest⟩ :=
  enclose_congr h rfl rfl rfl rfl rest

/-- What is enclosed is enclosed by itself. -/
theorem enclose_alone {failure : Option ParseError} {opener : Token} {ts : List Token}
    {e : Enclosure} (h : enclose failure opener [] ts = .ok e) :
    enclose none opener [] (e.inner ++ [e.close]) = .ok ⟨e.inner, e.close, []⟩ :=
  enclose_congr h rfl rfl rfl rfl []

/-- The name of a declaration. -/
theorem nameOf_eq_ok_iff {afterDefault : Bool} {atEnd : ParseError} {ident : Option Token}
    {t : Token} {ts : List Token} {name : Text} :
    nameOf afterDefault atEnd ident (t :: ts) = .ok name ↔
      ident.elim "default".toList Token.text = name ∧ (ident = none → afterDefault = true) := by
  cases ident with
  | some u => simp [nameOf]
  | none => cases afterDefault <;> simp [nameOf]

/-- **Whatever is read as a declaration has its parts.**  The steps of the reader are taken apart
in their order: star, name, parameters, body. -/
theorem exists_parts_of_readDeclaration {normalize : Bool} {failure : Option ParseError}
    {index : Nat} {scope : Option Nat} {async : Option Token} {keyword : Token}
    {afterDefault : Bool} {ts : List Token} {r : Reading}
    (h : readDeclaration normalize failure index scope
      ⟨async.getD keyword, keyword, async.isSome, afterDefault⟩ ts = .ok r) :
    ∃ p : Parts, p.async = async ∧ p.keyword = keyword ∧ p.WellFormed afterDefault ∧
      ts = p.signature ++ p.block ++ r.rest ∧ r.declaration = p.read normalize index scope ∧
      r.close = p.braceClose := by
  obtain ⟨hstar, hstarIs⟩ := eq_append_takeIf (fun t => t.punctIs "*") ts
  rcases hs : takeIf (fun t => t.punctIs "*") ts with ⟨star, afterStar⟩
  rw [hs] at hstar hstarIs
  obtain ⟨hident, hidentIs⟩ := eq_append_takeIf (fun t => t.kind = .ident) afterStar
  rcases hi : takeIf (fun t => t.kind = .ident) afterStar with ⟨ident, afterIdent⟩
  rw [hi] at hident hidentIs
  simp only [readDeclaration, bind, Except.bind, hs, hi] at h
  split at h
  · cases h
  rename_i name hname
  split at h
  · cases h
  rename_i paren hparen
  split at h
  · cases h
  rename_i params hparams
  split at h
  · cases h
  rename_i brace hbrace
  split at h
  · cases h
  rename_i body hbody
  cases h
  obtain ⟨rfl, hparenIs⟩ := expectPunct_eq_ok_iff.mp hparen
  obtain ⟨hbraceCons, hbraceIs⟩ := expectPunct_eq_ok_iff.mp hbrace
  obtain ⟨rfl, hnamed⟩ := nameOf_eq_ok_iff.mp hname
  refine ⟨⟨async, keyword, star, ident, paren.1, params.inner, params.close, brace.1, body.inner,
    body.close⟩, rfl, rfl, ⟨hstarIs, ?_, hnamed, hparenIs, enclose_alone hparams, hbraceIs,
      enclose_alone hbody⟩, ?_, ?_, rfl⟩
  · exact fun t ht => of_decide_eq_true (hidentIs t ht)
  · rw [hstar, hident, eq_append_of_enclose hparams, hbraceCons, eq_append_of_enclose hbody]
    simp [Parts.signature, Parts.block]
  · simp [Parts.read, Parts.first, Parts.signature]

/-- **Whatever has the parts of a declaration is read as one**, whatever follows.  Each step of the
reader finds its part at the front, by the lemma for it. -/
theorem Parts.WellFormed.readDeclaration {p : Parts} {afterDefault : Bool}
    (h : p.WellFormed afterDefault) (normalize : Bool) (failure : Option ParseError) (index : Nat)
    (scope : Option Nat) (rest : List Token) :
    Twinfold.readDeclaration normalize failure index scope (p.lead afterDefault)
      (p.signature ++ p.block ++ rest) =
        .ok ⟨p.read normalize index scope, p.braceClose, rest⟩ := by
  have hparenKind : p.paren.word = (.punct, ['(']) := punctIs_iff.mp h.paren
  have hstar : takeIf (fun t => t.punctIs "*") (p.signature ++ p.block ++ rest) =
      (p.star, p.ident.toList ++ p.paren :: (p.params ++ p.parenClose :: (p.block ++ rest))) := by
    have hsplit : p.signature ++ p.block ++ rest = p.star.toList ++
        (p.ident.toList ++ p.paren :: (p.params ++ p.parenClose :: (p.block ++ rest))) := by
      simp [signature]
    rw [hsplit]
    refine takeIf_append h.star fun _ t ht => ?_
    cases hident : p.ident with
    | some u =>
      rw [hident] at ht
      cases ht
      simp [Token.punctIs, h.ident _ hident]
    | none =>
      rw [hident] at ht
      cases ht
      rw [← Bool.not_eq_true, punctIs_iff, hparenKind]
      decide
  have hident : takeIf (fun t => t.kind = .ident)
      (p.ident.toList ++ p.paren :: (p.params ++ p.parenClose :: (p.block ++ rest))) =
        (p.ident, p.paren :: (p.params ++ p.parenClose :: (p.block ++ rest))) := by
    refine takeIf_append (fun t ht => decide_eq_true (h.ident t ht)) fun _ t ht => ?_
    cases ht
    have hkind : p.paren.kind = .punct := congrArg Prod.fst hparenKind
    simp [hkind]
  have hname : ∀ atEnd ts, nameOf afterDefault atEnd p.ident (p.paren :: ts) =
      .ok (p.ident.elim "default".toList Token.text) := fun _ _ =>
    nameOf_eq_ok_iff.mpr ⟨rfl, h.named⟩
  have hparen : ∀ atEnd ts, expectPunct "(" atEnd (p.paren :: ts) = .ok (p.paren, ts) := fun _ _ =>
    expectPunct_eq_ok_iff.mpr ⟨rfl, h.paren⟩
  have hbrace : ∀ atEnd, expectPunct "\x7b" atEnd (p.block ++ rest) =
      .ok (p.brace, p.inner ++ p.braceClose :: rest) := fun _ =>
    expectPunct_eq_ok_iff.mpr ⟨by simp [block], h.brace⟩
  simp only [Twinfold.readDeclaration, bind, Except.bind, hstar, hident, lead, hname, hparen,
    enclose_append h.params, hbrace, enclose_append h.inner]
  simp [read, signature]
  rfl

section

variable {p : Parts} {afterDefault : Bool}

/-- The parameter list ends with a parenthesis. -/
theorem Parts.WellFormed.parenClose (h : p.WellFormed afterDefault) :
    p.parenClose.punctIs ")" = true := by
  have hclosed := closedBy_of_enclose h.params p.paren rfl
  have hbracket : p.paren.punctIs "[" = false := punctIs_eq_false h.paren (by decide)
  have hbrace : p.paren.punctIs "\x7b" = false := punctIs_eq_false h.paren (by decide)
  simpa [Token.closedBy, h.paren, hbracket, hbrace] using hclosed

/-- The body ends with a brace. -/
theorem Parts.WellFormed.braceClose (h : p.WellFormed afterDefault) :
    p.braceClose.punctIs "\x7d" = true := by
  have hclosed := closedBy_of_enclose h.inner p.brace rfl
  have hparen : p.brace.punctIs "(" = false := punctIs_eq_false h.brace (by decide)
  have hbracket : p.brace.punctIs "[" = false := punctIs_eq_false h.brace (by decide)
  simpa [Token.closedBy, h.brace, hparen, hbracket] using hclosed

end

end Twinfold
