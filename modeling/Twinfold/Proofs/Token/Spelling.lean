import Twinfold.Proofs.Token.Boundary

/-!
# Tokens and the texts they spell

A list of tokens **spells** the text of its gaps and tokens in front of a tail if every token
of it is read where it stands (`Spells`).  Lexing a text finds the tokens that spell it
(`spells_of_run`), and whatever tokens spell a text, lexing finds them (`run_of_spells`), but
for the places, which only lexing knows (`Token.bare`).

So tokens can be put together, and the lexer need not be looked at again.  For one thing, the
texts of tokens with single spaces in between spell the same tokens (`spells_spaced`).
-/

namespace Twinfold

/-! ### Gaps -/

/-- Whether a text can stand between two tokens. -/
def IsGap (gap : Text) : Prop := ∃ q, readGap none .start (gap ++ ['x']) = .found gap ['x'] q

/-- Whether a text can stand behind the last token. -/
def IsClosing (gap : Text) : Prop := ∃ q, readGap none .start gap = .found gap [] q

theorem isGap_nil : IsGap [] := ⟨_, rfl⟩

theorem isGap_space : IsGap [' '] := ⟨_, rfl⟩

theorem isClosing_nil : IsClosing [] := ⟨_, rfl⟩

/-- A gap is read up to where a token begins. -/
theorem IsGap.readGap {gap t : Text} (h : IsGap gap) (hstart : startsToken t) (p : Place) :
    ∃ q, Twinfold.readGap none p (gap ++ t) = .found gap t q := by
  obtain ⟨q, hread⟩ := h
  exact readGap_anywhere (readGap_append hread (List.cons_ne_nil _ _) hstart) p

/-- What was read as a gap in front of a token is one. -/
theorem isGap_of_readGap {p q : Place} {t gap rest : Text}
    (h : readGap none p t = .found gap rest q) (hrest : rest ≠ []) : IsGap gap := by
  rw [(eq_append_of_readGap h).1] at h
  exact readGap_anywhere (readGap_append h hrest rfl) .start

/-- A closing gap is read to the end of the text, wherever that stands. -/
theorem IsClosing.readGap {gap : Text} (h : IsClosing gap) (p : Place) :
    ∃ q, Twinfold.readGap none p gap = .found gap [] q := by
  obtain ⟨q, hread⟩ := h
  exact readGap_anywhere hread p

theorem isClosing_of_readGap {p q : Place} {gap : Text}
    (h : readGap none p gap = .found gap [] q) : IsClosing gap :=
  readGap_anywhere h .start

/-! ### Spelling -/

@[simp] theorem sourceOf_nil : Token.sourceOf [] = [] := rfl

@[simp] theorem sourceOf_cons (t : Token) (ts : List Token) :
    Token.sourceOf (t :: ts) = t.gap ++ (t.text ++ Token.sourceOf ts) := by
  simp [Token.sourceOf, Token.source]

@[simp] theorem sourceOf_append (ts us : List Token) :
    Token.sourceOf (ts ++ us) = Token.sourceOf ts ++ Token.sourceOf us := by
  simp [Token.sourceOf]

/-- Behind the token `previous` and in front of `tail`, the tokens are read where they
stand. -/
def Spells : (previous : Option Token) → List Token → (tail : Text) → Prop
  | _, [], _ => True
  | previous, t :: ts, tail =>
    IsGap t.gap ∧ Reads previous t.kind t.text (Token.sourceOf ts ++ tail) ∧ Spells (some t) ts tail

/-- The token before the end of a list, where `previous` stands before the list. -/
def lastToken (previous : Option Token) (ts : List Token) : Option Token := ts.getLast?.or previous

/-- The last token of a list is told by the list, unless it is empty. -/
@[simp] theorem lastToken_cons (previous : Option Token) (t : Token) (ts : List Token) :
    lastToken previous (t :: ts) = lastToken (some t) ts := by
  cases ts with
  | nil => rfl
  | cons u us => simp [lastToken, List.getLast?_cons]

/-- Two lists spell their sources one behind the other: the first in front of the second, and the
second behind the last token of the first. -/
theorem spells_append_iff {previous : Option Token} {ts us : List Token} {tail : Text} :
    Spells previous (ts ++ us) tail ↔
      Spells previous ts (Token.sourceOf us ++ tail) ∧ Spells (lastToken previous ts) us tail := by
  induction ts generalizing previous with
  | nil => simp [Spells, lastToken]
  | cons t ts ih => simp [Spells, ih, and_assoc]

/-- The kind and the text of a token. -/
def Token.word (t : Token) : TokenKind × Text := (t.kind, t.text)

theorem word_eq_iff {t u : Token} : t.word = u.word ↔ t.kind = u.kind ∧ t.text = u.text := by
  simp [Token.word]

/-- The token without its place. -/
def Token.bare (t : Token) : Token := { t with place := .start }

/-- Tokens that are the same but for their places. -/
abbrev SameTokens (ts us : List Token) : Prop := ts.map Token.bare = us.map Token.bare

/-- What is left of a token without its place. -/
theorem bare_eq_iff {t u : Token} :
    t.bare = u.bare ↔ t.kind = u.kind ∧ t.gap = u.gap ∧ t.text = u.text := by
  obtain ⟨_, _, _, _⟩ := t
  obtain ⟨_, _, _, _⟩ := u
  simp [Token.bare]

/-- Tokens that are the same but for their places have the same source. -/
theorem SameTokens.sourceOf {ts us : List Token} (h : SameTokens ts us) :
    Token.sourceOf ts = Token.sourceOf us := by
  have hbare : ∀ ts : List Token, Token.sourceOf ts = Token.sourceOf (ts.map Token.bare) := by
    intro ts
    induction ts with
    | nil => rfl
    | cons t ts ih => simp [ih, Token.bare]
  rw [hbare ts, h, ← hbare us]

/-- Tokens that are the same but for their places have the same kinds and texts. -/
theorem map_word_of_sameTokens {ts us : List Token} (h : SameTokens ts us) :
    ts.map Token.word = us.map Token.word := by
  have hmap := congrArg (List.map Token.word) h
  rw [List.map_map, List.map_map] at hmap
  exact hmap

/-- What a slash means behind a token is told by the kind and the text of the token. -/
theorem slashBeginsRegex_congr {t u : Token} (hkind : t.kind = u.kind) (htext : t.text = u.text) :
    slashBeginsRegex (some t) = slashBeginsRegex (some u) := by
  simp only [slashBeginsRegex, Token.isAnyOf, hkind, htext]

/-- Of the token before a text only counts what a slash means behind it. -/
theorem Spells.behind {previous previous' : Option Token} {ts : List Token} {tail : Text}
    (h : Spells previous ts tail)
    (hslash : slashBeginsRegex previous = slashBeginsRegex previous') :
    Spells previous' ts tail := by
  cases ts with
  | nil => trivial
  | cons t ts => exact ⟨h.1, h.2.1.behind fun _ => hslash, h.2.2⟩

/-- What stands in front of a token that is spelled is a gap. -/
theorem Spells.isGap {previous : Option Token} {ts : List Token} {tail : Text}
    (h : Spells previous ts tail) : ∀ t ∈ ts, IsGap t.gap := by
  induction ts generalizing previous with
  | nil => simp
  | cons t ts ih =>
    intro u hu
    rcases List.mem_cons.mp hu with rfl | hu
    · exact h.1
    · exact ih h.2.2 u hu

/-- Where tokens stand does not matter.  What is read depends on the kinds, the gaps and the texts
of the tokens. -/
theorem Spells.congr {previous : Option Token} {ts us : List Token} {tail : Text}
    (h : Spells previous ts tail) (hsame : SameTokens ts us) : Spells previous us tail := by
  induction ts generalizing previous us with
  | nil =>
    obtain rfl : us = [] := by simpa [SameTokens, eq_comm] using hsame
    trivial
  | cons t ts ih =>
    cases us with
    | nil => cases hsame
    | cons u us =>
      obtain ⟨hhead, htail⟩ := List.cons.inj hsame
      obtain ⟨hkind, hgap, htext⟩ := bare_eq_iff.mp hhead
      obtain ⟨hisGap, hreads, hspells⟩ := h
      refine ⟨hgap ▸ hisGap, ?_, (ih hspells htail).behind (slashBeginsRegex_congr hkind htext)⟩
      rw [← hkind, ← htext, ← SameTokens.sourceOf htail]
      exact hreads

/-- Each token that is spelled is read somewhere. -/
theorem Spells.exists_reads {previous : Option Token} {ts : List Token} {tail : Text}
    (h : Spells previous ts tail) :
    ∀ t ∈ ts, ∃ previous' tail', Reads previous' t.kind t.text tail' := by
  induction ts generalizing previous with
  | nil => simp
  | cons t ts ih =>
    intro u hu
    rcases List.mem_cons.mp hu with rfl | hu
    · exact ⟨_, _, h.2.1⟩
    · exact ih h.2.2 u hu

/-- Tokens that are read in front of a text are read in front of each front of it. -/
theorem Spells.shorten {previous : Option Token} {ts : List Token} {tail more : Text}
    (h : Spells previous ts (tail ++ more)) : Spells previous ts tail := by
  induction ts generalizing previous with
  | nil => trivial
  | cons t ts ih =>
    obtain ⟨hgap, hreads, hspells⟩ := h
    refine ⟨hgap, hreads.retail ?_, ih hspells⟩
    have hends := hreads.endsBefore
    rw [← List.append_assoc] at hends
    exact endsBefore_front hends

/-- Tokens are read without what stands behind them. -/
theorem Spells.front {previous : Option Token} {ts : List Token} {tail : Text}
    (h : Spells previous ts tail) : Spells previous ts [] := by
  rw [← List.nil_append tail] at h
  exact h.shorten

/-- Tokens the first of which does not begin with a slash are read where nothing stands around
them. -/
theorem Spells.alone {previous : Option Token} {t : Token} {ts : List Token} {tail : Text}
    (h : Spells previous (t :: ts) tail) (hslash : t.text.head? ≠ some '/') :
    Spells none ({ t with gap := [] } :: ts) [] := by
  obtain ⟨_, hreads, hspells⟩ := h.front
  exact ⟨isGap_nil, hreads.behind fun h => absurd h hslash,
    hspells.behind (slashBeginsRegex_congr rfl rfl)⟩

/-- The texts are the same up to a character that is in no long punctuator. -/
def BeginAlike (t t' : Text) : Prop :=
  t = t' ∨ ∃ u c s s', InNoPunct c ∧ t = u ++ c :: s ∧ t' = u ++ c :: s'

/-- Texts that begin alike do so behind a common front. -/
theorem BeginAlike.prepend {t t' : Text} (h : BeginAlike t t') (front : Text) :
    BeginAlike (front ++ t) (front ++ t') := by
  rcases h with rfl | ⟨u, c, s, s', hc, rfl, rfl⟩
  · exact .inl rfl
  · exact .inr ⟨front ++ u, c, s, s', hc, by simp, by simp⟩

/-- **Far tails.**  Tokens in front of a text are read in front of every text that begins like
it. -/
theorem Spells.retail {previous : Option Token} {ts : List Token} {tail tail' : Text}
    (h : Spells previous ts tail) (halike : BeginAlike tail tail') : Spells previous ts tail' := by
  induction ts generalizing previous with
  | nil => trivial
  | cons t ts ih =>
    obtain ⟨hgap, hreads, hspells⟩ := h
    refine ⟨hgap, hreads.retail ?_, ih hspells⟩
    have hends := hreads.endsBefore
    rcases halike.prepend (Token.sourceOf ts) with heq | ⟨u, c, s, s', hc, hold, hnew⟩
    · rwa [← heq]
    · rw [hold] at hends
      rw [hnew, ← endsBefore_congr hc s s']
      exact hends

/-- Every token ends before a separator, wherever it is put behind what was there. -/
theorem Spells.before_separator {previous : Option Token} {ts : List Token} {closing : Text}
    (h : Spells previous ts closing) {c : Char} (hc : c ∈ separators) (tail : Text) :
    Spells previous ts (closing ++ c :: tail) := by
  induction ts generalizing previous with
  | nil => trivial
  | cons t ts ih =>
    obtain ⟨hgap, hreads, hspells⟩ := h
    refine ⟨hgap, hreads.retail ?_, ih hspells⟩
    rw [← List.append_assoc]
    by_cases hsource : Token.sourceOf ts ++ closing = []
    · rw [hsource] at hreads ⊢
      exact endsBefore_separator hreads hc tail
    · have hends := hreads.endsBefore
      rw [← List.append_nil (Token.sourceOf ts ++ closing)] at hends
      exact endsBefore_of_agree hends hsource (inNoPunct_of_separator c hc) tail

theorem Spells.separated {previous : Option Token} {ts : List Token} (h : Spells previous ts [])
    {c : Char} (hc : c ∈ separators) (tail : Text) : Spells previous ts (c :: tail) :=
  h.before_separator hc tail

/-- What is read in front of a text is told by the text. -/
theorem Reads.unique {previous previous' : Option Token} {kind kind' : TokenKind}
    {text text' tail tail' : Text} (h : Reads previous kind text tail)
    (h' : Reads previous' kind' text' tail') (htext : text ++ tail = text' ++ tail')
    (hslash : slashBeginsRegex previous = slashBeginsRegex previous') :
    kind = kind' ∧ text = text' := by
  have hsame := h.behind fun _ => hslash
  obtain ⟨c, body, rfl, q, hscan⟩ := hsame.scanToken .start
  obtain ⟨c', body', rfl, q', hscan'⟩ := h'.scanToken .start
  obtain ⟨rfl, hrest⟩ := List.cons.inj htext
  have hrest : body ++ tail = body' ++ tail' := hrest
  rw [hrest, hscan'] at hscan
  obtain ⟨hkind, hfound⟩ := Prod.mk.inj hscan
  exact ⟨hkind.symm, (Scan.found.inj hfound).1.symm⟩

/-- A gap is told by the text: it ends where a token begins. -/
theorem IsGap.unique {gap gap' t t' : Text} (h : IsGap gap) (h' : IsGap gap') (ht : startsToken t)
    (ht' : startsToken t') (htext : gap ++ t = gap' ++ t') : gap = gap' := by
  obtain ⟨_, hread⟩ := h.readGap ht .start
  obtain ⟨_, hread'⟩ := h'.readGap ht' .start
  rw [htext, hread'] at hread
  exact (Scan.found.inj hread).1.symm

/-- **One spelling.**  When tokens spell a whole text, tokens that spell a front of it are the
first of them. -/
theorem Spells.exists_front {previous previous' : Option Token} {ts us : List Token}
    {tail closing : Text} (hts : Spells previous ts tail) (hus : Spells previous' us closing)
    (hclosing : IsClosing closing) (hslash : slashBeginsRegex previous = slashBeginsRegex previous')
    (htext : Token.sourceOf ts ++ tail = Token.sourceOf us ++ closing) :
    ∃ front rest, us = front ++ rest ∧ SameTokens front ts := by
  induction ts generalizing previous previous' us with
  | nil => exact ⟨[], us, rfl, rfl⟩
  | cons t ts ih =>
    obtain ⟨hgap, hreads, hspells⟩ := hts
    rw [sourceOf_cons, List.append_assoc, List.append_assoc] at htext
    cases us with
    | nil =>
      obtain ⟨_, hread⟩ := hgap.readGap hreads.1 .start
      obtain ⟨_, hend⟩ := hclosing.readGap .start
      rw [htext, sourceOf_nil, List.nil_append, hend] at hread
      have hnil := (Scan.found.inj hread).2.1
      simp [hreads.ne_nil] at hnil
    | cons u us =>
      obtain ⟨hgap', hreads', hspells'⟩ := hus
      rw [sourceOf_cons, List.append_assoc, List.append_assoc] at htext
      have hgaps := hgap.unique hgap' hreads.1 hreads'.1 htext
      rw [hgaps, List.append_cancel_left_eq] at htext
      obtain ⟨hkind, hword⟩ := hreads.unique hreads' htext hslash
      rw [hword, List.append_cancel_left_eq] at htext
      obtain ⟨front, rest, rfl, hsame⟩ :=
        ih hspells hspells' (slashBeginsRegex_congr hkind hword) htext
      refine ⟨u :: front, rest, rfl, List.cons_eq_cons.mpr ⟨?_, hsame⟩⟩
      exact bare_eq_iff.mpr ⟨hkind.symm, hgaps.symm, hword.symm⟩

/-! ### Lexing -/

/-- Puts a text in front of the first gap. -/
def prependGap (front : Text) : List Token → List Token
  | [] => []
  | t :: ts => { t with gap := front ++ t.gap } :: ts

/-- The step of a lexer that stands before a token. -/
theorem next_of_reads {l : Lexer} {t : Token} {tail : Text} (hrest : l.rest = t.gap ++ (t.text ++ tail))
    (hgap : IsGap t.gap) (hreads : Reads l.previous t.kind t.text tail) :
    ∃ place after, l.next =
      .token { t with gap := l.skipped ++ t.gap, place } ⟨[], tail, after,
        some { t with gap := l.skipped ++ t.gap, place }⟩ := by
  obtain ⟨place, hread⟩ := hgap.readGap hreads.1 l.place
  obtain ⟨c, body, htext, after, hscan⟩ := hreads.scanToken place
  refine ⟨place, after, ?_⟩
  unfold Lexer.next
  rw [hrest, hread, htext, List.cons_append]
  dsimp only
  rw [hscan]
  dsimp only
  rw [htext]

/-- A lexer in front of nothing but a closing gap has finished. -/
theorem next_of_isClosing {l : Lexer} (h : IsClosing l.rest) :
    ∃ after, l.next = .finished after := by
  obtain ⟨q, hread⟩ := h.readGap l.place
  refine ⟨⟨l.skipped ++ l.rest, [], q, l.previous⟩, ?_⟩
  unfold Lexer.next
  rw [hread]

/-- What a token that a lexer yields is, and where the lexer stands then.  What was skipped before,
the first line of a text perhaps, is a part of its gap. -/
theorem reads_of_next {l after : Lexer} {t : Token} (h : l.next = .token t after) :
    ∃ gap, t.gap = l.skipped ++ gap ∧ IsGap gap ∧ l.rest = gap ++ (t.text ++ after.rest) ∧
      Reads l.previous t.kind t.text after.rest ∧ after.skipped = [] ∧ after.previous = some t ∧
      t.place.offset = l.place.offset + gap.size ∧ after.place.offset = t.place.offset + t.text.size := by
  unfold Lexer.next at h
  split at h
  · cases h
  · rename_i gap rest place hgap
    split at h
    · cases h
    · rename_i c rest
      split at h
      · cases h
      · rename_i kind text rest' after' hscan
        cases h
        obtain ⟨htext, hgapOffset⟩ := eq_append_of_readGap hgap
        have hstart := startsToken_of_readGap hgap (List.cons_ne_nil _ _)
        obtain ⟨hsplit, hreads, hoffset⟩ := reads_of_scanToken hstart hscan
        exact ⟨gap, rfl, isGap_of_readGap hgap (List.cons_ne_nil _ _), by rw [htext, hsplit], hreads,
          rfl, rfl, hgapOffset, hoffset⟩

/-- If the next step yields a token, the run begins with it. -/
theorem run_of_token {l after : Lexer} {t : Token} (h : l.next = .token t after) :
    l.run = ⟨t :: after.run.tokens, after.run.failure⟩ := by
  rw [Lexer.run]
  split
  · rename_i hnext
    rw [h] at hnext
    cases hnext
    rfl
  · rename_i hnext
    rw [h] at hnext
    cases hnext
  · rename_i hnext
    rw [h] at hnext
    cases hnext

theorem run_of_finished {l after : Lexer} (h : l.next = .finished after) : l.run = ⟨[], none⟩ := by
  rw [Lexer.run]
  split <;> rename_i hnext <;> rw [h] at hnext <;> cases hnext

/-- If the next step fails, the run ends with the failure. -/
theorem run_of_failed {l after : Lexer} {e : ParseError} (h : l.next = .failed e after) :
    l.run = ⟨[], some e⟩ := by
  rw [Lexer.run]
  split <;> rename_i hnext <;> rw [h] at hnext <;> cases hnext
  rfl

/-- The tokens stand one behind the other, the first gap at an offset. -/
def Placed : (offset : Nat) → List Token → Prop
  | _, [] => True
  | offset, t :: ts => t.start = offset + t.gap.size ∧ Placed t.stop ts

@[simp] theorem prependGap_nil (ts : List Token) : prependGap [] ts = ts := by
  cases ts <;> rfl

@[simp] theorem map_word_prependGap (front : Text) (ts : List Token) :
    (prependGap front ts).map Token.word = ts.map Token.word := by
  cases ts <;> rfl

/-- **Lexing finds what the text spells**, up to the end of the text or to a place from which it
cannot be read further. -/
theorem spells_of_run (l : Lexer) :
    ∃ ts left, l.run.tokens = prependGap l.skipped ts ∧ l.rest = Token.sourceOf ts ++ left ∧
      Spells l.previous ts left ∧ Placed l.place.offset ts ∧
      (l.run.failure = none → IsClosing left) := by
  induction l using Lexer.run.induct with
  | case1 l t after hnext ih =>
    rw [run_of_token hnext]
    obtain ⟨ts, left, htokens, hrest, hspells, hplaced, hclosing⟩ := ih
    obtain ⟨gap, hgap, hisGap, hsplit, hreads, hskipped, hprevious, hstart, hstop⟩ :=
      reads_of_next hnext
    rw [hskipped, prependGap_nil] at htokens
    rw [hprevious] at hspells
    rw [hstop] at hplaced
    refine ⟨{ t with gap } :: ts, left, ?_, ?_, ?_, ⟨hstart, hplaced⟩, hclosing⟩
    · rw [htokens, prependGap, ← hgap]
    · rw [hsplit, hrest, sourceOf_cons, List.append_assoc, List.append_assoc]
    · rw [hrest] at hreads
      exact ⟨hisGap, hreads, hspells.behind (slashBeginsRegex_congr rfl rfl)⟩
  | case2 l after hnext =>
    rw [run_of_finished hnext]
    refine ⟨[], l.rest, rfl, rfl, trivial, trivial, fun _ => ?_⟩
    unfold Lexer.next at hnext
    split at hnext
    · cases hnext
    · rename_i gap rest place hgap
      split at hnext
      · obtain ⟨htext, _⟩ := eq_append_of_readGap hgap
        rw [List.append_nil] at htext
        rw [← htext] at hgap
        exact isClosing_of_readGap hgap
      · split at hnext <;> cases hnext
  | case3 l e after hnext =>
    rw [run_of_failed hnext]
    exact ⟨[], l.rest, rfl, rfl, trivial, trivial, nofun⟩

/-- **Whatever tokens spell a text, lexing finds them.**  The lexer yields the first of them and
stands before the others; only the places are its own. -/
theorem run_of_spells {l : Lexer} {ts : List Token} {closing : Text}
    (hrest : l.rest = Token.sourceOf ts ++ closing) (hspells : Spells l.previous ts closing)
    (hclosing : IsClosing closing) :
    ∃ us, l.run = ⟨prependGap l.skipped us, none⟩ ∧ SameTokens us ts := by
  induction ts generalizing l with
  | nil =>
    rw [sourceOf_nil, List.nil_append] at hrest
    obtain ⟨after, hnext⟩ := next_of_isClosing (hrest ▸ hclosing)
    exact ⟨[], run_of_finished hnext, rfl⟩
  | cons t ts ih =>
    obtain ⟨hgap, hreads, hspells⟩ := hspells
    rw [sourceOf_cons, List.append_assoc, List.append_assoc] at hrest
    obtain ⟨place, after, hnext⟩ := next_of_reads hrest hgap hreads
    obtain ⟨us, hrun, hsame⟩ := ih (l := ⟨[], Token.sourceOf ts ++ closing, after,
      some { t with gap := l.skipped ++ t.gap, place }⟩) rfl
      (hspells.behind (slashBeginsRegex_congr rfl rfl))
    refine ⟨{ t with place } :: us, ?_, ?_⟩
    · rw [run_of_token hnext, hrun]
      dsimp only
      rw [prependGap_nil, prependGap]
    · simp only [SameTokens, List.map_cons]
      rw [hsame]
      rfl

/-! ### Whole texts -/

/-- The first line of a text if it begins with `#!`; it belongs to the first gap. -/
def hashBang (source : Text) : Text :=
  if ['#', '!'].isPrefixOf source then source.takeWhile (· ≠ '\n') else []

/-- A text that does not begin with a hash has no first line of its own. -/
theorem hashBang_of_head? {source : Text} (h : source.head? ≠ some '#') : hashBang source = [] := by
  unfold hashBang
  rw [if_neg]
  intro hprefix
  cases source with
  | nil => cases hprefix
  | cons c source =>
    simp only [List.isPrefixOf, Bool.and_eq_true, beq_iff_eq] at hprefix
    exact h (congrArg some hprefix.1.symm)

/-- A lexer starts behind the first line if that begins with `#!`. -/
theorem start_eq (source : Text) :
    Lexer.start source =
      ⟨hashBang source, source.drop (hashBang source).length,
        Place.start.pastText (hashBang source), none⟩ := by
  unfold Lexer.start hashBang
  split <;> rfl

/-- The first line and the rest are the text. -/
theorem hashBang_append_drop (source : Text) :
    hashBang source ++ source.drop (hashBang source).length = source := by
  unfold hashBang
  split
  · rw [drop_length_takeWhile, List.takeWhile_append_dropWhile]
  · rfl

/-- The first line of a text stays when what stands behind it changes, unless the text comes to
begin otherwise. -/
theorem hashBang_retail {front t t' : Text} (h : hashBang (front ++ t) = front)
    (hbegins : ['#', '!'].isPrefixOf (front ++ t') = ['#', '!'].isPrefixOf (front ++ t))
    (hhead : t'.head? = t.head?) : hashBang (front ++ t') = front := by
  unfold hashBang at h ⊢
  rw [hbegins]
  split at h
  · rename_i hbang
    rw [if_pos hbang]
    rw [List.takeWhile_append] at h ⊢
    split at h
    · rename_i hfront
      rw [if_pos hfront]
      have hnone : t.takeWhile (fun c => decide (c ≠ '\n')) = [] :=
        List.append_right_eq_self.mp h
      have hnone' : t'.takeWhile (fun c => decide (c ≠ '\n')) = [] := by
        cases t with
        | nil =>
          obtain rfl : t' = [] := by simpa using hhead
          rfl
        | cons c t =>
          cases t' with
          | nil => cases hhead
          | cons c' t' =>
            obtain rfl : c' = c := by simpa using hhead
            simpa [List.takeWhile_cons] using hnone
      rw [hnone', List.append_nil]
    · rename_i hfront
      rw [if_neg hfront]
      exact h
  · rename_i hbang
    rw [if_neg hbang]
    exact h

/-- A text can be lexed if and only if lexing it meets no failure. -/
theorem tokenize_eq_ok_iff {source : Text} {ts : List Token} :
    tokenize source = .ok ts ↔ (lex source).tokens = ts ∧ (lex source).failure = none := by
  unfold tokenize
  dsimp only
  split
  · rename_i e he
    simp [he]
  · rename_i hnone
    simp [hnone]

/-- **The tokens of a text**, up to its end or to the first error.  They spell what comes behind a
first line with `#!`. -/
theorem spells_of_lex (source : Text) :
    ∃ us left, (lex source).tokens = prependGap (hashBang source) us ∧
      source = hashBang source ++ (Token.sourceOf us ++ left) ∧ Spells none us left ∧
      Placed (hashBang source).size us ∧ ((lex source).failure = none → IsClosing left) := by
  have hrun := spells_of_run (Lexer.start source)
  rw [start_eq] at hrun
  obtain ⟨us, left, hus, hrest, hspells, hplaced, hclosing⟩ := hrun
  refine ⟨us, left, ?_, ?_, hspells, ?_, ?_⟩
  · rw [lex, start_eq, hus]
  · rw [← hrest, hashBang_append_drop]
  · simpa [Place.start] using hplaced
  · rw [lex, start_eq]
    exact hclosing

/-- Where tokens are read, those behind others are read there too, the first behind some gap. -/
theorem Spells.exists_behind {us before rest : List Token} {t : Token} {front closing : Text}
    (h : Spells none us closing) (hus : prependGap front us = before ++ t :: rest) :
    ∃ gap previous, Spells previous ({ t with gap } :: rest) closing := by
  cases us with
  | nil => simp [prependGap] at hus
  | cons u us =>
    cases before with
    | nil =>
      obtain ⟨rfl, rfl⟩ := List.cons.inj hus
      exact ⟨u.gap, none, h⟩
    | cons b before =>
      obtain ⟨_, rfl⟩ := List.cons.inj hus
      exact ⟨t.gap, _, (spells_append_iff.mp h.2.2).2⟩

/-- Neighbours among the tokens of a text can be read alone, unless the first of them begins with a
slash. -/
theorem spells_alone_of_lex {source : Text} {before ts after : List Token} {t : Token}
    (h : (lex source).tokens = before ++ t :: (ts ++ after)) (hslash : t.text.head? ≠ some '/') :
    Spells none ({ t with gap := [] } :: ts) [] := by
  obtain ⟨us, left, hprepend, _, hspells, _⟩ := spells_of_lex source
  obtain ⟨gap, previous, hbehind⟩ := hspells.exists_behind (hprepend.symm.trans h)
  rw [← List.cons_append, spells_append_iff] at hbehind
  exact hbehind.1.alone hslash

/-- The tokens of a text that can be lexed. -/
theorem spells_of_tokenize {source : Text} {ts : List Token} (h : tokenize source = .ok ts) :
    ∃ us closing, ts = prependGap (hashBang source) us ∧
      source = hashBang source ++ (Token.sourceOf us ++ closing) ∧ Spells none us closing ∧
      IsClosing closing ∧ Placed (hashBang source).size us := by
  obtain ⟨htokens, hnone⟩ := tokenize_eq_ok_iff.mp h
  obtain ⟨us, closing, hus, hsource, hspells, hplaced, hclosing⟩ := spells_of_lex source
  exact ⟨us, closing, htokens.symm.trans hus, hsource, hspells, hclosing hnone, hplaced⟩

/-- **A text that is spelled can be lexed**, and it holds the tokens that spell it; a first line
with `#!` goes in front of the first gap. -/
theorem tokenize_of_spells {source : Text} {us : List Token} {closing : Text}
    (hsource : source = hashBang source ++ (Token.sourceOf us ++ closing))
    (hspells : Spells none us closing) (hclosing : IsClosing closing) :
    ∃ vs, tokenize source = .ok (prependGap (hashBang source) vs) ∧ SameTokens vs us := by
  have hrest : source.drop (hashBang source).length = Token.sourceOf us ++ closing := by
    have hsplit := hashBang_append_drop source
    conv_rhs at hsplit => rw [hsource]
    exact List.append_cancel_left hsplit
  obtain ⟨vs, hrun, hsame⟩ := run_of_spells (l := Lexer.start source)
    (by rw [start_eq, hrest]) (by rw [start_eq]; exact hspells) hclosing
  rw [start_eq] at hrun
  refine ⟨vs, tokenize_eq_ok_iff.mpr ⟨?_, ?_⟩, hsame⟩
  · rw [lex, start_eq, hrun]
  · rw [lex, start_eq, hrun]

/-- The tokens cover the text up to what stands behind the last one. -/
theorem exists_left_of_lex (source : Text) :
    ∃ left, source = Token.sourceOf (lex source).tokens ++ left := by
  obtain ⟨us, left, hus, hsource, _⟩ := spells_of_lex source
  rw [hus]
  cases us with
  | nil => exact ⟨source, rfl⟩
  | cons t us =>
    refine ⟨left, hsource.trans ?_⟩
    simp [prependGap]

/-- Only a gap is left behind the tokens of a text. -/
theorem exists_closing_of_tokenize {source : Text} {ts : List Token}
    (h : tokenize source = .ok ts) : ∃ closing, source = Token.sourceOf ts ++ closing := by
  obtain ⟨rfl, _⟩ := tokenize_eq_ok_iff.mp h
  exact exists_left_of_lex source

/-- Only the empty text has no size. -/
theorem Text.size_pos {t : Text} (h : t ≠ []) : 0 < t.size := by
  cases t with
  | nil => exact absurd rfl h
  | cons c t => exact Nat.add_pos_left (Char.utf8Size_pos c) _

/-- Tokens that are spelled are not empty. -/
theorem Spells.text_ne_nil {previous : Option Token} {ts : List Token} {tail : Text}
    (h : Spells previous ts tail) : ∀ t ∈ ts, t.text ≠ [] := by
  induction ts generalizing previous with
  | nil => simp
  | cons t ts ih =>
    intro u hu
    rcases List.mem_cons.mp hu with rfl | hu
    · exact h.2.1.ne_nil
    · exact ih h.2.2 u hu

/-- Of two lists one behind the other, the second stands behind the source of the first. -/
theorem placed_append_iff {offset : Nat} {ts us : List Token} :
    Placed offset (ts ++ us) ↔
      Placed offset ts ∧ Placed (offset + (Token.sourceOf ts).size) us := by
  induction ts generalizing offset with
  | nil => simp [Placed]
  | cons t ts ih =>
    have hstop : t.stop = t.start + t.text.size := rfl
    rw [List.cons_append, Placed, Placed, ih, and_assoc, sourceOf_cons, Text.size_append,
      Text.size_append]
    refine and_congr_right fun hstart => and_congr_right fun _ => ?_
    rw [hstop, hstart, Nat.add_assoc, Nat.add_assoc]

/-- Tokens that stand one behind the other begin behind the place where the first gap does. -/
theorem Placed.le_start {offset : Nat} {ts : List Token} (h : Placed offset ts) :
    ∀ t ∈ ts, offset ≤ t.start := by
  induction ts generalizing offset with
  | nil => simp
  | cons t ts ih =>
    obtain ⟨hstart, hrest⟩ := h
    intro u hu
    rcases List.mem_cons.mp hu with rfl | hu
    · omega
    · have := ih hrest u hu
      have : t.stop = t.start + t.text.size := rfl
      omega

/-- A gap stands behind the beginning of the text. -/
theorem Placed.gap_le_start {offset : Nat} {ts : List Token} (h : Placed offset ts) :
    ∀ t ∈ ts, t.gap.size ≤ t.start := by
  induction ts generalizing offset with
  | nil => simp
  | cons t ts ih =>
    obtain ⟨hstart, hrest⟩ := h
    exact List.forall_mem_cons.mpr ⟨hstart ▸ Nat.le_add_left _ _, ih hrest⟩

/-- Where a token stands in the text of its list.  What is in front of it is made of gaps and texts
of the tokens before. -/
theorem Placed.exists_split {offset : Nat} {ts : List Token} (h : Placed offset ts) :
    ∀ t ∈ ts, ∃ before after, Token.sourceOf ts = before ++ (t.text ++ after) ∧
      t.start = offset + before.size := by
  induction ts generalizing offset with
  | nil => simp
  | cons t ts ih =>
    obtain ⟨hstart, hrest⟩ := h
    intro u hu
    rcases List.mem_cons.mp hu with rfl | hu
    · exact ⟨u.gap, Token.sourceOf ts, sourceOf_cons u ts, hstart⟩
    · obtain ⟨before, after, hsource, hplace⟩ := ih hrest u hu
      have hstop : t.stop = t.start + t.text.size := rfl
      refine ⟨t.gap ++ (t.text ++ before), after, ?_, ?_⟩
      · rw [sourceOf_cons, hsource]
        simp
      · rw [hplace, hstop, hstart, Text.size_append, Text.size_append]
        omega

/-- Each token begins behind the tokens before it. -/
theorem Placed.pairwise {offset : Nat} {ts : List Token} (h : Placed offset ts) :
    ts.Pairwise fun t u => t.stop ≤ u.start := by
  induction ts generalizing offset with
  | nil => exact .nil
  | cons t ts ih => exact .cons h.2.le_start (ih h.2)

/-- The tokens of a text stand where they are said to stand. -/
theorem placed_of_lex (source : Text) : Placed 0 (lex source).tokens := by
  obtain ⟨us, left, hus, _, _, hplaced, _⟩ := spells_of_lex source
  rw [hus]
  cases us with
  | nil => trivial
  | cons u us =>
    obtain ⟨hstart, hrest⟩ := hplaced
    refine ⟨?_, hrest⟩
    change u.start = 0 + (hashBang source ++ u.gap).size
    rw [hstart, Text.size_append, Nat.zero_add]

/-- The tokens of a text that can be lexed stand where they are said to stand. -/
theorem placed_of_tokenize {source : Text} {ts : List Token} (h : tokenize source = .ok ts) :
    Placed 0 ts := by
  obtain ⟨rfl, _⟩ := tokenize_eq_ok_iff.mp h
  exact placed_of_lex source

/-- Behind the first token of a text the tokens are read where they stand, up to the end of the
text or to a place from which it cannot be read further. -/
theorem spells_behind_of_lex {source : Text} {t : Token} {ts : List Token}
    (h : (lex source).tokens = t :: ts) :
    ∃ left, source = Token.sourceOf (t :: ts) ++ left ∧ Spells (some t) ts left ∧
      ((lex source).failure = none → IsClosing left) := by
  obtain ⟨us, left, hprepend, hsource, hspells, _, hclosing⟩ := spells_of_lex source
  rw [h] at hprepend
  cases us with
  | nil => cases hprepend
  | cons u us =>
    cases hprepend
    refine ⟨left, ?_, hspells.2.2.behind (slashBeginsRegex_congr rfl rfl), hclosing⟩
    rw [sourceOf_cons] at hsource
    conv_lhs => rw [hsource]
    simp only [sourceOf_cons, List.append_assoc]

/-- Behind the first token of a text that can be lexed, the tokens are read where they stand up to
a closing gap. -/
theorem spells_behind_of_tokenize {source : Text} {t : Token} {ts : List Token}
    (h : tokenize source = .ok (t :: ts)) :
    ∃ closing, source = Token.sourceOf (t :: ts) ++ closing ∧ Spells (some t) ts closing ∧
      IsClosing closing := by
  obtain ⟨htokens, hnone⟩ := tokenize_eq_ok_iff.mp h
  obtain ⟨closing, hsource, hspells, hclosing⟩ := spells_behind_of_lex htokens
  exact ⟨closing, hsource, hspells, hclosing hnone⟩

/-- No token is empty. -/
theorem start_lt_stop_of_lex (source : Text) : ∀ t ∈ (lex source).tokens, t.start < t.stop := by
  obtain ⟨us, left, hus, _, hspells, _⟩ := spells_of_lex source
  rw [hus]
  intro t ht
  have hne : t.text ≠ [] := by
    cases us with
    | nil => cases ht
    | cons u us =>
      rcases List.mem_cons.mp ht with rfl | ht
      · exact hspells.text_ne_nil u List.mem_cons_self
      · exact hspells.text_ne_nil t (List.mem_cons_of_mem _ ht)
  exact Nat.lt_add_of_pos_right (Text.size_pos hne)

/-- The tokens of a text stand one behind the other, and none of them is empty. -/
theorem pairwise_of_tokenize {source : Text} {ts : List Token} (h : tokenize source = .ok ts) :
    (ts.Pairwise fun t u => t.stop ≤ u.start) ∧ ∀ t ∈ ts, t.start < t.stop := by
  obtain ⟨rfl, _⟩ := tokenize_eq_ok_iff.mp h
  exact ⟨(placed_of_lex source).pairwise, start_lt_stop_of_lex source⟩

/-- **Tokens are told apart by where they begin.**  They are not empty, and each one starts behind
the one before. -/
theorem eq_of_start_eq_of_lex {source : Text} {i j : Nat} {t u : Token}
    (ht : (lex source).tokens[i]? = some t) (hu : (lex source).tokens[j]? = some u)
    (hstart : t.start = u.start) : i = j := by
  have hpairwise := (placed_of_lex source).pairwise
  have hpos := start_lt_stop_of_lex source
  obtain ⟨hi, rfl⟩ := List.getElem?_eq_some_iff.mp ht
  obtain ⟨hj, rfl⟩ := List.getElem?_eq_some_iff.mp hu
  have hti := hpos _ (List.getElem_mem hi)
  have htj := hpos _ (List.getElem_mem hj)
  rcases Nat.lt_trichotomy i j with hlt | heq | hgt
  · have := List.pairwise_iff_getElem.mp hpairwise i j hi hj hlt
    omega
  · exact heq
  · have := List.pairwise_iff_getElem.mp hpairwise j i hj hi hgt
    omega

/-- Tokens of a text that can be lexed are told apart by where they begin. -/
theorem eq_of_start_eq {source : Text} {ts : List Token} (h : tokenize source = .ok ts) {i j : Nat}
    {t u : Token} (ht : ts[i]? = some t) (hu : ts[j]? = some u) (hstart : t.start = u.start) :
    i = j := by
  obtain ⟨rfl, _⟩ := tokenize_eq_ok_iff.mp h
  exact eq_of_start_eq_of_lex ht hu hstart

/-- A token of a text is found at one place only. -/
theorem append_inj_of_start {source : Text} {before before' after after' : List Token} {t u : Token}
    (h : (lex source).tokens = before ++ t :: after) (h' : (lex source).tokens = before' ++ u :: after')
    (hstart : t.start = u.start) : before = before' ∧ t = u ∧ after = after' := by
  have ht : (lex source).tokens[before.length]? = some t := by simp [h]
  have hu : (lex source).tokens[before'.length]? = some u := by simp [h']
  have hlength := eq_of_start_eq_of_lex ht hu hstart
  obtain ⟨hbefore, hrest⟩ := List.append_inj (h.symm.trans h') hlength
  exact ⟨hbefore, List.cons.inj hrest⟩

/-- Every token of a text is read somewhere. -/
theorem exists_reads_of_lex (source : Text) :
    ∀ t ∈ (lex source).tokens, ∃ previous tail, Reads previous t.kind t.text tail := by
  obtain ⟨us, left, hus, _, hspells, _⟩ := spells_of_lex source
  rw [hus]
  intro t ht
  cases us with
  | nil => cases ht
  | cons u us =>
    rcases List.mem_cons.mp ht with rfl | ht
    · exact hspells.exists_reads u List.mem_cons_self
    · exact hspells.exists_reads t (List.mem_cons_of_mem _ ht)

/-- Each of them is read somewhere. -/
theorem exists_reads_of_tokenize {source : Text} {ts : List Token} (h : tokenize source = .ok ts) :
    ∀ t ∈ ts, ∃ previous tail, Reads previous t.kind t.text tail := by
  obtain ⟨rfl, _⟩ := tokenize_eq_ok_iff.mp h
  exact exists_reads_of_lex source

/-! ### Single spaces -/

/-- The tokens with the gap `front` in front of the first and single spaces in between. -/
def spaced (front : Text) : List Token → List Token
  | [] => []
  | t :: ts => { t with gap := front } :: spaced [' '] ts

/-- Spaces in between do not change kinds and texts. -/
@[simp] theorem map_word_spaced (front : Text) (ts : List Token) :
    (spaced front ts).map Token.word = ts.map Token.word := by
  induction ts generalizing front with
  | nil => rfl
  | cons t ts ih => simp [spaced, ih, Token.word]

/-- Tokens with single spaces in between make up the joined texts. -/
theorem sourceOf_spaced (front : Text) {ts : List Token} (hne : ts ≠ []) :
    Token.sourceOf (spaced front ts) = front ++ Text.join [' '] (ts.map Token.text) := by
  induction ts generalizing front with
  | nil => exact absurd rfl hne
  | cons t ts ih =>
    cases ts with
    | nil => simp [spaced, Text.join]
    | cons u us =>
      rw [spaced, sourceOf_cons, ih [' '] (List.cons_ne_nil _ _)]
      simp [Text.join, List.intercalate]

/-- With nothing in front of the first token the source is the joined texts. -/
theorem sourceOf_spaced_nil (ts : List Token) :
    Token.sourceOf (spaced [] ts) = Text.join [' '] (ts.map Token.text) := by
  cases ts with
  | nil => simp [spaced, Text.join]
  | cons t ts => rw [sourceOf_spaced [] (List.cons_ne_nil _ _), List.nil_append]

/-- Tokens can be spelled with single spaces in between. -/
theorem spells_spaced {previous : Option Token} {ts : List Token} {tail : Text}
    (h : Spells previous ts tail) {front : Text} (hfront : IsGap front) :
    Spells previous (spaced front ts) [] := by
  induction ts generalizing previous front with
  | nil => trivial
  | cons t ts ih =>
    obtain ⟨_, hreads, hspells⟩ := h
    refine ⟨hfront, hreads.retail ?_, (ih hspells isGap_space).behind (slashBeginsRegex_congr rfl rfl)⟩
    cases ts with
    | nil => exact hreads.alone.endsBefore
    | cons u us => exact endsBefore_separator hreads.alone (by decide) _

/-- A token that begins with a hash is nothing but the hash.  No long punctuator begins with a
hash. -/
theorem eq_hash_of_reads {previous : Option Token} {kind : TokenKind} {body tail : Text}
    (h : Reads previous kind ('#' :: body) tail) : body = [] := by
  obtain ⟨_, hkind, p, q, hscan⟩ := reads_cons_iff.mp h.alone
  have hpunct : kindAt previous '#' (body ++ []).head? = .punct := by simp [kindAt, beginsIdent]
  rw [← hkind, hpunct] at hscan
  have hlen := scanPunct_eq_found_iff.mp ⟨q, hscan⟩
  have hnone : longPuncts.find? (fun s => s.toList.isPrefixOf ('#' :: body)) = none := by
    apply List.find?_eq_none.mpr
    intro s hs
    have hhead : s.toList.head? ≠ some '#' ∧ s.toList ≠ [] := by
      revert s
      decide
    cases hlist : s.toList with
    | nil => exact absurd hlist hhead.2
    | cons c more =>
      rw [hlist] at hhead
      simpa [List.isPrefixOf] using fun hc => absurd (congrArg some hc) hhead.1
  rw [List.append_nil, punctLength, hnone, List.length_cons] at hlen
  have hone : 1 = body.length + 1 := hlen
  exact List.length_eq_zero_iff.mp (by omega)

/-- Tokens that are spelled with single spaces in between never begin with `#!`: a hash is a token
of its own. -/
theorem hashBang_spaced {previous : Option Token} {ts : List Token} {tail : Text}
    (h : Spells previous ts tail) : hashBang (Token.sourceOf (spaced [] ts)) = [] := by
  unfold hashBang
  rw [if_neg]
  intro hprefix
  cases ts with
  | nil => cases hprefix
  | cons t ts =>
    obtain ⟨_, hreads, _⟩ := h
    rw [spaced, sourceOf_cons, List.nil_append] at hprefix
    cases htext : t.text with
    | nil => exact hreads.ne_nil htext
    | cons c body =>
      rw [htext] at hreads hprefix
      obtain ⟨hc, hbang⟩ : '#' = c ∧ ['!'].isPrefixOf (body ++ Token.sourceOf (spaced [' '] ts)) := by
        simpa [List.isPrefixOf] using hprefix
      subst hc
      obtain rfl := eq_hash_of_reads hreads
      cases ts <;> simp [spaced, List.isPrefixOf] at hbang

/-- **Spaces do not change tokens.**  The texts of the tokens of a text, with single spaces in
between, hold the same tokens. -/
theorem tokenize_spaced {source : Text} {ts : List Token} (h : tokenize source = .ok ts) :
    ∃ us, tokenize (Text.join [' '] (ts.map Token.text)) = .ok us ∧
      us.map Token.word = ts.map Token.word := by
  obtain ⟨ts', closing, rfl, _, hspells, _⟩ := spells_of_tokenize h
  have htexts : (prependGap (hashBang source) ts').map Token.text = ts'.map Token.text := by
    cases ts' <;> rfl
  have hbang := hashBang_spaced hspells
  have hsource : Token.sourceOf (spaced [] ts') = hashBang (Token.sourceOf (spaced [] ts')) ++
      (Token.sourceOf (spaced [] ts') ++ []) := by
    rw [hbang, List.nil_append, List.append_nil]
  obtain ⟨us, hus, hsame⟩ :=
    tokenize_of_spells hsource (spells_spaced hspells isGap_nil) isClosing_nil
  rw [hbang, prependGap_nil] at hus
  rw [htexts, map_word_prependGap, ← sourceOf_spaced_nil]
  exact ⟨us, hus, (map_word_of_sameTokens hsame).trans (map_word_spaced [] ts')⟩

/-- Tokens with the same kinds and texts have the same texts. -/
theorem map_text_of_map_word {ts us : List Token} (h : ts.map Token.word = us.map Token.word) :
    ts.map Token.text = us.map Token.text := by
  have htexts := congrArg (List.map Prod.snd) h
  rw [List.map_map, List.map_map] at htexts
  exact htexts

end Twinfold
