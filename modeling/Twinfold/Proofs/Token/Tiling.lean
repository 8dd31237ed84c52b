import Twinfold.Proofs.Token.ByteScans

/-!
# Tokens tile their text

The lexer passes over spaces and comments one character at a time.  Here a gap is looked at as a
whole: it is a sequence of spaces, comments up to the end of their line, and closed block
comments (`Trivia`).

* `trivia_of_readGap` — what a scan passes over is such a sequence;
* `readGap_of_trivia` — and every such sequence is passed over;
* `tiles_lex` — the tokens that are found in the bytes of a text stand in it one behind the other,
  between characters, and only such sequences are left between them.

A scan that stands inside a comment runs to the end of the comment first
(`lineComment_of_readGap`, `blockComment_of_readGap`), and then the scan of a gap begins again
with less text.
-/

namespace Twinfold

/-- Sequences of spaces and comments.  Only where `final` holds may the last comment run up to the
end of the text instead of the end of its line. -/
inductive Trivia (final : Prop) : Text → Prop
  | nil : Trivia final []
  | space {c : Char} {t : Text} (hspace : isGapSpace c) (ht : Trivia final t) : Trivia final (c :: t)
  | line {comment t : Text} (hline : '\n' ∉ comment) (ht : Trivia final t) :
      Trivia final ('/' :: '/' :: (comment ++ '\n' :: t))
  | block {comment t : Text} (hblock : ¬['*', '/'] <:+: comment ++ ['*']) (ht : Trivia final t) :
      Trivia final ('/' :: '*' :: (comment ++ '*' :: '/' :: t))
  | last {comment : Text} (hfinal : final) (hline : '\n' ∉ comment) :
      Trivia final ('/' :: '/' :: comment)

/-! ### Comments run to their end -/

/-- A scan inside a line comment ends with the text, or passes over the end of the line.  Behind
the line end the gap is read on as if there had been no comment. -/
theorem lineComment_of_readGap {p q : Place} {t taken rest : Text}
    (h : readGap (some .line) p t = .found taken rest q) :
    ('\n' ∉ taken ∧ rest = []) ∨
      ∃ comment gap p' t', '\n' ∉ comment ∧ taken = comment ++ '\n' :: gap ∧
        t = comment ++ '\n' :: t' ∧ readGap none p' t' = .found gap rest q := by
  induction t generalizing p taken with
  | nil =>
    obtain ⟨rfl, rfl, -⟩ : [] = taken ∧ [] = rest ∧ p = q := by
      simpa [readGap, Comment.atEnd] using h
    exact .inl ⟨List.not_mem_nil, rfl⟩
  | cons c t ih =>
    obtain ⟨taken, rfl, hinner⟩ := Scan.cons_eq_found_iff.mp h
    by_cases hc : c = '\n'
    · subst hc
      exact .inr ⟨[], taken, _, t, List.not_mem_nil, rfl, rfl, by simpa [Comment.read] using hinner⟩
    · rw [show Comment.read p c .line = some .line by simp [Comment.read, hc]] at hinner
      rcases ih hinner with ⟨hline, hrest⟩ | ⟨comment, gap, p', t', hline, htaken, ht, hread⟩
      · exact .inl ⟨by simp [Ne.symm hc, hline], hrest⟩
      · exact .inr ⟨c :: comment, gap, p', t', by simp [Ne.symm hc, hline], by rw [htaken]; rfl,
          by rw [ht]; rfl, hread⟩

/-- Whether a slash behind the text closes a block comment and no slash before does; `star` tells
whether a star stands in front of the text. -/
def ClosesBehind : (star : Bool) → Text → Prop
  | star, [] => star
  | star, c :: t => ¬(star ∧ c = '/') ∧ ClosesBehind (c = '*') t

/-- A block comment is closed by its first closing mark. -/
theorem closesBehind_iff {star : Bool} {t : Text} :
    ClosesBehind star t ↔
      ['*'] <:+ (if star then '*' :: t else t) ∧
        ¬['*', '/'] <:+: (if star then '*' :: t else t) := by
  induction t generalizing star with
  | nil => cases star <;> simp [ClosesBehind, List.infix_cons_iff]
  | cons c t ih =>
    rw [ClosesBehind, ih]
    by_cases hc : c = '*'
    · subst hc
      cases star <;> simp [List.infix_cons_iff, List.suffix_cons_iff]
    · cases star <;> simp [List.infix_cons_iff, List.suffix_cons_iff, hc, Ne.symm hc, eq_comm]
      tauto

/-- A block comment that is open and not about to close goes on to the first star and slash. -/
theorem closesBehind_false_iff {t : Text} :
    ClosesBehind false t ↔ ∃ body, t = body ++ ['*'] ∧ ¬['*', '/'] <:+: body ++ ['*'] := by
  rw [closesBehind_iff]
  constructor
  · rintro ⟨⟨body, rfl⟩, hinside⟩
    exact ⟨body, rfl, hinside⟩
  · rintro ⟨body, rfl, hinside⟩
    exact ⟨⟨body, rfl⟩, hinside⟩

/-- What one character does inside a block comment, behind the mark that opens it. -/
theorem read_block {opened p : Place} {star : Bool} {c : Char} :
    (Comment.block opened star).read p c =
      if (star && opened.offset + 2 < p.offset) ∧ c = '/' then none
      else some (.block opened (c = '*')) := by
  simp only [Comment.read, Bool.and_eq_true, decide_eq_true_eq]
  congr 1
  simp only [eq_iff_iff]
  tauto

/-- The place behind the mark that opens a block comment. -/
theorem offset_opened (p : Place) : ((p.after '/').after '*').offset = p.offset + 2 := rfl

/-- A scan inside a block comment passes over the mark that closes it.  An asterisk closes it only
if it is not the one that opened it. -/
theorem blockComment_of_readGap {opened p q : Place} {star : Bool} {t taken rest : Text}
    (hp : opened.offset + 2 ≤ p.offset)
    (h : readGap (some (.block opened star)) p t = .found taken rest q) :
    ∃ comment gap p' t', ClosesBehind (star && opened.offset + 2 < p.offset) comment ∧
      taken = comment ++ '/' :: gap ∧ t = comment ++ '/' :: t' ∧
      readGap none p' t' = .found gap rest q := by
  induction t generalizing p star taken with
  | nil => cases h
  | cons c t ih =>
    obtain ⟨taken, rfl, hinner⟩ := Scan.cons_eq_found_iff.mp h
    rw [read_block] at hinner
    split at hinner
    · rename_i hclose
      obtain ⟨hstar, rfl⟩ := hclose
      exact ⟨[], taken, _, t, hstar, rfl, rfl, hinner⟩
    · rename_i hopen
      have hbehind : opened.offset + 2 < (p.after c).offset :=
        Nat.lt_of_le_of_lt hp (Nat.lt_add_of_pos_right (Char.utf8Size_pos c))
      obtain ⟨comment, gap, p', t', hcloses, rfl, rfl, hread⟩ := ih (Nat.le_of_lt hbehind) hinner
      refine ⟨c :: comment, gap, p', t', ⟨hopen, ?_⟩, rfl, rfl, hread⟩
      rwa [decide_eq_true hbehind, Bool.and_true] at hcloses

/-! ### Gaps are sequences of spaces and comments -/

/-- **What a scan passes over** is a sequence of spaces and comments.  Each comment takes a part of
the text with it, so the induction is on the length. -/
theorem trivia_of_readGap {p q : Place} {t taken rest : Text}
    (h : readGap none p t = .found taken rest q) : Trivia (rest = []) taken := by
  induction hn : t.length using Nat.strong_induction_on generalizing p t taken with
  | _ n ih =>
    subst hn
    cases t with
    | nil =>
      obtain ⟨rfl, -⟩ : [] = taken ∧ [] = rest ∧ p = q := by simpa [readGap] using h
      exact .nil
    | cons c t =>
      simp only [readGap] at h
      split at h
      · rename_i hspace
        obtain ⟨taken, rfl, hinner⟩ := Scan.cons_eq_found_iff.mp h
        exact .space hspace (ih _ (Nat.lt_succ_self _) hinner rfl)
      · split at h
        · rename_i k hopened
          obtain ⟨taken, rfl, hinner⟩ := Scan.cons_eq_found_iff.mp h
          obtain ⟨rfl, hkind⟩ := opened?_eq_some_iff.mp hopened
          obtain ⟨d, t, rfl⟩ : ∃ d t', t = d :: t' := by
            cases t with
            | nil => simp at hkind
            | cons d t => exact ⟨d, t, rfl⟩
          -- The second character of the mark belongs to the comment as well.
          obtain ⟨taken, rfl, hcomment⟩ := Scan.cons_eq_found_iff.mp hinner
          rcases hkind with ⟨hd, rfl⟩ | ⟨hd, rfl⟩
          · obtain rfl : d = '/' := by simpa using hd
            rcases lineComment_of_readGap hcomment with
              ⟨hline, hrest⟩ | ⟨comment, gap, p', t', hline, rfl, rfl, hread⟩
            · exact .last hrest hline
            · exact .line hline (ih _ (by simp; omega) hread rfl)
          · obtain rfl : d = '*' := by simpa using hd
            obtain ⟨comment, gap, p', t', hcloses, rfl, rfl, hread⟩ :=
              blockComment_of_readGap (Nat.le_refl _) hcomment
            rw [offset_opened, decide_eq_false (Nat.lt_irrefl _), Bool.and_false] at hcloses
            obtain ⟨body, rfl, hinside⟩ := closesBehind_false_iff.mp hcloses
            rw [List.append_assoc]
            exact .block hinside (ih _ (by simp; omega) hread rfl)
        · cases h
          exact .nil

/-- A scan inside a line comment goes on behind the end of the line. -/
theorem readGap_lineComment {comment t gap rest : Text} (hline : '\n' ∉ comment)
    (h : ∀ p, ∃ q, readGap none p t = .found gap rest q) (p : Place) :
    ∃ q, readGap (some .line) p (comment ++ '\n' :: t) = .found (comment ++ '\n' :: gap) rest q := by
  induction comment generalizing p with
  | nil =>
    obtain ⟨q, hread⟩ := h (p.after '\n')
    exact ⟨q, Scan.cons_eq_found_iff.mpr ⟨gap, rfl, by simpa [Comment.read] using hread⟩⟩
  | cons c comment ih =>
    obtain ⟨hc, hline⟩ : '\n' ≠ c ∧ '\n' ∉ comment := by simpa using hline
    obtain ⟨q, hread⟩ := ih hline (p.after c)
    refine ⟨q, Scan.cons_eq_found_iff.mpr ⟨_, rfl, ?_⟩⟩
    simpa [Comment.read, Ne.symm hc] using hread

/-- A line comment may end with the text. -/
theorem readGap_lastComment {comment : Text} (hline : '\n' ∉ comment) (p : Place) :
    ∃ q, readGap (some .line) p comment = .found comment [] q := by
  induction comment generalizing p with
  | nil => exact ⟨p, rfl⟩
  | cons c comment ih =>
    obtain ⟨hc, hline⟩ : '\n' ≠ c ∧ '\n' ∉ comment := by simpa using hline
    obtain ⟨q, hread⟩ := ih hline (p.after c)
    refine ⟨q, Scan.cons_eq_found_iff.mpr ⟨_, rfl, ?_⟩⟩
    simpa [Comment.read, Ne.symm hc] using hread

/-- A scan inside a block comment goes on behind the mark that closes it.  The comment ends with an
asterisk that is not the one that opened it. -/
theorem readGap_blockComment {opened : Place} {star : Bool} {comment t gap rest : Text} {p : Place}
    (hp : opened.offset + 2 ≤ p.offset)
    (hcloses : ClosesBehind (star && opened.offset + 2 < p.offset) comment)
    (h : ∀ p, ∃ q, readGap none p t = .found gap rest q) :
    ∃ q, readGap (some (.block opened star)) p (comment ++ '/' :: t) =
      .found (comment ++ '/' :: gap) rest q := by
  induction comment generalizing p star with
  | nil =>
    obtain ⟨q, hread⟩ := h (p.after '/')
    refine ⟨q, Scan.cons_eq_found_iff.mpr ⟨gap, rfl, ?_⟩⟩
    rw [read_block, if_pos ⟨hcloses, rfl⟩]
    exact hread
  | cons c comment ih =>
    obtain ⟨hopen, hcloses⟩ := hcloses
    have hbehind : opened.offset + 2 < (p.after c).offset :=
      Nat.lt_of_le_of_lt hp (Nat.lt_add_of_pos_right (Char.utf8Size_pos c))
    obtain ⟨q, hread⟩ := @ih (c = '*') (p.after c) (Nat.le_of_lt hbehind)
      (by rwa [decide_eq_true hbehind, Bool.and_true])
    refine ⟨q, Scan.cons_eq_found_iff.mpr ⟨_, rfl, ?_⟩⟩
    rw [read_block, if_neg hopen]
    exact hread

/-- A scan passes over both characters of the mark that opens a comment. -/
theorem readGap_opened {p q : Place} {c d : Char} {t taken rest : Text} {k : Comment}
    (hopened : Comment.opened? p c (d :: t).head? = some k)
    (h : readGap (k.read (p.after c) d) ((p.after c).after d) t = .found taken rest q) :
    readGap none p (c :: d :: t) = .found (c :: d :: taken) rest q := by
  obtain ⟨rfl, -⟩ := opened?_eq_some_iff.mp hopened
  rw [readGap, if_neg (by decide), hopened]
  exact Scan.cons_eq_found_iff.mpr ⟨d :: taken, rfl, Scan.cons_eq_found_iff.mpr ⟨taken, rfl, h⟩⟩

/-- **Every sequence of spaces and comments is passed over**, up to where a token begins or the
text ends. -/
theorem readGap_of_trivia {final : Prop} {gap rest : Text} (h : Trivia final gap)
    (hfinal : final → rest = []) (hrest : rest = [] ∨ startsToken rest) (p : Place) :
    ∃ q, readGap none p (gap ++ rest) = .found gap rest q := by
  induction h generalizing p with
  | nil =>
    rcases hrest with rfl | hstart
    · exact ⟨p, rfl⟩
    · exact ⟨p, readGap_of_startsToken hstart p⟩
  | @space c t hspace _ ih =>
    obtain ⟨q, hread⟩ := ih (p.after c)
    refine ⟨q, ?_⟩
    simp [readGap, hspace, hread, Scan.cons]
  | @line comment t hline _ ih =>
    obtain ⟨q, hread⟩ := readGap_lineComment hline ih ((p.after '/').after '/')
    refine ⟨q, readGap_opened (opened?_eq_some_iff.mpr ⟨rfl, .inl ⟨rfl, rfl⟩⟩) ?_⟩
    simpa [Comment.read] using hread
  | @block comment t hblock _ ih =>
    have hcloses : ClosesBehind (true && p.offset + 2 < ((p.after '/').after '*').offset)
        (comment ++ ['*']) := by
      rw [offset_opened, decide_eq_false (Nat.lt_irrefl _), Bool.and_false]
      exact closesBehind_false_iff.mpr ⟨comment, rfl, hblock⟩
    obtain ⟨q, hread⟩ := readGap_blockComment (Nat.le_refl _) hcloses ih
    refine ⟨q, readGap_opened (opened?_eq_some_iff.mpr ⟨rfl, .inr ⟨rfl, rfl⟩⟩) ?_⟩
    simpa [Comment.read] using hread
  | @last comment hlast hline =>
    obtain rfl := hfinal hlast
    obtain ⟨q, hread⟩ := readGap_lastComment hline ((p.after '/').after '/')
    refine ⟨q, readGap_opened (opened?_eq_some_iff.mpr ⟨rfl, .inl ⟨rfl, rfl⟩⟩) ?_⟩
    simpa [Comment.read] using hread

/-- Gaps are what the grammar says: spaces, line comments with their line ends and block comments
that are closed. -/
theorem isGap_iff_trivia {gap : Text} : IsGap gap ↔ Trivia False gap := by
  constructor
  · rintro ⟨q, hread⟩
    simpa using trivia_of_readGap hread
  · intro h
    exact readGap_of_trivia h False.elim (.inr rfl) .start

/-- At the end of a text a line comment need not have a line end. -/
theorem isClosing_iff_trivia {gap : Text} : IsClosing gap ↔ Trivia True gap := by
  constructor
  · rintro ⟨q, hread⟩
    simpa using trivia_of_readGap hread
  · intro h
    have hread := readGap_of_trivia h (fun _ => rfl) (.inl rfl) .start
    rwa [List.append_nil] at hread

/-! ### Tokens and gaps -/

/-- Every token of a text is a part of it, at its offsets. -/
theorem exists_split_of_lex {source : Text} {t : Token} (ht : t ∈ (lex source).tokens) :
    ∃ before behind, source = before ++ (t.text ++ behind) ∧ t.start = before.size ∧
      t.stop = (before ++ t.text).size := by
  obtain ⟨left, hsource⟩ := exists_left_of_lex source
  obtain ⟨before, behind, hsplit, hstart⟩ := (placed_of_lex source).exists_split t ht
  rw [Nat.zero_add] at hstart
  refine ⟨before, behind ++ left, ?_, hstart, ?_⟩
  · conv_lhs => rw [hsource, hsplit]
    simp only [List.append_assoc]
  · rw [Token.stop, ← Token.start, hstart, Text.size_append]

/-- The gaps in front of tokens, the first of them from `start` on. -/
def gapsFrom (start : Nat) : List ByteToken → List (Nat × Nat)
  | [] => []
  | t :: ts => (start, t.start) :: gapsFrom t.stop ts

/-- Where the last of the tokens ends; without tokens it is `start`. -/
def stopFrom (start : Nat) : List ByteToken → Nat
  | [] => start
  | t :: ts => stopFrom t.stop ts

/-- The positions at which tokens begin and end, and both ends of the source. -/
def ByteLexed.edges (src : Bytes) (lexed : ByteLexed) : List Nat :=
  0 :: src.size :: lexed.tokens.flatMap fun t => [t.start, t.stop]

/-- What lexing the bytes `src` of a text finds tiles the text.  The spans of the tokens are not empty,
one behind the other and between characters, so whatever is cut out from one edge to another is there.
What lies in front of, between and behind the tokens are spaces and comments, and perhaps a first line
with `#!`; behind the last token this is so if lexing comes to the end of the text. -/
structure Tiles (source : Text) (src : Bytes) (lexed : ByteLexed) : Prop where
  spans : ∀ t ∈ lexed.tokens, ∃ before text behind, source = before ++ (text ++ behind) ∧
    t.start = before.size ∧ t.stop = (before ++ text).size ∧ src.textOf? t = some text.utf8
  nonempty : ∀ t ∈ lexed.tokens, t.start < t.stop
  ascending : lexed.tokens.Pairwise fun t u => t.stop ≤ u.start
  inside : ∀ t ∈ lexed.tokens, t.stop ≤ src.size
  boundaries : ∀ pos ∈ lexed.edges src, src.isBoundary pos = true
  slices : ∀ start ∈ lexed.edges src, ∀ stop ∈ lexed.edges src, start ≤ stop →
    ∃ piece, src.slice? start stop = some piece
  gaps : ∀ gap ∈ gapsFrom (hashBang source).size lexed.tokens, ∃ text, Trivia False text ∧
    src.slice? gap.1 gap.2 = some (Text.utf8 text)
  closing : lexed.failure = none → ∃ text, Trivia True text ∧
    src.slice? (stopFrom (hashBang source).size lexed.tokens) src.size = some (Text.utf8 text)

section

variable {src : Bytes} {offset : Nat} {ts : List Token} {left : Text}

/-- The gaps of tokens that stand in a source can be cut out, and so can what is left behind them.
Each token stands where the gap in front of it ends. -/
theorem gaps_of_placed (hplaced : Placed offset ts)
    (h : src.Stands offset (Token.sourceOf ts ++ left)) (hgaps : ∀ t ∈ ts, Trivia False t.gap) :
    (∀ gap ∈ gapsFrom offset (ts.map Token.span), ∃ text, Trivia False text ∧
      src.slice? gap.1 gap.2 = some (Text.utf8 text)) ∧
      src.Stands (stopFrom offset (ts.map Token.span)) left := by
  induction ts generalizing offset with
  | nil => exact ⟨by simp [gapsFrom], h⟩
  | cons t ts ih =>
    obtain ⟨hstart, hrest⟩ := hplaced
    obtain ⟨hgap, hgaps⟩ := List.forall_mem_cons.mp hgaps
    rw [sourceOf_cons, List.append_assoc, List.append_assoc] at h
    have htoken : src.Stands t.start (t.text ++ (Token.sourceOf ts ++ left)) := hstart ▸ h.behind
    obtain ⟨hbehind, hleft⟩ := ih hrest htoken.behind hgaps
    refine ⟨List.forall_mem_cons.mpr ⟨⟨t.gap, hgap, ?_⟩, hbehind⟩, hleft⟩
    rw [show (offset, t.span.start).2 = offset + t.gap.size from hstart]
    exact h.slice?_eq

/-- A gap that is put in front of the first token does not change where the tokens stand. -/
theorem map_span_prependGap (front : Text) (ts : List Token) :
    (prependGap front ts).map Token.span = ts.map Token.span := by
  cases ts <;> rfl

end

/-- Every edge is between characters. -/
theorem exists_stands_of_edge {source : Text} {pos : Nat} {failure : Option ParseError}
    (h : pos ∈ ByteLexed.edges source.utf8.toArray
      ⟨(lex source).tokens.map Token.span, failure⟩) :
    ∃ rest, Bytes.Stands source.utf8.toArray pos rest := by
  have hstart := Bytes.stands_start source
  simp only [ByteLexed.edges, List.mem_cons, List.mem_flatMap, List.mem_map, exists_exists_and_eq_and,
    List.not_mem_nil, or_false] at h
  rcases h with rfl | rfl | ⟨t, ht, rfl | rfl⟩
  · exact ⟨source, hstart⟩
  · refine ⟨[], source, by rw [List.append_nil], ?_⟩
    rw [List.size_toArray, Text.length_utf8]
  · obtain ⟨before, behind, hsource, hstart, -⟩ := exists_split_of_lex ht
    exact ⟨t.text ++ behind, before, by rw [← hsource], hstart⟩
  · obtain ⟨before, behind, hsource, -, hstop⟩ := exists_split_of_lex ht
    exact ⟨behind, before ++ t.text, by rw [List.append_assoc, ← hsource], hstop⟩

/-- **Tokens tile their text.**  Lexing the bytes of a text never breaks down and comes to an end, and
what it finds tiles the text, whether or not it can be lexed to its end. -/
theorem tiles_lex (source : Text) :
    ∃ lexed, Bytes.lex source.utf8.toArray = some lexed ∧ Tiles source source.utf8.toArray lexed := by
  obtain ⟨hlex, htexts⟩ := lex_utf8 source
  obtain ⟨us, left, htokens, hsource, hspells, hplaced, hclosing⟩ := spells_of_lex source
  have hstands : Bytes.Stands source.utf8.toArray (hashBang source).size
      (Token.sourceOf us ++ left) := ⟨hashBang source, by rw [← hsource], rfl⟩
  obtain ⟨hgaps, hleft⟩ := gaps_of_placed hplaced hstands
    fun t ht => isGap_iff_trivia.mp (hspells.isGap t ht)
  have hspans : (lex source).tokens.map Token.span = us.map Token.span := by
    rw [htokens, map_span_prependGap]
  have hboundary : ∀ pos ∈ ByteLexed.edges source.utf8.toArray
      ⟨(lex source).tokens.map Token.span, (lex source).failure⟩,
      Bytes.isBoundary source.utf8.toArray pos = true := by
    intro pos hpos
    obtain ⟨rest, hrest⟩ := exists_stands_of_edge hpos
    exact hrest.isBoundary
  refine ⟨_, hlex, ?_, ?_, ?_, ?_, hboundary, ?_, ?_, ?_⟩
  · rintro _ hspan
    obtain ⟨t, ht, rfl⟩ := List.mem_map.mp hspan
    obtain ⟨before, behind, hsplit, hstart, hstop⟩ := exists_split_of_lex ht
    exact ⟨before, t.text, behind, hsplit, hstart, hstop, htexts t ht⟩
  · rintro _ hspan
    obtain ⟨t, ht, rfl⟩ := List.mem_map.mp hspan
    exact start_lt_stop_of_lex source t ht
  · exact List.pairwise_map.mpr (placed_of_lex source).pairwise
  · rintro _ hspan
    obtain ⟨t, ht, rfl⟩ := List.mem_map.mp hspan
    obtain ⟨before, behind, hsplit, -, hstop⟩ := exists_split_of_lex ht
    rw [List.size_toArray, Text.length_utf8]
    change t.stop ≤ source.size
    rw [hstop, hsplit, ← List.append_assoc, Text.size_append (before ++ t.text)]
    exact Nat.le_add_right _ _
  · intro start hstart stop hstop hle
    refine ⟨_, if_pos ?_⟩
    rw [hboundary start hstart, hboundary stop hstop, decide_eq_true hle]
    rfl
  · dsimp only
    rw [hspans]
    exact hgaps
  · intro hnone
    dsimp only
    rw [hspans]
    exact ⟨left, isClosing_iff_trivia.mp (hclosing hnone), hleft.slice?_rest⟩

end Twinfold
