import Twinfold.Proofs.Declaration.Readings
import Twinfold.Proofs.Token.Tiling

/-!
# Lines lexed alone

Lines are compared by the tokens that their texts hold, and for this every line is lexed once
more, without what stands in front of it.  Does a line then hold the tokens that the whole text
has there?  Two things get lost at the beginning of a line: the token before, which tells
whether a slash divides, and that the line is not the first one of a text, where `#!` makes
a comment.  Nothing else does:

* `lexedAlike_iff` — a line lexed alone gives the tokens of the text, at their places, if and only
  if it begins neither with a slash that divides nor with `#!`;
* `quotients_are_not_lexed_alike` — quotients that go on with the slash on a line of its own.

A line is the text of a run of neighbours, with blanks of the gaps around them (`LineSite`).  The
run is what lies in the span of the line (`LineSite.tokensIn_eq`), and it is read alone as it is
read in the text (`LineSite.spells`).
-/

namespace Twinfold

namespace LogicalLine

variable (line : LogicalLine) (source : Text)

/-- The tokens of a text that lie in the span of the line. -/
def tokensIn : List Token :=
  (lex source).tokens.filter fun t => line.start ≤ t.start && t.stop ≤ line.stop

/-- Lexed alone, the line gives as many tokens as it counts, and these are the tokens in its
span, one for one, at their places. -/
def LexedAlike : Prop :=
  ∃ ts, tokenize line.text = .ok ts ∧ ts.length = line.tokenCount ∧
    ts.map (fun t => (t.word, line.start + t.start, line.start + t.stop)) =
      (line.tokensIn source).map fun t => (t.word, t.start, t.stop)

/-- The line begins with a punctuator that begins with a slash. -/
def BeginsDividing : Prop :=
  ∃ t ∈ (line.tokensIn source).head?, t.kind = .punct ∧ t.text.head? = some '/'

/-- The line begins like the first line of a script. -/
def BeginsHashBang : Prop := ['#', '!'].isPrefixOf line.text

instance : Decidable (line.BeginsDividing source) :=
  inferInstanceAs (Decidable (∃ t ∈ (line.tokensIn source).head?, _ ∧ _))

instance : Decidable line.BeginsHashBang := inferInstanceAs (Decidable (_ = true))

end LogicalLine

/-! ### Blanks -/

/-- Spaces and tabs can stand between tokens, in front of the first and behind the last. -/
theorem trivia_of_indent {final : Prop} {t : Text} (h : ∀ c ∈ t, isIndent c = true) :
    Trivia final t := by
  induction t with
  | nil => exact .nil
  | cons c t ih =>
    obtain ⟨hc, ht⟩ := List.forall_mem_cons.mp h
    refine .space ?_ (ih ht)
    simp only [isIndent, Bool.or_eq_true, decide_eq_true_eq] at hc
    rcases hc with rfl | rfl <;> rfl

/-- A text that begins with a blank does not begin with `#!`. -/
theorem front_eq_nil_of_hashBang {front t : Text} (h : ∀ c ∈ front, isIndent c = true)
    (hbang : ['#', '!'].isPrefixOf (front ++ t)) : front = [] := by
  cases front with
  | nil => rfl
  | cons c front =>
    obtain ⟨rfl, _⟩ : '#' = c ∧ _ := by simpa [List.isPrefixOf] using hbang
    exact absurd (h '#' List.mem_cons_self) (by decide)

/-! ### Where a line comes from -/

/-- A line is the text of a run of tokens, which stand between others, and of blanks that end
the gap in front of it and begin the gap behind it. -/
structure LineSite (line : LogicalLine) (ts : List Token) where
  before : List Token
  run : LineRun
  next : Token
  after : List Token
  front : Text
  behind : Text
  tokens_eq : ts = before ++ (run.tokens ++ next :: after)
  line_eq : line = run.toLine front behind
  front_suffix : front <:+ run.first.gap
  behind_prefix : behind <+: next.gap
  front_blank : ∀ c ∈ front, isIndent c = true
  behind_blank : ∀ c ∈ behind, isIndent c = true

/-- The lines are those of the runs, each with blanks of the gaps around it; the gap behind the last
run is `closing`. -/
inductive LinesOf (closing : Text) : List LineRun → List LogicalLine → Prop
  | nil : LinesOf closing [] []
  | cons {r : LineRun} {rs : List LineRun} {lines : List LogicalLine} (front behind : Text)
      (hfront : front <:+ r.first.gap)
      (hbehind : behind <+: rs.head?.elim closing (fun s => s.first.gap))
      (hfrontBlank : ∀ c ∈ front, isIndent c = true)
      (hbehindBlank : ∀ c ∈ behind, isIndent c = true) (hlines : LinesOf closing rs lines) :
      LinesOf closing (r :: rs) (r.toLine front behind :: lines)

theorem indentAtEnd_suffix (gap : Text) : indentAtEnd gap <:+ gap := by
  obtain ⟨before, hgap⟩ := exists_append_indentAtEnd gap
  exact ⟨before, hgap.symm⟩

theorem indentAtEnd_blank (gap : Text) : ∀ c ∈ indentAtEnd gap, isIndent c = true := by
  intro c hc
  exact List.mem_takeWhile_imp (List.mem_reverse.mp hc)

/-- Lines with the blanks around them.  They are a part of the gap in front of the first token and
of the gap behind the last one. -/
theorem linesOf_wideLines {closing before : Text} {runs : List LineRun}
    (hbefore : ∀ r ∈ runs.head?, before <:+ r.first.gap) :
    LinesOf closing runs (wideLines closing before runs) := by
  induction runs generalizing before with
  | nil => exact .nil
  | cons r rs ih =>
    have hfront := (indentAtEnd_suffix before).trans (hbefore r rfl)
    cases rs with
    | nil =>
      exact .cons _ _ hfront (List.takeWhile_prefix _) (indentAtEnd_blank _)
        (fun _ => List.mem_takeWhile_imp) .nil
    | cons s rs =>
      refine .cons _ _ hfront (List.takeWhile_prefix _) (indentAtEnd_blank _)
        (fun _ => List.mem_takeWhile_imp) (ih ?_)
      rintro _ ⟨⟩
      exact List.dropWhile_suffix _

/-- Lines without the blanks around them. -/
theorem linesOf_map_toLine (closing : Text) (runs : List LineRun) :
    LinesOf closing runs (runs.map (LineRun.toLine [] [])) := by
  induction runs with
  | nil => exact .nil
  | cons r rs ih => exact .cons [] [] List.nil_suffix List.nil_prefix nofun nofun ih

/-- Every line of a body comes from a run. -/
theorem linesOf_readLines (normalize : Bool) (opener : Token) (inner : List Token)
    (closing : Text) :
    LinesOf closing (splitRuns [opener] inner) (readLines normalize opener inner closing) := by
  have hruns := flatMap_splitRuns [opener] inner
  unfold readLines
  dsimp only
  split
  · exact linesOf_map_toLine closing _
  · refine linesOf_wideLines ?_
    intro r hr
    obtain ⟨rs, hsplit⟩ : ∃ rs, splitRuns [opener] inner = r :: rs := List.head?_eq_some_iff.mp hr
    rw [hsplit] at hruns
    rw [← hruns]
    exact List.suffix_refl _

/-- The first of some lines has its site, and the others go on behind it.  What is behind its run
is the next run, or the token behind all of them. -/
theorem LinesOf.exists_site {ts before after : List Token} {next : Token} {r : LineRun}
    {rs : List LineRun} {line : LogicalLine} {lines : List LogicalLine}
    (h : LinesOf next.gap (r :: rs) (line :: lines))
    (hts : ts = before ++ ((r :: rs).flatMap LineRun.tokens ++ next :: after)) :
    LinesOf next.gap rs lines ∧
      ∃ site : LineSite line ts, site.before = before ∧ site.run = r := by
  cases h with
  | cons front behind hfront hbehind hfrontBlank hbehindBlank hlines =>
    refine ⟨hlines, ?_⟩
    have hnext : ∃ following rest, rs.flatMap LineRun.tokens ++ next :: after = following :: rest ∧
        behind <+: following.gap := by
      cases rs with
      | nil => exact ⟨_, _, rfl, hbehind⟩
      | cons s rs => exact ⟨_, _, rfl, hbehind⟩
    obtain ⟨following, rest, hrest, hgap⟩ := hnext
    refine ⟨⟨before, r, following, rest, front, behind, ?_, rfl, hfront, hgap, hfrontBlank,
      hbehindBlank⟩, rfl, rfl⟩
    rw [hts, List.flatMap_cons, List.append_assoc, hrest]

/-- Every line has its site.  There is always a token in front of it, since a body begins with a
brace. -/
theorem LinesOf.exists_site_of_mem {ts before after : List Token} {next : Token}
    {runs : List LineRun} {lines : List LogicalLine} (h : LinesOf next.gap runs lines)
    (hts : ts = before ++ (runs.flatMap LineRun.tokens ++ next :: after)) (hne : before ≠ [])
    {line : LogicalLine} (hline : line ∈ lines) :
    ∃ site : LineSite line ts, site.before ≠ [] := by
  induction lines generalizing before runs with
  | nil => cases hline
  | cons first lines ih =>
    cases runs with
    | nil => cases h
    | cons r rs =>
      obtain ⟨hlines, site, hbefore, -⟩ := h.exists_site hts
      rcases List.mem_cons.mp hline with rfl | hline
      · exact ⟨site, by rwa [hbefore]⟩
      · rw [List.flatMap_cons, List.append_assoc, ← List.append_assoc before] at hts
        exact ih hlines hts (by simp [hne]) hline

/-- The tokens of a declaration among those around it, with its lines behind the brace. -/
theorem exists_lines_of_read (p : Parts) (before after : List Token) :
    ∃ front, front ≠ [] ∧ before ++ (p.unit ++ after) =
      front ++ ((splitRuns [p.brace] p.inner).flatMap LineRun.tokens ++ p.braceClose :: after) := by
  refine ⟨before ++ p.keyword :: (p.signature ++ [p.brace]), by simp, ?_⟩
  rw [flatMap_splitRuns, Parts.unit, Parts.block]
  simp

/-- Every line of a declaration has its site among the tokens of the text. -/
theorem exists_site_of_extract {source : Text} {options : Options} {d : Declaration}
    {line : LogicalLine} (hd : d ∈ (extract source options).declarations) (hline : line ∈ d.lines) :
    ∃ site : LineSite line (lex source).tokens, site.before ≠ [] := by
  obtain ⟨before, after, p, scope, htokens, _, _, hread⟩ := exists_parts_of_extract hd
  rw [hread] at hline
  obtain ⟨front, hne, hfront⟩ := exists_lines_of_read p before after
  exact (linesOf_readLines _ _ _ _).exists_site_of_mem (htokens.trans hfront) hne hline

/-! ### The tokens of a line -/

/-- The tokens between two offsets, where those before end at the first one and those behind begin
at the second one. -/
theorem filter_between {before ts after : List Token} {low high : Nat}
    (hnonempty : ∀ t ∈ before ++ (ts ++ after), t.start < t.stop)
    (hbefore : ∀ t ∈ before, t.stop ≤ low) (hts : ∀ t ∈ ts, low ≤ t.start ∧ t.stop ≤ high)
    (hafter : ∀ t ∈ after, high ≤ t.start) :
    (before ++ (ts ++ after)).filter (fun t => low ≤ t.start && t.stop ≤ high) = ts := by
  have hnone : ∀ us : List Token, (∀ t ∈ us, t.start < low ∨ high < t.stop) →
      us.filter (fun t => low ≤ t.start && t.stop ≤ high) = [] := by
    intro us hus
    refine List.filter_eq_nil_iff.mpr fun t ht => ?_
    have := hus t ht
    simp only [Bool.and_eq_true, decide_eq_true_eq]
    omega
  rw [List.filter_append, List.filter_append, hnone before, hnone after,
    List.filter_eq_self.mpr, List.nil_append, List.append_nil]
  · intro t ht
    simpa using hts t ht
  · intro t ht
    have := hnonempty t (by simp [ht])
    have := hafter t ht
    omega
  · intro t ht
    have := hnonempty t (by simp [ht])
    have := hbefore t ht
    omega

/-- No token ends behind the end of its text. -/
theorem Placed.stop_le {offset : Nat} {ts : List Token} (h : Placed offset ts) :
    ∀ t ∈ ts, t.stop ≤ offset + (Token.sourceOf ts).size := by
  intro t ht
  obtain ⟨before, after, hsource, hstart⟩ := h.exists_split t ht
  have hstop : t.stop = t.start + t.text.size := rfl
  rw [hsource, Text.size_append, Text.size_append]
  omega

/-- The end of a text is no longer than the text, -/
theorem Text.size_le_of_suffix {t u : Text} (h : t <:+ u) : t.size ≤ u.size := by
  obtain ⟨front, rfl⟩ := h
  rw [Text.size_append]
  omega

/-- and neither is its front. -/
theorem Text.size_le_of_prefix {t u : Text} (h : t <+: u) : t.size ≤ u.size := by
  obtain ⟨behind, rfl⟩ := h
  rw [Text.size_append]
  omega

namespace LineSite

variable {line : LogicalLine} {source : Text}

/-- The text of a line that stands among tokens. -/
theorem text_eq {ts : List Token} (site : LineSite line ts) :
    line.text = site.front ++ (site.run.first.text ++
      (Token.sourceOf site.run.others ++ site.behind)) := by
  rw [congrArg LogicalLine.text site.line_eq]
  simp [LineRun.toLine]

/-- A line has as many tokens as its run. -/
theorem tokenCount_eq {ts : List Token} (site : LineSite line ts) :
    site.run.tokens.length = line.tokenCount := by
  rw [congrArg LogicalLine.tokenCount site.line_eq]
  rfl

/-- The tokens of the run stand in the line, behind the blanks in front. -/
theorem placed (site : LineSite line (lex source).tokens) :
    site.run.first.start = line.start + site.front.size ∧
      Placed site.run.first.stop site.run.others := by
  have hplaced := placed_of_lex source
  rw [site.tokens_eq, placed_append_iff, placed_append_iff] at hplaced
  obtain ⟨-, ⟨hfirst, hothers⟩, -⟩ := hplaced
  have hfront := Text.size_le_of_suffix site.front_suffix
  have hstart : line.start = site.run.first.start - site.front.size :=
    congrArg LogicalLine.start site.line_eq
  exact ⟨by omega, hothers⟩

/-- **What lies in the span of a line is its run.**  Every other token ends before the run begins,
or begins behind its end. -/
theorem tokensIn_eq (site : LineSite line (lex source).tokens) :
    line.tokensIn source = site.run.tokens := by
  obtain ⟨hfront, hothers⟩ := site.placed
  have hlast := stop_last hothers
  have hfrontLe := Text.size_le_of_suffix site.front_suffix
  have hbehindLe := Text.size_le_of_prefix site.behind_prefix
  have hstop : line.stop = site.run.last.stop + site.behind.size :=
    congrArg LogicalLine.stop site.line_eq
  have hfirst : site.run.first.stop = site.run.first.start + site.run.first.text.size := rfl
  have hplaced := placed_of_lex source
  have hnonempty := start_lt_stop_of_lex source
  have hsplit := site.tokens_eq
  rw [hsplit] at hplaced hnonempty
  rw [placed_append_iff, placed_append_iff] at hplaced
  obtain ⟨hbefore, ⟨hstart, _⟩, hnext, hafter⟩ := hplaced
  have hnextStop := hnonempty site.next (by simp)
  rw [LineRun.tokens, sourceOf_cons, Text.size_append, Text.size_append] at hnext
  rw [LogicalLine.tokensIn]
  refine Eq.trans (congrArg _ hsplit) (filter_between hnonempty ?_ ?_ ?_)
  · intro t ht
    have := hbefore.stop_le t ht
    omega
  · intro t ht
    rcases List.mem_cons.mp ht with rfl | ht
    · omega
    · have := hothers.le_start t ht
      have := hothers.stop_le t ht
      omega
  · intro t ht
    rcases List.mem_cons.mp ht with rfl | ht
    · omega
    · have := hafter.le_start t ht
      omega

/-- **The tokens of a line are read up to its end as they are read in the text.**  Behind the line
there is only white space that lies in a gap. -/
theorem spells (site : LineSite line (lex source).tokens) (hne : site.before ≠ []) :
    ∃ previous, Spells previous site.run.tokens site.behind := by
  obtain ⟨t, before, hbefore⟩ := List.exists_cons_of_ne_nil hne
  obtain ⟨more, hmore⟩ := site.behind_prefix
  have hsplit := site.tokens_eq
  rw [hbefore, List.cons_append] at hsplit
  obtain ⟨left, -, hspells, -⟩ := spells_behind_of_lex hsplit
  rw [spells_append_iff, spells_append_iff] at hspells
  obtain ⟨-, hrun, -⟩ := hspells
  rw [sourceOf_cons, ← hmore, List.append_assoc, List.append_assoc] at hrun
  exact ⟨_, hrun.shorten⟩

end LineSite

/-- The token some bytes further on, on whatever line. -/
def Token.shifted (base : Nat) (t : Token) : Token := { t with place := ⟨base + t.place.offset, 0⟩ }

/-- Tokens that are the same but for their places stand in the same way from different offsets.
The induction carries the offset along both lists. -/
theorem Placed.map_shifted {base offset : Nat} {ts us : List Token} (hts : Placed offset ts)
    (hus : Placed (base + offset) us) (hsame : SameTokens ts us) :
    ts.map (Token.shifted base) = us.map (Token.shifted 0) := by
  induction ts generalizing offset us with
  | nil =>
    obtain rfl : us = [] := by simpa [SameTokens, eq_comm] using hsame
    rfl
  | cons t ts ih =>
    cases us with
    | nil => cases hsame
    | cons u us =>
      obtain ⟨hhead, htail⟩ := List.cons.inj hsame
      obtain ⟨hkind, hgap, htext⟩ := bare_eq_iff.mp hhead
      obtain ⟨hstart, hbehind⟩ := hts
      obtain ⟨hstart', hbehind'⟩ := hus
      have hstop : t.stop = t.start + t.text.size := rfl
      have hstop' : u.stop = u.start + u.text.size := rfl
      rw [hgap] at hstart
      rw [htext] at hstop
      have hmoved : u.start = base + t.start := by omega
      rw [show u.stop = base + t.stop by omega] at hbehind'
      refine List.cons_eq_cons.mpr ⟨?_, ih hbehind hbehind' htail⟩
      have hplace : base + t.place.offset = 0 + u.place.offset := by
        rw [Nat.zero_add]
        exact hmoved.symm
      simp only [Token.shifted, hkind, hgap, htext, hplace]

/-- Tokens of a text that stands in another one stand there by the offset of the text. -/
theorem Placed.moved {base offset : Nat} {ts us : List Token} (hts : Placed offset ts)
    (hus : Placed (base + offset) us) (hsame : SameTokens ts us) :
    ts.map (fun t => (t.word, base + t.start, base + t.stop)) =
      us.map fun t => (t.word, t.start, t.stop) := by
  have hmap := congrArg (List.map fun t : Token => (t.word, t.start, t.stop))
    (hts.map_shifted hus hsame)
  simpa [Function.comp_def, Token.shifted, Token.word, Token.start, Token.stop, Nat.add_assoc]
    using hmap

/-! ### Lexing a line -/

/-- Where nothing stands in front, a slash does not divide. -/
theorem reads_without_previous {previous : Option Token} {kind : TokenKind} {text tail : Text}
    (h : Reads previous kind text tail) (hdividing : ¬(kind = .punct ∧ text.head? = some '/')) :
    Reads none kind text tail := by
  refine h.behind fun hslash => ?_
  cases text with
  | nil => cases hslash
  | cons c body =>
    cases hslash
    obtain ⟨_, hkind, _⟩ := reads_cons_iff.mp h
    rw [kindAt_slash] at hkind
    split at hkind
    · assumption
    · exact absurd ⟨hkind.symm, rfl⟩ hdividing

/-- Where nothing stands before it, a slash begins a regular expression and is no punctuator. -/
theorem not_dividing_of_reads {kind : TokenKind} {text tail : Text}
    (h : Reads none kind text tail) : ¬(kind = .punct ∧ text.head? = some '/') := by
  rintro ⟨rfl, hslash⟩
  cases text with
  | nil => cases hslash
  | cons c body =>
    cases hslash
    obtain ⟨_, hkind, _⟩ := reads_cons_iff.mp h
    rw [kindAt_slash] at hkind
    cases hkind

theorem hashBang_eq_nil {source : Text} (h : ¬['#', '!'].isPrefixOf source) : hashBang source = [] :=
  if_neg h

/-- A first line with `#!` is not empty. -/
theorem hashBang_ne_nil {source : Text} (h : ['#', '!'].isPrefixOf source) : hashBang source ≠ [] := by
  obtain ⟨rest, rfl⟩ := List.isPrefixOf_iff_prefix.mp h
  rw [hashBang, if_pos h]
  simp

namespace LineSite

variable {line : LogicalLine} {source : Text}

/-- **Lexing a line again.**  Unless it begins with a slash that divides or with `#!`, a line that
is lexed alone gives its tokens. -/
theorem lexedAlike (site : LineSite line (lex source).tokens) (hne : site.before ≠ [])
    (hdividing : ¬line.BeginsDividing source) (hbang : ¬line.BeginsHashBang) :
    line.LexedAlike source := by
  obtain ⟨previous, -, hreads, hspells⟩ := site.spells hne
  rw [LogicalLine.BeginsDividing, site.tokensIn_eq] at hdividing
  have hfirst : ¬(site.run.first.kind = .punct ∧ site.run.first.text.head? = some '/') := by
    simpa [LineRun.tokens] using hdividing
  -- The tokens of the line: the first one keeps only the blanks that the line takes.
  let us : List Token := { site.run.first with gap := site.front } :: site.run.others
  have hus : Spells none us site.behind :=
    ⟨isGap_iff_trivia.mpr (trivia_of_indent site.front_blank), reads_without_previous hreads hfirst,
      hspells.behind (slashBeginsRegex_congr rfl rfl)⟩
  have hnil : hashBang line.text = [] := hashBang_eq_nil hbang
  have htext : line.text = hashBang line.text ++ (Token.sourceOf us ++ site.behind) := by
    rw [hnil, List.nil_append, site.text_eq]
    simp [us]
  obtain ⟨vs, hvs, hsame⟩ := tokenize_of_spells htext hus
    (isClosing_iff_trivia.mpr (trivia_of_indent site.behind_blank))
  rw [hnil, prependGap_nil] at hvs
  have hplaced : Placed (line.start + 0) us := site.placed
  refine ⟨vs, hvs, ?_, ?_⟩
  · rw [← site.tokenCount_eq, ← List.length_map Token.bare, hsame, List.length_map]
    rfl
  · rw [(placed_of_tokenize hvs).moved hplaced hsame, site.tokensIn_eq]
    rfl

/-- A line that begins with a slash that divides, or with `#!`, is lexed otherwise.  Lexed alone, a
slash in front begins a regular expression or a comment, and `#!` takes the whole line. -/
theorem not_lexedAlike (site : LineSite line (lex source).tokens)
    (h : line.BeginsDividing source ∨ line.BeginsHashBang) : ¬line.LexedAlike source := by
  rintro ⟨ts, hts, -, hmap⟩
  rw [site.tokensIn_eq, LineRun.tokens, List.map_cons, List.map_eq_cons_iff] at hmap
  obtain ⟨t, ts, rfl, hfirst, -⟩ := hmap
  obtain ⟨hword, hstart, -⟩ : t.word = site.run.first.word ∧ line.start + t.start = _ ∧ _ := by
    simpa using hfirst
  obtain ⟨hkind, htext⟩ := word_eq_iff.mp hword
  obtain ⟨us, closing, hprepend, -, hspells, -, hplaced⟩ := spells_of_tokenize hts
  obtain ⟨u, us, rfl⟩ : ∃ u us', us = u :: us' := by
    cases us with
    | nil => cases hprepend
    | cons u us => exact ⟨u, us, rfl⟩
  cases hprepend
  rcases h with h | hbang
  · rw [LogicalLine.BeginsDividing, site.tokensIn_eq] at h
    have hdividing : site.run.first.kind = .punct ∧ site.run.first.text.head? = some '/' := by
      simpa [LineRun.tokens] using h
    rw [← hkind, ← htext] at hdividing
    exact not_dividing_of_reads hspells.2.1 hdividing
  · have hfront : site.front = [] := by
      rw [LogicalLine.BeginsHashBang, site.text_eq] at hbang
      exact front_eq_nil_of_hashBang site.front_blank hbang
    have hplace := site.placed.1
    have hpos := Text.size_pos (hashBang_ne_nil hbang)
    have hbehind := hplaced.1
    have hsame : ∀ v : Token, Token.start { v with gap := hashBang line.text ++ v.gap } = v.start :=
      fun _ => rfl
    rw [hsame] at hstart
    rw [hfront, Text.size_nil] at hplace
    omega

end LineSite

/-! ### Every line of every declaration -/

/-- **Lines are lexed alike unless they begin with a slash that divides or with `#!`.**  A line
of a declaration holds as many tokens of the text as it counts.  Lexed alone, it gives these
tokens, at their places in the line, if and only if the first of them is no punctuator with a
slash in front and the line does not begin with `#!`. -/
theorem lexedAlike_iff (source : Text) (options : Options) :
    ∀ d ∈ (extract source options).declarations, ∀ line ∈ d.lines,
      (line.tokensIn source).length = line.tokenCount ∧
        (line.LexedAlike source ↔ ¬line.BeginsDividing source ∧ ¬line.BeginsHashBang) := by
  intro d hd line hline
  obtain ⟨site, hne⟩ := exists_site_of_extract hd hline
  refine ⟨?_, fun halike => ⟨fun h => ?_, fun h => ?_⟩, fun h => site.lexedAlike hne h.1 h.2⟩
  · rw [site.tokensIn_eq, site.tokenCount_eq]
  · exact site.not_lexedAlike (.inl h) halike
  · exact site.not_lexedAlike (.inr h) halike

/-- Three lines: only the first one is lexed alone as it is lexed in the text.  The second one
begins with a slash that divides in the text, and the third one with `#!`. -/
theorem lexedAlike_of_three_lines :
    ∃ d ∈ (extract "function f(a, b)\x7breturn a\n/ b\n#!c\x7d".toList {}).declarations,
      ∃ first ∈ d.lines, ∃ second ∈ d.lines, ∃ third ∈ d.lines,
        first.LexedAlike "function f(a, b)\x7breturn a\n/ b\n#!c\x7d".toList ∧
        ¬second.LexedAlike "function f(a, b)\x7breturn a\n/ b\n#!c\x7d".toList ∧
        ¬third.LexedAlike "function f(a, b)\x7breturn a\n/ b\n#!c\x7d".toList := by
  have hbegin : ∃ d ∈ (extract "function f(a, b)\x7breturn a\n/ b\n#!c\x7d".toList {}).declarations,
      ∃ first ∈ d.lines, ∃ second ∈ d.lines, ∃ third ∈ d.lines,
        (¬first.BeginsDividing "function f(a, b)\x7breturn a\n/ b\n#!c\x7d".toList ∧
          ¬first.BeginsHashBang) ∧
        second.BeginsDividing "function f(a, b)\x7breturn a\n/ b\n#!c\x7d".toList ∧
        third.BeginsHashBang := by
    decide +kernel
  obtain ⟨d, hd, first, hfirst, second, hsecond, third, hthird, hplain, hslash, hbang⟩ := hbegin
  refine ⟨d, hd, first, hfirst, second, hsecond, third, hthird, ?_, ?_, ?_⟩
  · exact (lexedAlike_iff _ {} d hd first hfirst).2.mpr hplain
  · exact fun halike => ((lexedAlike_iff _ {} d hd second hsecond).2.mp halike).1 hslash
  · exact fun halike => ((lexedAlike_iff _ {} d hd third hthird).2.mp halike).2 hbang

/-- **Quotients on two lines.**  The second line of each body begins with the slash.  Alone, it is
read as a regular expression and a number: its `this` is not seen. -/
theorem quotients_are_not_lexed_alike :
    ¬∀ d ∈ (extract ("function f(a)\x7breturn a\n/ this.x / 2\x7d\n" ++
        "function g(a)\x7breturn a\n/ this.x / 2\x7d").toList {}).declarations,
      ∀ line ∈ d.lines, line.LexedAlike ("function f(a)\x7breturn a\n/ this.x / 2\x7d\n" ++
        "function g(a)\x7breturn a\n/ this.x / 2\x7d").toList := by
  intro hall
  have htwo : ∃ d ∈ (extract ("function f(a)\x7breturn a\n/ this.x / 2\x7d\n" ++
        "function g(a)\x7breturn a\n/ this.x / 2\x7d").toList {}).declarations,
      ∃ line ∈ d.lines, line.tokenCount = 6 ∧
        (tokenize line.text).toOption.map List.length = some 2 := by
    decide +kernel
  obtain ⟨d, hd, line, hline, hsix, htwo⟩ := htwo
  obtain ⟨ts, hts, hlength, -⟩ := hall d hd line hline
  rw [hts] at htwo
  have hcount : ts.length = 2 := Option.some_inj.mp htwo
  omega

end Twinfold
