import Twinfold.Proofs.Declaration.LinesAlone
import Twinfold.Proofs.Text.Splice

/-!
# Declarations and lines in order

Extraction tells of every declaration where it begins and ends, where its body begins, and where its
lines stand.  These offsets fit the text and each other (`Declaration.Recorded`): what is said to
stand somewhere stands there, and the lines are between the braces, one behind the other.  The
declarations are numbered in their order, and each of them ends in front of the next one
(`extract_in_order`).  All this holds in a region too, and of the declarations in front of an error.
-/

namespace Twinfold

/-! ### Where tokens stand -/

section

variable {source : Text} {before ts after : List Token} {t u : Token}

theorem standsAt_token (h : t ∈ (lex source).tokens) : StandsAt source t.start t.stop t.text :=
  exists_split_of_lex h

/-- What stands between two tokens.  It is made of the tokens between them with their gaps, and of
the gap of the second one. -/
theorem standsAt_between (h : (lex source).tokens = before ++ t :: (ts ++ u :: after)) :
    StandsAt source t.stop u.start (Token.sourceOf ts ++ u.gap) := by
  obtain ⟨left, hsource⟩ := exists_left_of_lex source
  have hplaced := placed_of_lex source
  rw [h] at hsource
  rw [h, placed_append_iff] at hplaced
  obtain ⟨-, hstart, hbehind⟩ := hplaced
  rw [placed_append_iff] at hbehind
  have hstart' := hbehind.2.1
  have hstop : t.stop = t.start + t.text.size := rfl
  refine ⟨Token.sourceOf before ++ t.source, u.text ++ (Token.sourceOf after ++ left), ?_, ?_, ?_⟩
  · exact hsource.trans (by simp [Token.source])
  · simp only [Token.source, Text.size_append]
    omega
  · simp only [Token.source, Text.size_append]
    omega

/-- The text from a token up to another one behind it. -/
theorem standsAt_upTo (h : (lex source).tokens = before ++ t :: (ts ++ u :: after)) :
    StandsAt source t.start u.start (t.text ++ (Token.sourceOf ts ++ u.gap)) :=
  (standsAt_token (by simp [h])).append (standsAt_between h)

/-- The text from a token to the end of another one behind it. -/
theorem standsAt_through (h : (lex source).tokens = before ++ t :: (ts ++ u :: after)) :
    StandsAt source t.start u.stop (t.text ++ Token.sourceOf (ts ++ [u])) := by
  have happend := (standsAt_upTo h).append (standsAt_token (by simp [h]))
  convert happend using 1
  simp

end

/-! ### One declaration -/

/-- The offsets of a declaration fit its text and each other. -/
structure Declaration.Recorded (d : Declaration) (source : Text) : Prop where
  start_lt : d.start < d.bodyStart
  bodyStart_lt : d.bodyStart < d.stop
  stop_le : d.stop ≤ source.size
  header : StandsAt source d.start d.bodyStart d.header
  body : StandsAt source d.bodyStart d.stop d.body
  opening : StandsAt source d.bodyStart (d.bodyStart + 1) ['\x7b']
  closing : StandsAt source (d.stop - 1) d.stop ['\x7d']
  lines : ∀ line ∈ d.lines, StandsAt source line.start line.stop line.text
  nonempty : ∀ line ∈ d.lines, line.start < line.stop
  enclosed : ∀ line ∈ d.lines, d.bodyStart + 1 ≤ line.start ∧ line.stop ≤ d.stop - 1
  ascending : d.lines.Pairwise fun line other => line.stop ≤ other.start

/-- A line of a declaration is not empty. -/
theorem text_ne_nil_of_extract {source : Text} {options : Options} {d : Declaration}
    (hd : d ∈ (extract source options).declarations) {line : LogicalLine} (hline : line ∈ d.lines) :
    line.text ≠ [] := by
  obtain ⟨site, -⟩ := exists_site_of_extract hd hline
  have hfirst : site.run.first ∈ line.tokensIn source := by
    rw [site.tokensIn_eq]
    exact List.mem_cons_self
  have hpos := start_lt_stop_of_lex source _ (List.mem_of_mem_filter hfirst)
  intro hnil
  have htext := site.text_eq
  rw [hnil] at htext
  obtain ⟨-, hnone, -⟩ : _ ∧ site.run.first.text = [] ∧ _ := by simpa using htext
  rw [Token.stop, hnone] at hpos
  exact Nat.lt_irrefl _ hpos

section

variable {source : Text} {p : Parts} {before after : List Token}

/-- The lines of a body stand between its braces, one behind the other. -/
theorem Parts.linesIn_inside
    (h : (lex source).tokens = before ++ p.brace :: (p.inner ++ p.braceClose :: after))
    (normalize : Bool) (index : Nat) (scope : Option Nat) :
    LinesIn p.brace.stop (Token.sourceOf p.inner ++ p.braceClose.gap)
      (p.read normalize index scope).lines := by
  have hplaced := placed_of_lex source
  rw [h, placed_append_iff] at hplaced
  obtain ⟨-, -, hinside⟩ := hplaced
  exact linesIn_readLines _ (placed_append_iff.mp hinside).1

/-- A line stands in the text, between the braces. -/
theorem Parts.line_inside
    (h : (lex source).tokens = before ++ p.brace :: (p.inner ++ p.braceClose :: after))
    {normalize : Bool} {index : Nat} {scope : Option Nat} {line : LogicalLine}
    (hline : line ∈ (p.read normalize index scope).lines) :
    StandsAt source line.start line.stop line.text ∧ p.brace.stop ≤ line.start ∧
      line.stop ≤ p.braceClose.start := by
  have hinside := standsAt_between h
  have hsize := hinside.stop_eq
  obtain ⟨left, right, htext, hstart, hstop⟩ :=
    (Parts.linesIn_inside h normalize index scope).exists_split line hline
  rw [htext] at hinside
  rw [htext, Text.size_append, Text.size_append] at hsize
  exact ⟨hinside.within hstart hstop, by omega, by omega⟩

/-- A punctuator stands where it is said to be. -/
theorem standsAt_punct {t : Token} {text : String} (h : t ∈ (lex source).tokens)
    (ht : t.punctIs text = true) : StandsAt source t.start t.stop text.toList := by
  have hstands := standsAt_token h
  rwa [text_of_punctIs ht] at hstands

end

/-- **A declaration stands in the text as it is recorded**, and so do its lines.  Its parts are
neighbouring tokens of the text, so what is recorded of it are bounds of tokens; each line is a run
of the inner ones with blanks of the gaps around it. -/
theorem recorded_of_extract {source : Text} {options : Options} {d : Declaration}
    (hd : d ∈ (extract source options).declarations) : d.Recorded source := by
  obtain ⟨before, after, p, scope, htokens, hfound, hasync, hread⟩ :=
    exists_parts_of_extract hd
  obtain ⟨_, hformed⟩ := hfound.wellFormed
  obtain ⟨front, hfront⟩ := Parts.exists_front hasync after
  rw [hfront] at htokens
  have hblock : (lex source).tokens =
      (front ++ p.first :: p.behindFirst) ++ p.brace :: (p.inner ++ p.braceClose :: after) := by
    rw [htokens]
    simp
  have hbrace : StandsAt source p.brace.start p.brace.stop ['\x7b'] :=
    standsAt_punct (by simp [htokens]) hformed.brace
  have hclose : StandsAt source p.braceClose.start p.braceClose.stop ['\x7d'] :=
    standsAt_punct (by simp [htokens]) hformed.braceClose
  have hopened : p.brace.stop = p.brace.start + 1 := hbrace.stop_eq
  have hclosed : p.braceClose.stop = p.braceClose.start + 1 := hclose.stop_eq
  have hheader := standsAt_upTo htokens
  have hinside := (standsAt_between hblock).stop_eq
  have hat : ∀ line ∈ d.lines, StandsAt source line.start line.stop line.text ∧
      p.brace.stop ≤ line.start ∧ line.stop ≤ p.braceClose.start := by
    intro line hline
    rw [hread] at hline
    exact Parts.line_inside hblock hline
  have hstart : d.start = p.first.start := by rw [hread]; rfl
  have hbody : d.bodyStart = p.brace.start := by rw [hread]; rfl
  have hstop : d.stop = p.braceClose.stop := by rw [hread]; rfl
  have hfirst := start_lt_stop_of_lex source p.first (by simp [htokens])
  have hheaderSize := hheader.stop_eq
  have hfirstStop : p.first.stop = p.first.start + p.first.text.size := rfl
  rw [Text.size_append] at hheaderSize
  exact {
    start_lt := by omega
    bodyStart_lt := by omega
    stop_le := hstop ▸ hclose.stop_le
    header := by
      rw [hstart, hbody, hread]
      convert hheader using 1
      simp [Parts.read, Parts.behindFirst]
    body := by
      rw [hbody, hstop, hread]
      exact standsAt_through hblock
    opening := by
      rw [hbody, ← hopened]
      exact hbrace
    closing := by
      rw [hstop, show p.braceClose.stop - 1 = p.braceClose.start by omega]
      exact hclose
    lines := fun line hline => (hat line hline).1
    nonempty := fun line hline => by
      have hpos := Text.size_pos (text_ne_nil_of_extract hd hline)
      have := (hat line hline).1.stop_eq
      omega
    enclosed := fun line hline => by
      obtain ⟨-, hlow, hhigh⟩ := hat line hline
      omega
    ascending := by
      rw [hread]
      exact (Parts.linesIn_inside hblock _ d.index scope).pairwise }

/-! ### All declarations -/

namespace Extractor

/-- Declarations are numbered in their order. -/
theorem map_index_run (x : Extractor) : x.run.declarations.map Declaration.index =
    List.range' x.index x.run.declarations.length := by
  induction x using run.induct with
  | case1 x d after hnext ih =>
    obtain ⟨skipped, p, scope, hreads, rfl⟩ := exists_reads_of_next hnext
    rw [run_of_declaration hnext, List.map_cons, ih, List.length_cons, List.range'_succ,
      hreads.index_eq]
    rfl
  | case2 x e hnext => rw [run_of_failed hnext]; rfl
  | case3 x hnext => rw [run_of_finished hnext]; rfl

/-- The next declaration begins with a token behind the one before.  The one before ends with its
brace, and `async` is looked for behind it. -/
theorem Reads.exists_first {x after : Extractor} {skipped : List Token} {p : Parts}
    (h : x.Reads skipped p after) {d : Declaration} (hd : d ∈ after.run.declarations) :
    ∃ t ∈ after.tokens, d.start = t.start := by
  obtain ⟨_, hformed⟩ := h.found.wellFormed
  obtain ⟨before, behind, q, scope, htokens, hfound, hasync, -, hread⟩ := exists_parts_of_mem_run _ hd
  have hstart : d.start = q.first.start := by rw [hread]; rfl
  refine ⟨q.first, ?_, hstart⟩
  rw [htokens, Parts.first]
  cases hq : q.async with
  | none => simp [Parts.unit]
  | some t =>
    -- The brace that closes the declaration before is no `async`.
    have hword := hfound.async t hq
    have hlast := List.mem_of_getLast? (hasync t hq)
    rw [h.previous_eq] at hlast
    rcases List.mem_cons.mp hlast with rfl | hmem
    · rw [identIs_of_punctIs hformed.braceClose] at hword
      cases hword
    · exact List.mem_append_left _ hmem

/-- **Each declaration ends in front of the next one.**  A declaration in the body of another one
is not extracted, so that none lies in another. -/
theorem pairwise_run (x : Extractor) (h : x.tokens.Pairwise fun t u => t.stop ≤ u.start) :
    x.run.declarations.Pairwise fun d e => d.stop ≤ e.start := by
  induction x using run.induct with
  | case1 x d after hnext ih =>
    obtain ⟨skipped, p, scope, hreads, rfl⟩ := exists_reads_of_next hnext
    rw [hreads.tokens_eq, List.pairwise_append, List.pairwise_append] at h
    obtain ⟨-, ⟨-, hafter, hunit⟩, -⟩ := h
    rw [run_of_declaration hnext]
    refine .cons (fun e he => ?_) (ih hafter)
    obtain ⟨t, ht, hstart⟩ := hreads.exists_first he
    rw [hstart]
    exact hunit p.braceClose (by simp [Parts.unit, Parts.block]) t ht
  | case2 x e hnext =>
    rw [run_of_failed hnext]
    exact .nil
  | case3 x hnext =>
    rw [run_of_finished hnext]
    exact .nil

/-- The first declaration has the number zero. -/
theorem index_start (source : Text) (options : Options) : (start source options).index = 0 := by
  unfold start
  dsimp only
  split <;> rfl

end Extractor

/-- **Declarations come in order.**  What is extracted of a text, up to its end or to the first
error, is numbered from zero on; every declaration and every line stands where it is recorded, and
each declaration ends in front of the next one. -/
theorem extract_in_order (source : Text) (options : Options) :
    (extract source options).declarations.map Declaration.index =
        List.range (extract source options).declarations.length ∧
      (∀ d ∈ (extract source options).declarations, d.Recorded source) ∧
      (extract source options).declarations.Pairwise fun d e => d.stop ≤ e.start := by
  refine ⟨?_, fun d hd => recorded_of_extract hd, Extractor.pairwise_run _ ?_⟩
  · rw [extract, Extractor.map_index_run, Extractor.index_start, List.range_eq_range']
  · rcases Extractor.tokens_start source options with hnone | hall
    · rw [hnone]
      exact .nil
    · rw [hall]
      exact (placed_of_lex source).pairwise

end Twinfold
