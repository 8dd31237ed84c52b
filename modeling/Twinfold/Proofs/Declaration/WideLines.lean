import Twinfold.Proofs.Declaration.LinesAlone
import Twinfold.Proofs.Token.Endings

/-!
# Lines with the blanks around them

A run of extraction takes the same steps whether or not lines are read with the blanks around them,
and every declaration that it yields is read from the same tokens (`Extractor.run_reading`).  So it
is the same declaration but for its lines.

The lines come from the same runs of tokens.  The wide one has spaces and tabs around the text of
its run, which itself begins and ends with tokens and therefore without a space (`LineRun.tight`).
So the narrow line can be told from the wide one: it is what is left when the spaces and tabs at
both ends are stripped off (`LogicalLine.Widened.strip_text`).
-/

namespace Twinfold

/-! ### Texts without blanks around them -/

namespace Text

/-- There is a text, and neither a space nor a tab stands at its ends. -/
structure Tight (t : Text) : Prop where
  ne_nil : t ≠ []
  head : ∀ c ∈ t.head?, isIndent c = false
  last : ∀ c ∈ t.getLast?, isIndent c = false

/-- The text without the spaces and tabs around it. -/
def strip (t : Text) : Text := ((t.dropWhile isIndent).reverse.dropWhile isIndent).reverse

/-- What is between two tight texts need not be tight: the whole neither begins nor ends with white
space. -/
theorem Tight.append {t u : Text} (ht : t.Tight) (hu : u.Tight) (between : Text) :
    Tight (t ++ (between ++ u)) where
  ne_nil := List.append_ne_nil_of_left_ne_nil ht.ne_nil _
  head := by
    rw [List.head?_append_of_ne_nil _ ht.ne_nil]
    exact ht.head
  last := by
    rw [← List.append_assoc, List.getLast?_append_of_ne_nil _ hu.ne_nil]
    exact hu.last

/-- Blanks in front of something else are dropped, all of them and nothing more. -/
theorem dropWhile_indent_append {blank t : Text} (hblank : ∀ c ∈ blank, isIndent c = true)
    (ht : ∀ c ∈ t.head?, isIndent c = false) : (blank ++ t).dropWhile isIndent = t := by
  rw [List.dropWhile_append_of_pos hblank]
  cases t with
  | nil => rfl
  | cons c t => exact List.dropWhile_cons_of_neg (by simpa using ht)

/-- **Stripping gives a text back.**  A tight text begins and ends with something else than the
blanks around it. -/
theorem strip_append {front t behind : Text} (ht : t.Tight)
    (hfront : ∀ c ∈ front, isIndent c = true) (hbehind : ∀ c ∈ behind, isIndent c = true) :
    strip (front ++ (t ++ behind)) = t := by
  have hhead : ∀ c ∈ (t ++ behind).head?, isIndent c = false := by
    rw [List.head?_append_of_ne_nil _ ht.ne_nil]
    exact ht.head
  have hlast : ∀ c ∈ t.reverse.head?, isIndent c = false := by
    rw [List.head?_reverse]
    exact ht.last
  have hreverse : ∀ c ∈ behind.reverse, isIndent c = true := by simpa using hbehind
  rw [strip, dropWhile_indent_append hfront hhead, List.reverse_append,
    dropWhile_indent_append hreverse hlast, List.reverse_reverse]

end Text

/-- Spaces and tabs are spaces. -/
theorem isAsciiSpace_of_isIndent {c : Char} (h : isIndent c = true) : isAsciiSpace c = true := by
  simp only [isIndent, Bool.or_eq_true, decide_eq_true_eq] at h
  obtain rfl | rfl := h <;> rfl

/-- The tokens of a text have no blanks around them. -/
theorem tight_of_lex (source : Text) : ∀ t ∈ (lex source).tokens, t.text.Tight := by
  intro t ht
  obtain ⟨previous, tail, hreads⟩ := exists_reads_of_lex source t ht
  obtain ⟨hhead, hlast⟩ := isAsciiSpace_of_reads hreads
  have hindent : ∀ {c : Char}, isAsciiSpace c = false → isIndent c = false := by
    intro c hc
    by_contra hblank
    rw [Bool.not_eq_false] at hblank
    rw [isAsciiSpace_of_isIndent hblank] at hc
    cases hc
  exact ⟨hreads.ne_nil, fun c hc => hindent (hhead c hc), fun c hc => hindent (hlast c hc)⟩

/-! ### Wide lines -/

/-- The line with some text in front of it and behind it. -/
def LogicalLine.widen (front behind : Text) (line : LogicalLine) : LogicalLine where
  text := front ++ (line.text ++ behind)
  start := line.start - front.size
  stop := line.stop + behind.size
  tokenCount := line.tokenCount

/-- The second line is the first one, which has no blanks at its ends, with spaces and tabs around
it. -/
inductive LogicalLine.Widened : LogicalLine → LogicalLine → Prop
  | blanks {line : LogicalLine} {front behind : Text} (hline : line.text.Tight)
      (hfront : ∀ c ∈ front, isIndent c = true) (hbehind : ∀ c ∈ behind, isIndent c = true) :
      Widened line (line.widen front behind)

/-- **The narrow line is told from the wide one.**  No blank of its own is lost, since a line
begins and ends with a token. -/
theorem LogicalLine.Widened.strip_text {line wide : LogicalLine} (h : line.Widened wide) :
    wide.text.strip = line.text := by
  cases h with
  | blanks hline hfront hbehind => exact Text.strip_append hline hfront hbehind

/-- A run whose tokens have no blanks around them has none. -/
theorem LineRun.tight {r : LineRun} (h : ∀ t ∈ r.tokens, t.text.Tight) :
    (r.toLine [] []).text.Tight := by
  obtain ⟨first, others⟩ := r
  obtain ⟨hfirst, hothers⟩ := List.forall_mem_cons.mp h
  have htext : (LineRun.toLine [] [] ⟨first, others⟩).text =
      first.text ++ Token.sourceOf others := by
    simp [toLine]
  rw [htext]
  obtain rfl | ⟨more, last, rfl⟩ := List.eq_nil_or_concat others
  · simpa using hfirst
  · have hlast := hothers last (by simp)
    rw [List.concat_eq_append, sourceOf_append, sourceOf_cons, sourceOf_nil, List.append_nil,
      ← List.append_assoc (Token.sourceOf more)]
    exact hfirst.append hlast _

/-- A line with blanks around it, against the line without them. -/
theorem LineRun.widened {r : LineRun} (h : ∀ t ∈ r.tokens, t.text.Tight) {front behind : Text}
    (hfront : ∀ c ∈ front, isIndent c = true) (hbehind : ∀ c ∈ behind, isIndent c = true) :
    (r.toLine [] []).Widened (r.toLine front behind) := by
  have hwide : r.toLine front behind = (r.toLine [] []).widen front behind := by
    simp [toLine, LogicalLine.widen]
  rw [hwide]
  exact .blanks (tight h) hfront hbehind

/-- Lines of runs, with the blanks around them, against the lines without them. -/
theorem LinesOf.widened {closing : Text} {runs : List LineRun} {lines : List LogicalLine}
    (h : LinesOf closing runs lines) (htight : ∀ t ∈ runs.flatMap LineRun.tokens, t.text.Tight) :
    List.Forall₂ LogicalLine.Widened (runs.map (LineRun.toLine [] [])) lines := by
  induction h with
  | nil => exact .nil
  | cons front behind _ _ hfront hbehind _ ih =>
    rw [List.flatMap_cons, List.forall_mem_append] at htight
    exact .cons (LineRun.widened htight.1 hfront hbehind) (ih htight.2)

/-! ### Wide declarations -/

/-- The second declaration is the first one, but for the blanks around its lines. -/
structure Declaration.Widened (d wide : Declaration) : Prop where
  eq_with : wide = { d with lines := wide.lines }
  lines : List.Forall₂ LogicalLine.Widened d.lines wide.lines

/-- **The same parts read in two ways.**  Only the texts of the lines and where they begin and end
differ. -/
theorem Parts.widened {p : Parts} (h : ∀ t ∈ p.inner, t.text.Tight) (index : Nat)
    (scope : Option Nat) : (p.read true index scope).Widened (p.read false index scope) where
  eq_with := rfl
  lines := by
    have hlines := linesOf_readLines false p.brace p.inner p.braceClose.gap
    apply hlines.widened
    rwa [flatMap_splitRuns]

namespace Extractor

/-- The extractor does not fail in one way of reading only.  Lines are only put together from a
declaration that has been read. -/
theorem next_reading_of_failed {x : Extractor} {e : ParseError} (h : x.next = .failed e)
    (normalize : Bool) : (x.reading normalize).next = .failed e := by
  rw [next_reading]
  unfold next at h
  cases hseek : x.seek x.tokens with
  | finished =>
    rw [hseek] at h
    cases h
  | failed e' =>
    rw [hseek] at h
    exact h
  | lead begins y =>
    rw [hseek] at h
    dsimp only at h ⊢
    cases hread : readDeclaration y.normalize y.failure y.index y.scope begins y.tokens with
    | error e' =>
      rw [hread] at h
      rw [readDeclaration_of_error hread]
      exact h
    | ok r =>
      rw [hread] at h
      cases h

/-- A walk that has come to the end has done so in either way of reading lines. -/
theorem next_reading_of_finished {x : Extractor} (h : x.next = .finished) (normalize : Bool) :
    (x.reading normalize).next = .finished := by
  rw [next_reading]
  unfold next at h
  cases hseek : x.seek x.tokens with
  | finished => rfl
  | failed e =>
    rw [hseek] at h
    cases h
  | lead begins y =>
    rw [hseek] at h
    dsimp only at h
    split at h <;> cases h

/-- **A run reads the same declarations in either way**, and it fails in the same way.  By
induction on the run; each step reads the same parts, and goes on from the same place. -/
theorem run_reading (normalize : Bool) (x : Extractor) :
    (x.reading normalize).run.failure = x.run.failure ∧
      List.Forall₂ (fun d d' => ∃ (p : Parts) (index : Nat) (scope : Option Nat),
        p.unit ⊆ x.tokens ∧ d = p.read x.normalize index scope ∧ d' = p.read normalize index scope)
        x.run.declarations (x.reading normalize).run.declarations := by
  induction x using run.induct with
  | case1 x d after hnext ih =>
    obtain ⟨skipped, p, scope, hreads, hreading⟩ := exists_next_reading hnext
    obtain ⟨hd, -⟩ := ExtractorStep.declaration.inj (hnext.symm.trans (hreading x.normalize))
    rw [run_of_declaration hnext, run_of_declaration (hreading normalize)]
    refine ⟨ih.1, .cons ⟨p, x.index, scope, ?_, hd, rfl⟩ (ih.2.imp ?_)⟩
    · rw [hreads.tokens_eq]
      simp
    · intro e e' h
      obtain ⟨q, index, scope', hq, he, he'⟩ := h
      have hsub : after.tokens ⊆ x.tokens := by
        rw [hreads.tokens_eq]
        simp
      exact ⟨q, index, scope', List.Subset.trans hq hsub, hreads.normalize_eq ▸ he, he'⟩
  | case2 x e hnext =>
    rw [run_of_failed hnext, run_of_failed (next_reading_of_failed hnext normalize)]
    exact ⟨rfl, .nil⟩
  | case3 x hnext =>
    rw [run_of_finished hnext, run_of_finished (next_reading_of_finished hnext normalize)]
    exact ⟨rfl, .nil⟩

end Extractor

/-- The options with or without white space normalised. -/
def Options.normalizing (normalize : Bool) (options : Options) : Options :=
  { options with rules := { options.rules with normalizeWhitespace := normalize } }

/-- Asking for the other way of reading lines changes nothing else at the beginning of a walk. -/
theorem start_normalizing (source : Text) (options : Options) (normalize : Bool) :
    Extractor.start source (options.normalizing normalize) =
      (Extractor.start source options).reading normalize := by
  unfold Extractor.start
  dsimp only [Options.normalizing]
  split <;> rfl

/-- **Extraction in two ways.**  With white space normalised or not, the same declarations are found
but for the blanks around their lines, and the same failure. -/
theorem extract_widened (source : Text) (options : Options) :
    (extract source (options.normalizing true)).failure =
        (extract source (options.normalizing false)).failure ∧
      List.Forall₂ Declaration.Widened (extract source (options.normalizing true)).declarations
        (extract source (options.normalizing false)).declarations := by
  obtain ⟨hfailure, hdeclarations⟩ :=
    Extractor.run_reading false (Extractor.start source (options.normalizing true))
  rw [← start_normalizing] at hfailure hdeclarations
  refine ⟨hfailure.symm, hdeclarations.imp ?_⟩
  intro d d' h
  obtain ⟨p, index, scope, hp, rfl, rfl⟩ := h
  rw [Extractor.normalize_start]
  apply Parts.widened
  intro t ht
  apply tight_of_lex source
  have hmem : t ∈ (Extractor.start source (options.normalizing true)).tokens :=
    hp (by simp [Parts.unit, Parts.block, ht])
  obtain hnone | hall := Extractor.tokens_start source (options.normalizing true)
  · rw [hnone] at hmem
    cases hmem
  · rwa [hall] at hmem

end Twinfold
