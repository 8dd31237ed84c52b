import Twinfold.Proofs.Declaration.Parts

/-!
# Lines in a body

The logical lines of a body stand in it one behind the other, each at the offset that it is said
to have (`linesIn_read`).  This holds with the blanks around lines and without them.
-/

namespace Twinfold

/-- The lines stand in the text, whose first byte has an offset, one behind the other. -/
def LinesIn : (offset : Nat) → (text : Text) → List LogicalLine → Prop
  | _, _, [] => True
  | offset, text, line :: lines =>
    ∃ before rest, text = before ++ (line.text ++ rest) ∧ line.start = offset + before.size ∧
      line.stop = line.start + line.text.size ∧ LinesIn line.stop rest lines

/-- Lines of a text are lines of a longer one, with a front in which none of them stands. -/
theorem LinesIn.prepend {offset : Nat} {text : Text} {lines : List LogicalLine} (front : Text)
    (h : LinesIn (offset + front.size) text lines) : LinesIn offset (front ++ text) lines := by
  cases lines with
  | nil => trivial
  | cons line lines =>
    obtain ⟨before, rest, rfl, hstart, hstop, hlines⟩ := h
    refine ⟨front ++ before, rest, (List.append_assoc _ _ _).symm, ?_, hstop, hlines⟩
    rw [hstart, Text.size_append, Nat.add_assoc]

/-- Lines of a text are lines of a longer one. -/
theorem LinesIn.append {offset : Nat} {text : Text} {lines : List LogicalLine}
    (h : LinesIn offset text lines) (behind : Text) : LinesIn offset (text ++ behind) lines := by
  induction lines generalizing offset text with
  | nil => trivial
  | cons line lines ih =>
    obtain ⟨before, rest, rfl, hstart, hstop, hlines⟩ := h
    exact ⟨before, rest ++ behind, by simp, hstart, hstop, ih hlines⟩

/-- The lines of a text begin behind the offset of the text. -/
theorem LinesIn.le_start {offset : Nat} {text : Text} {lines : List LogicalLine}
    (h : LinesIn offset text lines) : ∀ line ∈ lines, offset ≤ line.start := by
  induction lines generalizing offset text with
  | nil => simp
  | cons line lines ih =>
    obtain ⟨before, rest, _, hstart, hstop, hlines⟩ := h
    intro other hother
    rcases List.mem_cons.mp hother with rfl | hother
    · omega
    · have := ih hlines other hother
      omega

/-- Lines do not overlap. -/
theorem LinesIn.pairwise {offset : Nat} {text : Text} {lines : List LogicalLine}
    (h : LinesIn offset text lines) : lines.Pairwise fun line other => line.stop ≤ other.start := by
  induction lines generalizing offset text with
  | nil => exact .nil
  | cons line lines ih =>
    obtain ⟨before, rest, _, _, _, hlines⟩ := h
    exact .cons hlines.le_start (ih hlines)

/-- Where a line stands. -/
theorem LinesIn.exists_split {offset : Nat} {text : Text} {lines : List LogicalLine}
    (h : LinesIn offset text lines) : ∀ line ∈ lines, ∃ before rest,
      text = before ++ (line.text ++ rest) ∧ line.start = offset + before.size ∧
        line.stop = line.start + line.text.size := by
  induction lines generalizing offset text with
  | nil => simp
  | cons line lines ih =>
    obtain ⟨before, rest, rfl, hstart, hstop, hlines⟩ := h
    intro other hother
    rcases List.mem_cons.mp hother with rfl | hother
    · exact ⟨before, rest, rfl, hstart, hstop⟩
    · obtain ⟨before', rest', rfl, hstart', hstop'⟩ := ih hlines other hother
      refine ⟨before ++ (line.text ++ before'), rest', by simp, ?_, hstop'⟩
      rw [hstart', hstop, hstart, Text.size_append, Text.size_append]
      omega

/-! ### Runs -/

/-- The runs hold the tokens. -/
@[simp] theorem flatMap_splitRuns (opened ts : List Token) :
    (splitRuns opened ts).flatMap LineRun.tokens = ts := by
  induction ts generalizing opened with
  | nil => rfl
  | cons t ts ih =>
    have hmore := ih (t.openAfter opened)
    rw [splitRuns]
    split
    · rename_i hnil
      rw [hnil] at hmore
      rw [← hmore]
      rfl
    · rename_i r rs hcons
      rw [hcons] at hmore
      split <;> rw [← hmore] <;> rfl

/-- The last token of a run ends where the texts of the run end. -/
theorem stop_last {r : LineRun} (h : Placed r.first.stop r.others) :
    r.last.stop = r.first.stop + (Token.sourceOf r.others).size := by
  obtain ⟨first, others⟩ := r
  unfold LineRun.last
  dsimp only at h ⊢
  induction others generalizing first with
  | nil => simp
  | cons t ts ih =>
    obtain ⟨hstart, hrest⟩ := h
    have hmore := ih t hrest
    have hstop : t.stop = t.start + t.text.size := rfl
    rw [List.getLast?_cons, Option.getD_some, hmore, hstop, hstart, sourceOf_cons,
      Text.size_append, Text.size_append]
    omega

/-- A line of a run stands where its tokens do.  Of the text in front of its first token a part
belongs to it, and so behind its last one. -/
theorem linesIn_toLine {offset : Nat} {r : LineRun} (before front : Text) {behind rest : Text}
    {lines : List LogicalLine} (hstart : r.first.start = offset + (before ++ front).size)
    (hplaced : Placed r.first.stop r.others)
    (hlines : LinesIn (r.last.stop + behind.size) rest lines) :
    LinesIn offset
      (before ++ front ++ (r.first.text ++ (Token.sourceOf r.others ++ (behind ++ rest))))
      (r.toLine front behind :: lines) := by
  have hlast := stop_last hplaced
  have hstop : r.first.stop = r.first.start + r.first.text.size := rfl
  rw [Text.size_append] at hstart
  refine ⟨before, rest, ?_, ?_, ?_, hlines⟩
  · simp [LineRun.toLine]
  · simp only [LineRun.toLine]
    omega
  · simp only [LineRun.toLine, Text.size_append]
    omega

/-- Lines without the blanks around them.  Each of them begins and ends with a token, and the gaps
between two runs belong to none. -/
theorem linesIn_map_toLine {offset : Nat} {runs : List LineRun} (closing : Text)
    (hplaced : Placed offset (runs.flatMap LineRun.tokens)) :
    LinesIn offset (Token.sourceOf (runs.flatMap LineRun.tokens) ++ closing)
      (runs.map (LineRun.toLine [] [])) := by
  induction runs generalizing offset with
  | nil => trivial
  | cons r rs ih =>
    rw [List.flatMap_cons, placed_append_iff] at hplaced
    obtain ⟨⟨hstart, hothers⟩, hrest⟩ := hplaced
    have hlast := stop_last hothers
    have hstop : r.first.stop = r.first.start + r.first.text.size := rfl
    have hoffset : offset + (Token.sourceOf r.tokens).size = r.last.stop + Text.size [] := by
      rw [LineRun.tokens, sourceOf_cons, Text.size_append, Text.size_append, hlast, hstop, hstart]
      simp only [Text.size]
      omega
    rw [hoffset] at hrest
    have hline := linesIn_toLine r.first.gap [] (by simpa using hstart) hothers (ih hrest)
    simpa [LineRun.tokens] using hline

/-- The indentation at the end of a gap, and what is in front of it. -/
theorem exists_append_indentAtEnd (gap : Text) : ∃ before, gap = before ++ indentAtEnd gap := by
  refine ⟨(gap.reverse.dropWhile isIndent).reverse, ?_⟩
  rw [indentAtEnd, ← List.reverse_append, List.takeWhile_append_dropWhile, List.reverse_reverse]

/-- Lines with the blanks around them.  The text `before` is what is left of the gap in front of
the first run. -/
theorem linesIn_wideLines {offset : Nat} {before : Text} {r : LineRun} {rs : List LineRun}
    (closing : Text) (hstart : r.first.start = offset + before.size)
    (hplaced : Placed r.first.stop (r.others ++ rs.flatMap LineRun.tokens)) :
    LinesIn offset
      (before ++ (r.first.text ++ (Token.sourceOf (r.others ++ rs.flatMap LineRun.tokens) ++ closing)))
      (wideLines closing before (r :: rs)) := by
  induction rs generalizing offset before r with
  | nil =>
    obtain ⟨front, hfront⟩ := exists_append_indentAtEnd before
    simp only [List.flatMap_nil, List.append_nil] at hplaced ⊢
    rw [wideLines]
    have hnone : LinesIn (r.last.stop + Text.size (closing.takeWhile isIndent))
        (closing.dropWhile isIndent) [] := trivial
    have hline := linesIn_toLine front (indentAtEnd before) (hfront ▸ hstart) hplaced hnone
    rwa [← hfront, List.takeWhile_append_dropWhile] at hline
  | cons s rs ih =>
    obtain ⟨front, hfront⟩ := exists_append_indentAtEnd before
    rw [placed_append_iff] at hplaced
    obtain ⟨hothers, hrest⟩ := hplaced
    rw [List.flatMap_cons, LineRun.tokens, List.cons_append, ← stop_last hothers] at hrest
    obtain ⟨hnext, hmore⟩ := hrest
    have hgap := List.takeWhile_append_dropWhile (p := isIndent) (l := s.first.gap)
    have hsize := congrArg Text.size hgap
    rw [Text.size_append] at hsize
    have hstart' : s.first.start = r.last.stop + Text.size (s.first.gap.takeWhile isIndent) +
        Text.size (s.first.gap.dropWhile isIndent) := by omega
    have hline := linesIn_toLine front (indentAtEnd before) (hfront ▸ hstart) hothers
      (ih hstart' hmore)
    rw [wideLines]
    rw [← hfront, ← List.append_assoc (s.first.gap.takeWhile isIndent), hgap] at hline
    simpa [LineRun.tokens] using hline

/-- The lines of a body stand in it. -/
theorem linesIn_readLines {normalize : Bool} {opener : Token} {inner : List Token} {offset : Nat}
    (closing : Text) (hplaced : Placed offset inner) :
    LinesIn offset (Token.sourceOf inner ++ closing) (readLines normalize opener inner closing) := by
  have hruns := flatMap_splitRuns [opener] inner
  unfold readLines
  dsimp only
  split
  · rw [← hruns] at hplaced
    have hlines := linesIn_map_toLine closing hplaced
    rwa [hruns] at hlines
  · cases hsplit : splitRuns [opener] inner with
    | nil => trivial
    | cons r rs =>
      rw [hsplit] at hruns
      subst hruns
      obtain ⟨hstart, hrest⟩ := hplaced
      have hlines := linesIn_wideLines closing hstart hrest
      simpa [LineRun.tokens] using hlines

/-- The body of a declaration holds its lines. -/
theorem linesIn_read {p : Parts} (hplaced : Placed p.brace.stop p.inner) (normalize : Bool)
    (index : Nat) (scope : Option Nat) :
    LinesIn p.brace.start (p.read normalize index scope).body
      (p.read normalize index scope).lines := by
  have hlines : LinesIn (p.brace.start + p.brace.text.size)
      (Token.sourceOf p.inner ++ p.braceClose.gap)
      (readLines normalize p.brace p.inner p.braceClose.gap) :=
    linesIn_readLines p.braceClose.gap hplaced
  have hbody := (hlines.append p.braceClose.text).prepend p.brace.text
  simpa [Parts.read] using hbody

end Twinfold
