import Mathlib.Data.List.Nodup
import Mathlib.Data.List.Pairwise
import Twinfold.Proofs.Declaration.LinesAlone

/-!
# The tokens of a body

Between the braces of a function stand the tokens of its lines, one line behind the other
(`flatMap_tokensIn`).  Where a line is lexed alone as it is lexed in the text, the tokens that are
compared are these tokens, each at its place (`LexedAlike.exists_token`).
-/

namespace Twinfold

/-- The tokens of a text that stand between the braces of a body. -/
def Declaration.bodyTokens (d : Declaration) (source : Text) : List Token :=
  (lex source).tokens.filter fun t => d.bodyStart < t.start && t.stop < d.stop

section

variable {source : Text} {options : Options} {d : Declaration}

/-- What stands between two tokens of a text.  Tokens stand one behind the other, so those between
the two are told by where they begin and end. -/
theorem filter_enclosed {before inner after : List Token} {opener closer : Token}
    (htokens : (lex source).tokens = before ++ opener :: (inner ++ closer :: after)) :
    ((lex source).tokens.filter fun t => opener.start < t.start && t.stop < closer.stop) =
      inner := by
  have hnonempty := start_lt_stop_of_lex source
  have hpairwise := (placed_of_lex source).pairwise
  rw [htokens] at hnonempty hpairwise ⊢
  rw [List.pairwise_append, List.pairwise_cons, List.pairwise_append, List.pairwise_cons]
    at hpairwise
  obtain ⟨-, ⟨hopener, -, ⟨hcloser, -⟩, hinner⟩, hbefore⟩ := hpairwise
  have hfront : before.filter (fun t => opener.start < t.start && t.stop < closer.stop) = [] := by
    refine List.filter_eq_nil_iff.mpr fun t ht => ?_
    have := hbefore t ht opener List.mem_cons_self
    have := hnonempty t (by simp [ht])
    simp only [Bool.and_eq_true, decide_eq_true_eq]
    omega
  have hback : after.filter (fun t => opener.start < t.start && t.stop < closer.stop) = [] := by
    refine List.filter_eq_nil_iff.mpr fun t ht => ?_
    have := hcloser t ht
    have := hnonempty t (by simp [ht])
    simp only [Bool.and_eq_true, decide_eq_true_eq]
    omega
  have hwithin : inner.filter (fun t => opener.start < t.start && t.stop < closer.stop) = inner := by
    refine List.filter_eq_self.mpr fun t ht => ?_
    have := hopener t (by simp [ht])
    have := hinner t ht closer List.mem_cons_self
    have := hnonempty opener (by simp)
    have := hnonempty closer (by simp)
    simp only [Bool.and_eq_true, decide_eq_true_eq]
    omega
  rw [List.filter_append, hfront, List.filter_cons_of_neg (by simp), List.filter_append, hwithin,
    List.filter_cons_of_neg (by simp), hback, List.nil_append, List.append_nil]

/-- The tokens of lines are those of their runs. -/
theorem LinesOf.map_tokensIn {before after : List Token} {next : Token} {runs : List LineRun}
    {lines : List LogicalLine} (h : LinesOf next.gap runs lines)
    (htokens : (lex source).tokens = before ++ (runs.flatMap LineRun.tokens ++ next :: after)) :
    lines.map (fun line => line.tokensIn source) = runs.map LineRun.tokens := by
  induction lines generalizing before runs with
  | nil =>
    cases h
    rfl
  | cons line lines ih =>
    cases runs with
    | nil => cases h
    | cons r rs =>
      obtain ⟨hlines, site, -, hrun⟩ := h.exists_site htokens
      rw [List.flatMap_cons, List.append_assoc, ← List.append_assoc before] at htokens
      rw [List.map_cons, List.map_cons, site.tokensIn_eq, hrun, ih hlines htokens]

/-- **The lines of a body**: between its braces stand their tokens, and the braces are balanced.
The parts of the declaration stand among the tokens of the text, and the inner ones are those in
its span. -/
theorem exists_body_of_extract (hd : d ∈ (extract source options).declarations) :
    ∃ (before after : List Token) (brace braceClose : Token),
      (lex source).tokens = before ++ brace :: (d.bodyTokens source ++ braceClose :: after) ∧
      brace.punctIs "\x7b" = true ∧
      enclose none brace [] (d.bodyTokens source ++ [braceClose]) =
        .ok ⟨d.bodyTokens source, braceClose, []⟩ ∧
      d.lines.map (fun line => line.tokensIn source) =
        (splitRuns [brace] (d.bodyTokens source)).map LineRun.tokens := by
  obtain ⟨before, after, p, scope, htokens, hfound, _, hread⟩ :=
    exists_parts_of_extract hd
  obtain ⟨_, hformed⟩ := hfound.wellFormed
  have hblock : (lex source).tokens =
      before ++ p.keyword :: p.signature ++ p.brace :: (p.inner ++ p.braceClose :: after) := by
    rw [htokens, Parts.unit, Parts.block]
    simp
  have hbody : d.bodyTokens source = p.inner := by
    rw [hread]
    exact filter_enclosed hblock
  rw [hbody]
  refine ⟨_, after, p.brace, p.braceClose, hblock, hformed.brace, hformed.inner, ?_⟩
  obtain ⟨front, _, hfront⟩ := exists_lines_of_read p before after
  rw [hread]
  exact (linesOf_readLines _ p.brace p.inner p.braceClose.gap).map_tokensIn
    (htokens.trans hfront)

/-- **A body is its lines**, one behind the other.  No token of the body is in two lines or in
none. -/
theorem flatMap_tokensIn (hd : d ∈ (extract source options).declarations) :
    d.lines.flatMap (fun line => line.tokensIn source) = d.bodyTokens source := by
  obtain ⟨_, _, brace, _, _, _, _, hlines⟩ := exists_body_of_extract hd
  rw [List.flatMap_def, hlines, ← List.flatMap_def, flatMap_splitRuns]

/-- A line of a body is not empty. -/
theorem tokensIn_ne_nil (hd : d ∈ (extract source options).declarations) {line : LogicalLine}
    (hline : line ∈ d.lines) : line.tokensIn source ≠ [] := by
  obtain ⟨site, _⟩ := exists_site_of_extract hd hline
  rw [site.tokensIn_eq]
  exact List.cons_ne_nil _ _

/-- The tokens around a line of a body. -/
theorem exists_bodyTokens_around (hd : d ∈ (extract source options).declarations) {n : Nat}
    {line : LogicalLine} (hline : d.lines[n]? = some line) :
    d.bodyTokens source =
      (d.lines.take n).flatMap (fun line => line.tokensIn source) ++ (line.tokensIn source ++
        (d.lines.drop (n + 1)).flatMap fun line => line.tokensIn source) := by
  obtain ⟨hlt, hget⟩ := List.getElem?_eq_some_iff.mp hline
  rw [← flatMap_tokensIn hd]
  conv_lhs => rw [← List.take_append_drop n d.lines, List.drop_eq_getElem_cons hlt, hget]
  rw [List.flatMap_append, List.flatMap_cons]

end

/-! ### Lists in pieces -/

section

variable {α β : Type} {f g : α → List β} {stretch : List β} {l : List α}

/-- Pieces without a common element are told apart by any element. -/
theorem eq_of_nodup_flatMap (h : (l.flatMap f).Nodup) {a a' : α} (ha : a ∈ l) (ha' : a' ∈ l) {b : β}
    (hb : b ∈ f a) (hb' : b ∈ f a') : a = a' := by
  have : Std.Symm (Function.onFun List.Disjoint f) := ⟨fun _ _ h _ hb ha => h ha hb⟩
  by_contra hne
  exact (List.nodup_flatMap.mp h).2.forall ha ha' hne hb hb'

/-- A stretch that begins in front of pieces stays when those it touches stay as they are.  The
induction is on the pieces: one that is touched stays, and behind one that is not touched the
stretch has ended. -/
theorem prefix_append_flatMap_of_touched {front : List β} (hne : ∀ a ∈ l, f a ≠ [])
    (h : stretch <+: front ++ l.flatMap f)
    (htouched : ∀ a ∈ l, (∃ b ∈ f a, b ∈ stretch) → g a = f a) :
    stretch <+: front ++ l.flatMap g := by
  induction l generalizing front with
  | nil => exact h
  | cons a l ih =>
    obtain ⟨hpiece, hpieces⟩ := List.forall_mem_cons.mp hne
    obtain ⟨hfirst, hothers⟩ := List.forall_mem_cons.mp htouched
    rw [List.flatMap_cons] at h ⊢
    obtain ⟨tail, htail⟩ := h
    rcases List.append_eq_append_iff.mp htail with ⟨rest, hwithin, -⟩ | ⟨rest, hbeyond, hrest⟩
    · rw [hwithin, List.append_assoc]
      exact List.prefix_append _ _
    · cases rest with
      | nil =>
        rw [hbeyond, List.append_nil]
        exact List.prefix_append _ _
      | cons b rest =>
        -- It goes on in the piece, which is touched.
        obtain ⟨b', piece, hsplit⟩ := List.exists_cons_of_ne_nil hpiece
        have hhead : b' = b := by
          rw [hsplit] at hrest
          exact (List.cons.inj hrest).1
        rw [hfirst ⟨b, by simp [hsplit, hhead], by simp [hbeyond]⟩, ← List.append_assoc]
        exact ih hpieces ⟨tail, by rw [htail, List.append_assoc]⟩ hothers

/-- **A stretch of pieces stays** when those it touches stay as they are.  The pieces in front of
the stretch may change, up to the one in which it begins. -/
theorem infix_flatMap_of_touched (hne : ∀ a ∈ l, f a ≠ []) (h : stretch <:+: l.flatMap f)
    (htouched : ∀ a ∈ l, (∃ b ∈ f a, b ∈ stretch) → g a = f a) : stretch <:+: l.flatMap g := by
  induction l with
  | nil => exact h
  | cons a l ih =>
    obtain ⟨-, hpieces⟩ := List.forall_mem_cons.mp hne
    obtain ⟨hfirst, hothers⟩ := List.forall_mem_cons.mp htouched
    obtain ⟨before, tail, hsplit⟩ := h
    rw [List.flatMap_cons, List.append_assoc] at hsplit
    rw [List.flatMap_cons]
    rcases List.append_eq_append_iff.mp hsplit with ⟨rest, hwithin, hrest⟩ | ⟨rest, -, hrest⟩
    · have hprefix := prefix_append_flatMap_of_touched hpieces ⟨tail, hrest⟩ hothers
      cases rest with
      | nil => exact hprefix.isInfix.trans (List.suffix_append _ _).isInfix
      | cons c rest =>
        cases stretch with
        | nil => exact List.nil_infix
        | cons b stretch =>
          obtain rfl : b = c := (List.cons.inj hrest).1
          rw [hfirst ⟨b, by simp [hwithin], List.mem_cons_self⟩, hwithin, List.append_assoc]
          exact hprefix.isInfix.trans (List.suffix_append _ _).isInfix
    · have hinfix := ih hpieces ⟨rest, tail, by rw [hrest, List.append_assoc]⟩ hothers
      exact hinfix.trans (List.suffix_append _ _).isInfix

end

/-! ### Lines that are lexed alike -/

namespace LogicalLine

variable {line : LogicalLine} {source : Text} {ts : List Token}

/-- A line that is lexed alike gives the tokens of the text. -/
theorem LexedAlike.map_word (h : line.LexedAlike source) (hts : tokenize line.text = .ok ts) :
    ts.map Token.word = (line.tokensIn source).map Token.word := by
  obtain ⟨us, hus, _, hmap⟩ := h
  cases hts.symm.trans hus
  have hwords := congrArg (List.map Prod.fst) hmap
  rwa [List.map_map, List.map_map] at hwords

/-- Each token stands in the text where it stands in the line. -/
theorem LexedAlike.exists_token (h : line.LexedAlike source) (hts : tokenize line.text = .ok ts)
    {n : Nat} {t : Token} (ht : ts[n]? = some t) :
    ∃ u, (line.tokensIn source)[n]? = some u ∧ u.word = t.word ∧
      u.start = line.start + t.start ∧ u.stop = line.start + t.stop := by
  obtain ⟨us, hus, _, hmap⟩ := h
  cases hts.symm.trans hus
  have hat := congrArg (fun entries => entries[n]?) hmap
  simp only [List.getElem?_map, ht, Option.map_some] at hat
  obtain ⟨u, hu, hentry⟩ := Option.map_eq_some_iff.mp hat.symm
  simp only [Prod.mk.injEq] at hentry
  exact ⟨u, hu, hentry.1, hentry.2.1, hentry.2.2⟩

/-- A line of a declaration that is lexed alike can be lexed. -/
theorem LexedAlike.exists_tokens (h : line.LexedAlike source) :
    ∃ ts, tokenize line.text = .ok ts := by
  obtain ⟨ts, hts, _⟩ := h
  exact ⟨ts, hts⟩

end LogicalLine

/-- **A stretch on lines that are lexed alike** is read as it stands in the text, whatever is read
of the other lines. -/
theorem exists_around_of_lexedAlike {source : Text} {options : Options} {d : Declaration}
    (hd : d ∈ (extract source options).declarations) {stretch : List Token}
    (hstretch : stretch <:+: d.bodyTokens source)
    (halike : ∀ line ∈ d.lines, (∃ t ∈ line.tokensIn source, t ∈ stretch) →
      line.LexedAlike source)
    {read : LogicalLine → List Token}
    (hread : ∀ line ts, tokenize line.text = .ok ts → read line = ts) :
    ∃ before after, (d.lines.flatMap read).map Token.word =
      (before ++ (stretch ++ after)).map Token.word := by
  classical
  -- Lines that are lexed alike have the tokens of the text, the others keep what is read of them.
  let seen : LogicalLine → List Token := fun line =>
    if line.LexedAlike source then line.tokensIn source else read line
  have hwords : (d.lines.flatMap read).map Token.word = (d.lines.flatMap seen).map Token.word := by
    rw [List.map_flatMap, List.map_flatMap]
    refine List.flatMap_congr fun line _ => ?_
    by_cases hline : line.LexedAlike source
    · obtain ⟨ts, hts⟩ := hline.exists_tokens
      rw [hread line ts hts, hline.map_word hts]
      simp only [seen, if_pos hline]
    · simp only [seen, if_neg hline]
  rw [← flatMap_tokensIn hd] at hstretch
  obtain ⟨before, after, hsplit⟩ := infix_flatMap_of_touched
    (fun line hline => tokensIn_ne_nil hd hline) hstretch
    fun line hline htouched => if_pos (halike line hline htouched)
  exact ⟨before, after, by rw [hwords, ← hsplit, List.append_assoc]⟩

end Twinfold
