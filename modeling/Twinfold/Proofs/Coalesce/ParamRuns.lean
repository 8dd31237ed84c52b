import Twinfold.Proofs.Coalesce.Parameters
import Twinfold.Proofs.Declaration.LinesAlone

/-!
# The tokens of parameters

A parameter is kept as a text: a piece of the parameter list without the white space around it.  The
list falls into runs of tokens in the same way (`paramRuns`), and every parameter is what a run
spells, with one more gap behind it (`exists_run_of_params`).
-/

namespace Twinfold

/-! ### Runs and pieces -/

/-- The tokens between the outermost commas. -/
def paramRuns : Nat → List Token → List (List Token)
  | _, [] => [[]]
  | depth, t :: ts =>
    if depth = 0 && t.punctIs "," then [] :: paramRuns depth ts
    else
      match paramRuns (t.depthAfter depth) ts with
      | [] => []
      | run :: runs => (t :: run) :: runs

/-- The tokens and the gap behind them spell the text, among other tokens. -/
def SpelledAmong (ts run : List Token) (text : Text) : Prop :=
  ∃ before t after, ts = before ++ (run ++ t :: after) ∧ text = Token.sourceOf run ++ t.gap

/-- What is spelled among tokens is spelled among more of them. -/
theorem SpelledAmong.cons {ts run : List Token} {text : Text} (h : SpelledAmong ts run text)
    (t : Token) : SpelledAmong (t :: ts) run text := by
  obtain ⟨before, u, after, rfl, htext⟩ := h
  exact ⟨t :: before, u, after, rfl, htext⟩

/-- The pieces of a parameter list are spelled by the runs.  Runs and pieces are cut at the same
commas, so the induction on the tokens adds a token to the first of each or begins new ones. -/
theorem forall₂_paramRuns (close : Token) (depth : Nat) (ts : List Token) :
    ∃ run runs piece pieces, paramRuns depth ts = run :: runs ∧
      paramPieces close.gap depth ts = piece :: pieces ∧
      (∃ t after, ts ++ [close] = run ++ t :: after ∧ piece = Token.sourceOf run ++ t.gap) ∧
      List.Forall₂ (SpelledAmong (ts ++ [close])) runs pieces := by
  induction ts generalizing depth with
  | nil => exact ⟨[], [], close.gap, [], rfl, rfl, ⟨close, [], rfl, rfl⟩, .nil⟩
  | cons t ts ih =>
    by_cases hcomma : (depth = 0 && t.punctIs ",") = true
    · obtain ⟨run, runs, piece, pieces, hruns, hpieces, ⟨u, after, hsplit, hpiece⟩, hmore⟩ := ih depth
      refine ⟨[], run :: runs, t.gap, piece :: pieces, ?_, ?_, ⟨t, ts ++ [close], rfl, rfl⟩,
        .cons ⟨[t], u, after, ?_, hpiece⟩ (hmore.imp fun _ _ h => h.cons t)⟩
      · rw [paramRuns, if_pos hcomma, hruns]
      · rw [paramPieces, if_pos hcomma, hpieces]
      · rw [List.cons_append, hsplit]
        rfl
    · obtain ⟨run, runs, piece, pieces, hruns, hpieces, ⟨u, after, hsplit, rfl⟩, hmore⟩ :=
        ih (t.depthAfter depth)
      refine ⟨t :: run, runs, t.source ++ (Token.sourceOf run ++ u.gap), pieces, ?_, ?_,
        ⟨u, after, ?_, ?_⟩, hmore.imp fun _ _ h => h.cons t⟩
      · rw [paramRuns, if_neg hcomma, hruns]
      · rw [paramPieces, if_neg hcomma, hpieces]
      · rw [List.cons_append, hsplit]
        rfl
      · rw [sourceOf_cons, Token.source, List.append_assoc, List.append_assoc, List.append_assoc]

/-- **A parameter is what its tokens and one more gap spell**, without the white space around it.
The gap is the one behind its last token, which belongs to the comma or the parenthesis that
follows. -/
theorem exists_run_of_readParams {ts : List Token} {close : Token} {i : Nat} {param : Text}
    (h : (readParams ts close.gap)[i]? = some param) :
    ∃ run text, (paramRuns 0 ts)[i]? = some run ∧ SpelledAmong (ts ++ [close]) run text ∧
      param = text.trim := by
  obtain ⟨text, htext, hparam⟩ := exists_piece_of_getElem? h
  obtain ⟨run, runs, piece, pieces, hruns, hpieces, ⟨t, after, hsplit, hpiece⟩, hmore⟩ :=
    forall₂_paramRuns close 0 ts
  have hall : List.Forall₂ (SpelledAmong (ts ++ [close])) (paramRuns 0 ts)
      (paramPieces close.gap 0 ts) := by
    rw [hruns, hpieces]
    exact .cons ⟨[], t, after, hsplit, hpiece⟩ hmore
  obtain ⟨hlength, hat⟩ := List.forall₂_iff_get.mp hall
  obtain ⟨hi, hget⟩ := List.getElem?_eq_some_iff.mp htext
  have hspelled := hat i (hlength ▸ hi) hi
  exact ⟨_, text, List.getElem?_eq_getElem (hlength ▸ hi), hget ▸ hspelled, hparam⟩

/-! ### The parameters of a declaration -/

/-- The tokens of a text from the first byte of a declaration up to its body. -/
def Declaration.headTokens (d : Declaration) (source : Text) : List Token :=
  (lex source).tokens.filter fun t => d.start ≤ t.start && t.stop ≤ d.bodyStart

/-- The tokens of the parameters: those between the parentheses, cut at the outermost commas. -/
def Declaration.paramRuns (d : Declaration) (source : Text) : List (List Token) :=
  Twinfold.paramRuns 0 ((d.headTokens source).dropWhile fun t => !t.punctIs "(").tail.dropLast

section

variable {source : Text} {options : Options} {d : Declaration}

/-- The first of some tokens begins first. -/
theorem start_le_of_pairwise {t : Token} {ts : List Token} (hpos : t.start < t.stop)
    (h : (t :: ts).Pairwise fun t u => t.stop ≤ u.start) : ∀ u ∈ t :: ts, t.start ≤ u.start := by
  intro u hu
  rcases List.mem_cons.mp hu with rfl | hu
  · exact Nat.le_refl _
  · exact (hpos.trans_le (List.rel_of_pairwise_cons h hu)).le

/-- The tokens up to the body are those of the header.  They are told by their positions, which are
between the beginning and the brace. -/
theorem headTokens_eq {front rest : List Token} {p : Parts}
    (htokens : (lex source).tokens = front ++ p.first :: (p.behindFirst ++ p.brace :: rest))
    (hstart : d.start = p.first.start) (hbody : d.bodyStart = p.brace.start) :
    d.headTokens source = p.first :: p.behindFirst := by
  have hnonempty := start_lt_stop_of_lex source
  have hpairwise := (placed_of_lex source).pairwise
  have hsplit : (lex source).tokens = front ++ ((p.first :: p.behindFirst) ++ p.brace :: rest) :=
    htokens
  rw [hsplit] at hnonempty hpairwise
  rw [List.pairwise_append, List.pairwise_append] at hpairwise
  obtain ⟨-, ⟨hhead, hrest, hbehind⟩, hfront⟩ := hpairwise
  rw [Declaration.headTokens, hstart, hbody, hsplit]
  refine filter_between hnonempty (fun t ht => hfront t ht p.first (by simp)) (fun t ht => ⟨?_, ?_⟩)
    (start_le_of_pairwise (hnonempty p.brace (by simp)) hrest)
  · exact start_le_of_pairwise (hnonempty p.first (by simp)) hhead t ht
  · exact hbehind t ht p.brace List.mem_cons_self

/-- The first opening parenthesis of a declaration is the one of its parameter list.  In front of
it there are only words and a star. -/
theorem dropWhile_header {p : Parts} (h : p.Found) :
    (p.first :: p.behindFirst).dropWhile (fun t => !t.punctIs "(") =
      p.paren :: (p.params ++ [p.parenClose]) := by
  obtain ⟨_, hformed⟩ := h.wellFormed
  have hident : ∀ t : Token, t.kind = .ident → t.punctIs "(" = false := fun t ht => by
    simp [Token.punctIs, ht]
  have hsplit : p.first :: p.behindFirst =
      (p.async.toList ++ p.keyword :: (p.star.toList ++ p.ident.toList)) ++
        p.paren :: (p.params ++ [p.parenClose]) := by
    unfold Parts.first Parts.behindFirst Parts.signature
    cases p.async <;> simp
  rw [hsplit, List.dropWhile_append_of_pos, List.dropWhile_cons_of_neg (by simp [hformed.paren])]
  intro t ht
  simp only [List.mem_append, List.mem_cons, Option.mem_toList] at ht
  rw [Bool.not_eq_true']
  rcases ht with ht | rfl | ht | ht
  · exact hident t (identIs_kind (h.async t ht))
  · exact hident _ (identIs_kind h.function)
  · exact punctIs_eq_false (hformed.star t ht) (by decide)
  · exact hident t (hformed.ident t ht)

/-- **A parameter is what its tokens spell**, with one more gap, without the white space around
it. -/
theorem exists_run_of_params (hd : d ∈ (extract source options).declarations) {i : Nat}
    {param : Text} (hparam : d.params[i]? = some param) :
    ∃ run, (d.paramRuns source)[i]? = some run ∧ (∀ t ∈ run, t ∈ (lex source).tokens) ∧
      ∃ previous gap behind, Spells previous run (gap ++ behind) ∧ IsGap gap ∧
        param = (Token.sourceOf run ++ gap).trim := by
  obtain ⟨before, after, p, scope, htokens, hfound, hasync, hread⟩ :=
    exists_parts_of_extract hd
  obtain ⟨front, hfront⟩ := Parts.exists_front hasync after
  have hstart : d.start = p.first.start := by rw [hread]; rfl
  have hbody : d.bodyStart = p.brace.start := by rw [hread]; rfl
  have hheader := headTokens_eq (htokens.trans hfront) hstart hbody
  have hruns : d.paramRuns source = Twinfold.paramRuns 0 p.params := by
    rw [Declaration.paramRuns, hheader, dropWhile_header hfound, List.tail_cons,
      List.dropLast_concat]
  rw [hread] at hparam
  obtain ⟨run, text, hrun, ⟨pre, t, post, hsplit, rfl⟩, htrim⟩ := exists_run_of_readParams hparam
  obtain ⟨first, ts, hfirst⟩ : ∃ first ts, before ++ [p.keyword] = first :: ts :=
    List.exists_cons_of_ne_nil (by simp)
  have hunit : before ++ (p.unit ++ after) = before ++ [p.keyword] ++
      (p.star.toList ++ p.ident.toList ++ p.paren :: (p.params ++ [p.parenClose]) ++
        (p.block ++ after)) := by
    simp [Parts.unit, Parts.signature]
  have hall : (lex source).tokens = first :: (ts ++ (p.star.toList ++ p.ident.toList ++
      p.paren :: pre ++ (run ++ t :: (post ++ (p.block ++ after))))) := by
    rw [htokens, hunit, hsplit, hfirst]
    simp
  obtain ⟨left, -, hspells, -⟩ := spells_behind_of_lex hall
  obtain ⟨-, hsignature⟩ := spells_append_iff.mp hspells
  obtain ⟨-, hparams⟩ := spells_append_iff.mp hsignature
  obtain ⟨hspelled, hgap, -⟩ := spells_append_iff.mp hparams
  rw [sourceOf_cons, List.append_assoc, List.append_assoc] at hspelled
  exact ⟨run, hruns ▸ hrun, fun u hu => by simp [hall, hu], _, t.gap, _, hspelled, hgap, htrim⟩

end

end Twinfold
