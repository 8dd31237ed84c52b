import Twinfold.Proofs.Declaration.Balance
import Twinfold.Proofs.Declaration.BodyTokens
import Twinfold.Proofs.Declaration.Records

/-!
# Where lines end

The lines of a body hold its tokens, every token in one line.  Two neighbours are in different lines
exactly where the text says so (`EndsBetween`): at a line end, behind `{`, around `}`, and behind a
`;` that stands directly in a block (`brokenIntoLines_of_extract`).

The text says it without a stack: the **innermost** open delimiter is one behind which everything is
balanced (`Innermost`), and there is only one such delimiter (`Innermost.unique`).  The stack that
splits the tokens has it on top (`exists_innermost_of_tracks`).
-/

namespace Twinfold

/-! ### The innermost open delimiter -/

/-- The innermost delimiter that is open behind tokens: what follows on it is balanced. -/
def Innermost (ts : List Token) (o : Token) : Prop :=
  ∃ front inner, ts = front ++ o :: inner ∧ o.opens = true ∧ Balanced true inner

section

variable {opened ts inner : List Token} {o o' : Token}

/-- A delimiter behind which everything is balanced has no partner. -/
theorem not_balanced_append_opening (front : List Token) (ho : o.opens = true)
    (hinner : Balanced true inner) : ¬Balanced true (front ++ o :: inner) := by
  intro h
  obtain ⟨middle, -, hbehind⟩ := tracks_append_iff.mp (h.tracks [])
  cases ((tracks_opening ho).mp hbehind).unique (hinner.tracks _)

/-- Among balanced tokens there is no further delimiter behind which everything is balanced. -/
theorem eq_of_append_opening {more inner' : List Token} (h : o :: inner = more ++ o' :: inner')
    (ho' : o'.opens = true) (hinner : Balanced true inner) (hinner' : Balanced true inner') :
    o = o' := by
  cases more with
  | nil => exact (List.cons.inj h).1
  | cons a more =>
    obtain ⟨-, rfl⟩ := List.cons.inj h
    exact absurd hinner (not_balanced_append_opening more ho' hinner')

/-- **Only one delimiter is the innermost open one.**  What is behind it is balanced, and a
balanced list has no delimiter that stays open. -/
theorem Innermost.unique (h : Innermost ts o) (h' : Innermost ts o') : o = o' := by
  obtain ⟨front, inner, rfl, ho, hinner⟩ := h
  obtain ⟨front', inner', hsplit, ho', hinner'⟩ := h'
  rcases List.append_eq_append_iff.mp hsplit with ⟨more, -, hmore⟩ | ⟨more, -, hmore⟩
  · exact eq_of_append_opening hmore ho' hinner hinner'
  · exact (eq_of_append_opening hmore ho hinner' hinner).symm

/-- The innermost open delimiter stands at the end, whatever is in front. -/
theorem Innermost.append_left (h : Innermost ts o) (front : List Token) :
    Innermost (front ++ ts) o := by
  obtain ⟨before, inner, rfl, ho, hinner⟩ := h
  exact ⟨front ++ before, inner, (List.append_assoc _ _ _).symm, ho, hinner⟩

/-- **The innermost open delimiter is on top of the stack**, and the others are those that were open
in front of it. -/
theorem exists_innermost_of_tracks (h : Tracks [] ts (o :: opened)) :
    ∃ front inner, ts = front ++ o :: inner ∧ o.opens = true ∧ Balanced true inner ∧
      Tracks [] front opened := by
  induction hlength : ts.length using Nat.strong_induction_on generalizing ts o opened with
  | _ n ih =>
    subst hlength
    rcases ts.eq_nil_or_concat' with rfl | ⟨ts, t, rfl⟩
    · cases tracks_nil_iff.mp h
    · -- What the last token does to the stack; the tokens in front of it are fewer.
      obtain ⟨middle, hfront, hlast⟩ := tracks_append_iff.mp h
      obtain ⟨last, htrack, hlast⟩ := tracks_cons_iff.mp hlast
      obtain rfl := tracks_nil_iff.mp hlast
      have hless : ts.length < (ts ++ [t]).length := by simp
      rcases track_eq_ok_iff.mp htrack with ⟨hopens, hcons⟩ | ⟨-, -, o', rfl, hclosed⟩ |
        ⟨hopens, hcloses, rfl⟩
      · cases hcons
        exact ⟨ts, [], rfl, hopens, .nil, hfront⟩
      · -- The partner of the last token is the innermost one in front of it, and the delimiter that
        -- is left is the innermost one in front of the partner.
        obtain ⟨front, inner, rfl, hopens, hinner, hfront⟩ := ih _ hless hfront rfl
        obtain ⟨front, inner', rfl, hopens', hinner', hfront⟩ :=
          ih front.length (by simp only [List.length_append, List.length_cons]; omega) hfront rfl
        exact ⟨front, inner' ++ o' :: (inner ++ [t]), by simp, hopens',
          hinner'.append (.nested hopens hclosed hinner .nil), hfront⟩
      · obtain ⟨front, inner, rfl, ho, hinner, hfront⟩ := ih _ hless hfront rfl
        exact ⟨front, inner ++ [t], by simp, ho,
          hinner.append (.plain hopens hcloses nofun .nil), hfront⟩

theorem innermost_of_tracks (h : Tracks [] ts (o :: opened)) : Innermost ts o := by
  obtain ⟨front, inner, hsplit, ho, hinner, -⟩ := exists_innermost_of_tracks h
  exact ⟨front, inner, hsplit, ho, hinner⟩

/-- Inside a block some delimiter is open, if only the brace of the block. -/
theorem exists_innermost_of_balanced {opener : Token} {front rest : List Token}
    (hopens : opener.opens = true) (h : Balanced true (front ++ rest)) :
    ∃ o outer, Tracks [opener] front (o :: outer) ∧ Innermost (opener :: front) o := by
  obtain ⟨opened, htracks, -⟩ := tracks_append_iff.mp (h.tracks [])
  have hbase := htracks.append_opened [opener]
  obtain ⟨o, outer, hopened⟩ : ∃ o outer, opened ++ [opener] = o :: outer :=
    List.exists_cons_of_ne_nil (by simp)
  rw [List.nil_append, hopened] at hbase
  exact ⟨o, outer, hbase, innermost_of_tracks ((tracks_opening hopens).mpr hbase)⟩

end

/-! ### Neighbours in one run -/

section

variable {opened opened' pre post ts : List Token} {a t u : Token}

/-- A token in front of others does not matter for whether these are in one run. -/
theorem exists_mem_splitRuns_cons (ht : t ≠ a) (hu : u ≠ a) :
    (∃ r ∈ splitRuns opened (a :: ts), t ∈ r.tokens ∧ u ∈ r.tokens) ↔
      ∃ r ∈ splitRuns (a.openAfter opened) ts, t ∈ r.tokens ∧ u ∈ r.tokens := by
  have halone : t ∉ LineRun.tokens ⟨a, []⟩ := by simpa [LineRun.tokens] using ht
  rw [splitRuns]
  split
  · rename_i hnil
    simp [hnil, halone]
  · rename_i r rs hcons
    rw [hcons]
    split
    · rw [List.exists_mem_cons_iff]
      simp [halone]
    · simp [LineRun.tokens, ht, hu]

/-- The first run begins with the first token. -/
theorem exists_splitRuns_cons (opened : List Token) (u : Token) (ts : List Token) :
    ∃ r rs, splitRuns opened (u :: ts) = r :: rs ∧ r.first = u := by
  rw [splitRuns]
  split
  · exact ⟨_, _, rfl, rfl⟩
  · split <;> exact ⟨_, _, rfl, rfl⟩

/-- **Neighbours are in one run unless a line ends between them.**  The tokens in front of them only
lead up to the delimiters that are open. -/
theorem exists_run_iff (htracks : Tracks opened (pre ++ [t]) opened')
    (hnodup : (pre ++ t :: u :: post).Nodup) :
    (∃ r ∈ splitRuns opened (pre ++ t :: u :: post), t ∈ r.tokens ∧ u ∈ r.tokens) ↔
      endsLine opened' t u = false := by
  induction pre generalizing opened with
  | nil =>
    obtain ⟨middle, htrack, hnil⟩ := tracks_cons_iff.mp htracks
    obtain rfl := tracks_nil_iff.mp hnil
    obtain rfl := Extractor.openAfter_of_track htrack
    obtain ⟨r, rs, hcons, rfl⟩ := exists_splitRuns_cons (t.openAfter opened) u post
    have hruns := flatMap_splitRuns (t.openAfter opened) (r.first :: post)
    rw [List.nil_append, List.nodup_cons, ← hruns, List.mem_flatMap, hcons] at hnodup
    obtain ⟨hnot, -⟩ := hnodup
    have hne : r.first ≠ t := by
      rintro rfl
      exact hnot ⟨r, List.mem_cons_self, List.mem_cons_self⟩
    rw [List.nil_append, splitRuns, hcons]
    dsimp only
    cases endsLine (t.openAfter opened) t r.first with
    | true =>
      -- The first token stands alone, and it does not come again.
      rw [if_pos rfl]
      simp only [reduceCtorEq, iff_false]
      rintro ⟨s, hs, ht, hu⟩
      rcases List.mem_cons.mp hs with rfl | hs
      · exact hne (List.mem_singleton.mp hu)
      · exact hnot ⟨s, hs, ht⟩
    | false =>
      rw [if_neg (by decide)]
      simp [LineRun.tokens]
  | cons a pre ih =>
    obtain ⟨middle, htrack, hrest⟩ := tracks_cons_iff.mp htracks
    obtain rfl := Extractor.openAfter_of_track htrack
    obtain ⟨ha, hnodup⟩ := List.nodup_cons.mp hnodup
    have ht : t ≠ a := by
      rintro rfl
      simp at ha
    have hu : u ≠ a := by
      rintro rfl
      simp at ha
    rw [List.cons_append, exists_mem_splitRuns_cons ht hu]
    exact ih hrest hnodup

end

/-! ### Where a line ends -/

/-- A line ends between the neighbours `t` and `u` of a text; `front` are the tokens in front of
them. -/
def EndsBetween (source : Text) (front : List Token) (t u : Token) : Prop :=
  (∃ between, StandsAt source t.stop u.start between ∧ '\n' ∈ between) ∨
    t.punctIs "\x7b" = true ∨ t.punctIs "\x7d" = true ∨ u.punctIs "\x7d" = true ∨
    (t.punctIs ";" = true ∧ ∃ o, Innermost (front ++ [t]) o ∧ o.punctIs "\x7b" = true)

/-- What the stack says is what the text says.  The innermost open delimiter is the top of the
stack, and the gap is what stands between the tokens. -/
theorem endsLine_iff {source : Text} {front behind opened : List Token} {t u o : Token}
    (htokens : (lex source).tokens = front ++ t :: u :: behind) (ho : Innermost (front ++ [t]) o) :
    endsLine (o :: opened) t u = true ↔ EndsBetween source front t u := by
  have hsplit : (lex source).tokens = front ++ t :: ([] ++ u :: behind) := htokens
  have hgap : StandsAt source t.stop u.start u.gap := standsAt_between hsplit
  have hline : (∃ between, StandsAt source t.stop u.start between ∧ '\n' ∈ between) ↔
      u.gap.breaksLine = true := by
    constructor
    · rintro ⟨between, hbetween, hmem⟩
      rw [hbetween.text_eq hgap] at hmem
      simpa [Text.breaksLine] using hmem
    · exact fun h => ⟨u.gap, hgap, by simpa [Text.breaksLine] using h⟩
  have hinnermost : (∃ o', Innermost (front ++ [t]) o' ∧ o'.punctIs "\x7b" = true) ↔
      o.punctIs "\x7b" = true := by
    constructor
    · rintro ⟨o', ho', hbrace⟩
      rwa [ho.unique ho']
    · exact fun h => ⟨o, ho, h⟩
  rw [EndsBetween, hline, hinnermost, endsLine]
  simp [or_assoc]

/-- No token comes twice. -/
theorem nodup_lex (source : Text) : (lex source).tokens.Nodup := by
  refine (placed_of_lex source).pairwise.imp_of_mem fun {t u} ht _ hstop heq => ?_
  have hpos := start_lt_stop_of_lex source t ht
  rw [← heq] at hstop
  omega

/-! ### The lines of a body -/

/-- The body of a declaration is broken into its lines as the text says. -/
structure Declaration.BrokenIntoLines (d : Declaration) (source : Text) : Prop where
  /-- The lines hold the tokens between the braces, in their order. -/
  whole : d.lines.flatMap (fun line => line.tokensIn source) = d.bodyTokens source
  counts : ∀ line ∈ d.lines, line.tokenCount = (line.tokensIn source).length
  /-- Every token is in one line. -/
  once : ∀ t ∈ d.bodyTokens source, ∃! line, line ∈ d.lines ∧ t ∈ line.tokensIn source
  /-- Neighbours are in different lines exactly where a line ends. -/
  breaks : ∀ front t u behind, (lex source).tokens = front ++ t :: u :: behind →
    t ∈ d.bodyTokens source → u ∈ d.bodyTokens source →
    ((¬∃ line ∈ d.lines, t ∈ line.tokensIn source ∧ u ∈ line.tokensIn source) ↔
      EndsBetween source front t u)

section

variable {source : Text} {options : Options} {d : Declaration}

/-- Neighbours between delimiters.  A token is found at one place of the text only, which tells
what stands in front of it. -/
theorem exists_neighbours {before front behind after inner : List Token} {brace close t u : Token}
    (htokens : (lex source).tokens = before ++ brace :: (inner ++ close :: after))
    (hneighbours : (lex source).tokens = front ++ t :: u :: behind) (ht : t ∈ inner)
    (hu : u ∈ inner) :
    ∃ pre post, inner = pre ++ t :: u :: post ∧ front = before ++ brace :: pre := by
  have hnodup := nodup_lex source
  rw [htokens] at hnodup hneighbours
  obtain ⟨-, -, hclose⟩ := List.nodup_append.mp (List.nodup_append.mp hnodup).2.1.of_cons
  obtain ⟨pre, rest, rfl⟩ := List.append_of_mem ht
  rw [show before ++ brace :: (pre ++ t :: rest ++ close :: after) =
    (before ++ brace :: pre) ++ t :: (rest ++ close :: after) by simp] at hneighbours hnodup
  have honce := (List.nodup_cons.mp (List.nodup_middle.mp hnodup)).1
  rw [List.mem_append, not_or] at honce
  obtain ⟨rfl, -, hrest⟩ :=
    (List.append_cons_inj_of_notMem honce.1 honce.2).mp hneighbours
  cases rest with
  | nil =>
    obtain ⟨rfl, -⟩ := List.cons.inj hrest
    exact absurd rfl (hclose close hu close List.mem_cons_self)
  | cons v rest =>
    obtain ⟨rfl, -⟩ := List.cons.inj hrest
    exact ⟨pre, rest, rfl, rfl⟩

/-- **Neighbours of a body are in different lines exactly where a line ends.**  Lines are runs of
tokens, so two neighbours share none if and only if a run ends between them, and that is decided by
the delimiters open there. -/
theorem not_exists_line_iff (hd : d ∈ (extract source options).declarations)
    {front behind : List Token} {t u : Token}
    (hneighbours : (lex source).tokens = front ++ t :: u :: behind) (ht : t ∈ d.bodyTokens source)
    (hu : u ∈ d.bodyTokens source) :
    (¬∃ line ∈ d.lines, t ∈ line.tokensIn source ∧ u ∈ line.tokensIn source) ↔
      EndsBetween source front t u := by
  obtain ⟨before, after, brace, close, htokens, hbrace, hbody, hlines⟩ := exists_body_of_extract hd
  obtain ⟨pre, post, hinner, rfl⟩ := exists_neighbours htokens hneighbours ht hu
  have hbalanced : Balanced true (pre ++ [t] ++ u :: post) := by
    have hblock : Balanced true (d.bodyTokens source) := balanced_of_enclose hbody
    rw [hinner] at hblock
    simpa using hblock
  obtain ⟨o, outer, htracks, ho⟩ :=
    exists_innermost_of_balanced (opens_of_punctIs hbrace (by decide)) hbalanced
  have ho : Innermost (before ++ brace :: pre ++ [t]) o := by
    rw [List.append_assoc]
    exact ho.append_left before
  have hnodup : (pre ++ t :: u :: post).Nodup := by
    rw [← hinner]
    exact (nodup_lex source).filter _
  have hruns := exists_run_iff htracks hnodup
  rw [← hinner] at hruns
  have hsame : (∃ line ∈ d.lines, t ∈ line.tokensIn source ∧ u ∈ line.tokensIn source) ↔
      ∃ r ∈ splitRuns [brace] (d.bodyTokens source), t ∈ r.tokens ∧ u ∈ r.tokens := by
    have hmem : (∃ ts ∈ d.lines.map (fun line => line.tokensIn source), t ∈ ts ∧ u ∈ ts) ↔
        ∃ ts ∈ (splitRuns [brace] (d.bodyTokens source)).map LineRun.tokens, t ∈ ts ∧ u ∈ ts := by
      rw [hlines]
    simpa only [List.mem_map, exists_exists_and_eq_and] using hmem
  rw [hsame, hruns, Bool.not_eq_false, endsLine_iff hneighbours ho]

/-- **The body of a declaration is broken into its lines as the text says.**  A line ends behind a
token exactly where `EndsBetween` holds of it and the next one. -/
theorem brokenIntoLines_of_extract (source : Text) (options : Options) :
    ∀ d ∈ (extract source options).declarations, d.BrokenIntoLines source := by
  intro d hd
  have hwhole := flatMap_tokensIn hd
  refine ⟨hwhole, fun line hline => ?_, fun t ht => ?_, fun _ _ _ _ => not_exists_line_iff hd⟩
  · obtain ⟨site, -⟩ := exists_site_of_extract hd hline
    rw [site.tokensIn_eq, site.tokenCount_eq]
  · have hnodup : (d.lines.flatMap fun line => line.tokensIn source).Nodup :=
      hwhole ▸ (nodup_lex source).filter _
    rw [← hwhole, List.mem_flatMap] at ht
    obtain ⟨line, hline, hmem⟩ := ht
    refine ⟨line, ⟨hline, hmem⟩, fun other hother => ?_⟩
    exact eq_of_nodup_flatMap hnodup hother.1 hline hother.2 hmem

end

/-- Three lines: a `;` between parentheses ends none, and the brace behind the call stands on a line
of its own. -/
theorem brokenIntoLines_of_loop :
    ∃ d ∈ (extract "function f(a)\x7bfor(;;)\x7bg(a)\x7d\x7d".toList {}).declarations,
      d.lines.map LogicalLine.text = ["for(;;)\x7b".toList, "g(a)".toList, "\x7d".toList] ∧
        d.BrokenIntoLines "function f(a)\x7bfor(;;)\x7bg(a)\x7d\x7d".toList := by
  have hlines : ∃ d ∈ (extract "function f(a)\x7bfor(;;)\x7bg(a)\x7d\x7d".toList {}).declarations,
      d.lines.map LogicalLine.text = ["for(;;)\x7b".toList, "g(a)".toList, "\x7d".toList] := by
    decide +kernel
  obtain ⟨d, hd, htexts⟩ := hlines
  exact ⟨d, hd, htexts, brokenIntoLines_of_extract _ {} d hd⟩

end Twinfold
