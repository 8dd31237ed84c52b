import Twinfold.Proofs.Declaration.Walk

/-!
# Tokens that extraction does not tell apart

Extraction looks at the kinds and the texts of tokens and at the ends of lines between them.  So
a walk goes through alike tokens in the same way (`leadAt?_congr`, `track_congr`), wherever they
stand, and what it reads there is the same but for the places (`Walks.relocated`).
-/

namespace Twinfold

/-- Extraction does not tell the tokens apart. -/
def Token.Alike (t u : Token) : Prop :=
  t.word = u.word ∧ (t.kind = .ident → t.gap.breaksLine = u.gap.breaksLine)

theorem alike_of_bare {t u : Token} (h : t.bare = u.bare) : t.Alike u := by
  obtain ⟨hkind, hgap, htext⟩ := bare_eq_iff.mp h
  exact ⟨word_eq_iff.mpr ⟨hkind, htext⟩, fun _ => by rw [hgap]⟩

theorem word_eq_of_bare {t u : Token} (h : t.bare = u.bare) : t.word = u.word := (alike_of_bare h).1

/-! ### Leads -/

section

variable {previous previous' beforePrevious beforePrevious' : Option Token} {t t' : Token}

/-- The `async` of a declaration that begins behind the two tokens. -/
def asyncOf (previous beforePrevious : Option Token) : Option Token :=
  previous.filter fun p => p.identIs "async" && beginsStatement beforePrevious p

/-- The token before a declaration. -/
def openerOf (previous beforePrevious : Option Token) : Option Token :=
  if (asyncOf previous beforePrevious).isSome then beforePrevious else previous

/-- Whether a declaration is a default export. -/
def afterDefaultOf (previous beforePrevious : Option Token) : Bool :=
  (openerOf previous beforePrevious).any fun o => o.identIs "default"

/-- Whether a declaration begins at a token. -/
def leads (previous beforePrevious : Option Token) (t : Token) (rest : List Token) : Bool :=
  t.identIs "function" &&
    ((asyncOf previous beforePrevious).isSome || !previous.any fun p => p.identIs "async") &&
    beginsStatement (openerOf previous beforePrevious) ((asyncOf previous beforePrevious).getD t) &&
    continuesDeclaration (afterDefaultOf previous beforePrevious) rest

/-- Whether a declaration begins at a token, and how, as two separate questions. -/
theorem leadAt?_eq (previous beforePrevious : Option Token) (t : Token) (rest : List Token) :
    leadAt? previous beforePrevious t rest =
      if leads previous beforePrevious t rest then
        some ⟨(asyncOf previous beforePrevious).getD t, t, (asyncOf previous beforePrevious).isSome,
          afterDefaultOf previous beforePrevious⟩
      else none := by
  cases previous with
  | none => simp [leadAt?, leads, afterDefaultOf, openerOf, asyncOf]
  | some p =>
    cases hasync : p.identIs "async" <;> cases hbegins : beginsStatement beforePrevious p <;>
      simp [leadAt?, leads, afterDefaultOf, openerOf, asyncOf, Option.filter, hasync, hbegins]

theorem endsExpression_congr (h : t.word = t'.word) : t.endsExpression = t'.endsExpression := by
  simp only [Token.endsExpression, isAnyOf_congr h, (word_eq_iff.mp h).1]

/-- Only in front of a word the end of a line counts. -/
theorem beginsStatement_congr {opener opener' : Option Token}
    (hopener : Option.Rel Token.Alike opener opener')
    (h : t.gap.breaksLine = t'.gap.breaksLine) :
    beginsStatement opener t = beginsStatement opener' t' := by
  cases hopener with
  | none => rfl
  | some halike =>
    simp only [beginsStatement, isAnyOf_congr halike.1, endsExpression_congr halike.1, h,
      (word_eq_iff.mp halike.1).1]

theorem identIs_kind {text : String} (h : t.identIs text = true) : t.kind = .ident :=
  congrArg Prod.fst (identIs_iff.mp h)

/-- Alike tokens are the same words. -/
theorem any_identIs_congr {text : String} (h : Option.Rel Token.Alike previous previous') :
    (previous.any fun p => p.identIs text) = previous'.any fun p => p.identIs text := by
  cases h with
  | none => rfl
  | some halike => exact identIs_congr halike.1 text

/-- The `async` of a declaration is an `async` behind which it begins.  Either none of them has
one, or both do. -/
theorem asyncOf_congr (hprevious : Option.Rel Token.Alike previous previous')
    (hbefore : Option.Rel Token.Alike beforePrevious beforePrevious') :
    (asyncOf previous beforePrevious = none ∧ asyncOf previous' beforePrevious' = none) ∨
      (asyncOf previous beforePrevious = previous ∧ asyncOf previous' beforePrevious' = previous' ∧
        previous.isSome ∧ previous.any fun p => p.identIs "async") := by
  cases hprevious with
  | none => exact .inl ⟨rfl, rfl⟩
  | @some p p' halike =>
    have hident := identIs_congr halike.1 "async"
    cases hasync : p.identIs "async" with
    | false =>
      rw [hasync] at hident
      simp [asyncOf, Option.filter, hasync, ← hident]
    | true =>
      have hbegins := beginsStatement_congr hbefore (halike.2 (identIs_kind hasync))
      rw [hasync] at hident
      cases hcase : beginsStatement beforePrevious p with
      | false =>
        rw [hcase] at hbegins
        simp [asyncOf, Option.filter, hcase, ← hbegins]
      | true =>
        rw [hcase] at hbegins
        simp [asyncOf, Option.filter, hasync, hcase, ← hbegins, ← hident]

/-- Whether a declaration goes on can be seen from the kind and the text of the next token. -/
theorem continuesDeclaration_congr {rest rest' : List Token} {afterDefault : Bool}
    (h : rest.head?.map Token.word = rest'.head?.map Token.word) :
    continuesDeclaration afterDefault rest = continuesDeclaration afterDefault rest' := by
  cases rest with
  | nil =>
    cases rest' with
    | nil => rfl
    | cons u us => cases h
  | cons t ts =>
    cases rest' with
    | nil => cases h
    | cons u us =>
      have hword : t.word = u.word := Option.some_inj.mp h
      simp only [continuesDeclaration, punctIs_congr hword, (word_eq_iff.mp hword).1]

/-- The token before a declaration, or before its `async`, is told by the two tokens in front of
the word `function`. -/
theorem openerOf_congr (hprevious : Option.Rel Token.Alike previous previous')
    (hbefore : Option.Rel Token.Alike beforePrevious beforePrevious') :
    Option.Rel Token.Alike (openerOf previous beforePrevious)
      (openerOf previous' beforePrevious') := by
  unfold openerOf
  rcases asyncOf_congr hprevious hbefore with ⟨hnone, hnone'⟩ | ⟨hasync, hasync', hsome, _⟩
  · rw [hnone, hnone']
    exact hprevious
  · rw [hasync, hasync']
    cases hprevious with
    | none => cases hsome
    | some halike => exact hbefore

/-- **Alike tokens lead alike.**  Whether a declaration begins depends on the words of two tokens
before it, on its own and on the next one, and for an `async` on whether a line is broken behind
it. -/
theorem leads_congr (hprevious : Option.Rel Token.Alike previous previous')
    (hbefore : Option.Rel Token.Alike beforePrevious beforePrevious') (ht : t.Alike t')
    {rest rest' : List Token} (hrest : rest.head?.map Token.word = rest'.head?.map Token.word) :
    leads previous beforePrevious t rest = leads previous' beforePrevious' t' rest' ∧
      afterDefaultOf previous beforePrevious = afterDefaultOf previous' beforePrevious' := by
  have hopener := openerOf_congr hprevious hbefore
  have hdefault : afterDefaultOf previous beforePrevious =
      afterDefaultOf previous' beforePrevious' := any_identIs_congr hopener
  refine ⟨?_, hdefault⟩
  unfold leads
  rw [identIs_congr ht.1, continuesDeclaration_congr hrest, hdefault, any_identIs_congr hprevious]
  cases hfunction : t'.identIs "function" with
  | false => rfl
  | true =>
    have hkind := identIs_kind ((identIs_congr ht.1 "function").trans hfunction)
    rcases asyncOf_congr hprevious hbefore with ⟨hnone, hnone'⟩ | ⟨hasync, hasync', hsome, hident⟩
    · rw [hnone, hnone', Option.getD_none, Option.getD_none,
        beginsStatement_congr hopener (ht.2 hkind)]
    · rw [hasync, hasync']
      cases hprevious with
      | none => cases hsome
      | some halike =>
        rw [Option.getD_some, Option.getD_some,
          beginsStatement_congr hopener (halike.2 (identIs_kind hident))]
        rfl

end

/-! ### Delimiters -/

/-- The open delimiters have the same words behind two tokens that have. -/
theorem map_word_openAfter {opened opened' : List Token} {t t' : Token}
    (hopened : opened.map Token.word = opened'.map Token.word) (ht : t.word = t'.word) :
    (t.openAfter opened).map Token.word = (t'.openAfter opened').map Token.word := by
  unfold Token.openAfter
  rw [opens_congr ht, closes_congr ht]
  split_ifs
  · rw [List.map_cons, List.map_cons, hopened, ht]
  · rw [List.map_tail, List.map_tail, hopened]
  · exact hopened

/-- Delimiters are kept track of by their words: where one walk can pass a token, the other one
can. -/
theorem track_congr {opened opened' : List Token} {t t' : Token}
    (hopened : opened.map Token.word = opened'.map Token.word) (ht : t.word = t'.word)
    (h : Extractor.track opened t = .ok (t.openAfter opened)) :
    Extractor.track opened' t' = .ok (t'.openAfter opened') := by
  unfold Extractor.track at h ⊢
  unfold Token.openAfter
  rw [opens_congr ht, closes_congr ht] at h
  split_ifs at h ⊢
  · rfl
  · cases opened with
    | nil => cases h
    | cons o os =>
      cases opened' with
      | nil => cases hopened
      | cons o' os' =>
        obtain ⟨ho, _⟩ := List.cons.inj hopened
        dsimp only at h ⊢
        rw [closedBy_congr ho ht] at h
        split at h
        · rename_i hclosed
          rw [if_pos hclosed]
          rfl
        · cases h
  · rfl

/-! ### Parts in another place -/

/-- The parts are the same but for the places of the tokens. -/
structure Parts.Same (p q : Parts) : Prop where
  async : p.async.map Token.bare = q.async.map Token.bare
  keyword : p.keyword.bare = q.keyword.bare
  star : SameTokens p.star.toList q.star.toList
  ident : SameTokens p.ident.toList q.ident.toList
  paren : p.paren.bare = q.paren.bare
  params : SameTokens p.params q.params
  parenClose : p.parenClose.bare = q.parenClose.bare
  brace : p.brace.bare = q.brace.bare
  inner : SameTokens p.inner q.inner
  braceClose : p.braceClose.bare = q.braceClose.bare

theorem Parts.Same.symm {p q : Parts} (h : p.Same q) : q.Same p :=
  ⟨h.async.symm, h.keyword.symm, h.star.symm, h.ident.symm, h.paren.symm, h.params.symm,
    h.parenClose.symm, h.brace.symm, h.inner.symm, h.braceClose.symm⟩

/-- The parts with other tokens in place of the tokens. -/
def Parts.map (f : Token → Token) (p : Parts) : Parts where
  async := p.async.map f
  keyword := f p.keyword
  star := p.star.map f
  ident := p.ident.map f
  paren := f p.paren
  params := p.params.map f
  parenClose := f p.parenClose
  brace := f p.brace
  inner := p.inner.map f
  braceClose := f p.braceClose

theorem Parts.map_map (f g : Token → Token) (p : Parts) : (p.map g).map f = p.map (f ∘ g) := by
  simp [map]

theorem Parts.unit_map (f : Token → Token) (p : Parts) : (p.map f).unit = p.unit.map f := by
  simp [map, unit, signature, block, Option.toList_map]

theorem Parts.tokens_map (f : Token → Token) (p : Parts) : (p.map f).tokens = p.tokens.map f := by
  rw [tokens, tokens, List.map_append, unit_map, ← Option.toList_map]
  rfl

/-- Parts are the same if each of them is but for places. -/
theorem Parts.same_of_map_bare {p q : Parts} (h : p.map Token.bare = q.map Token.bare) :
    p.Same q := by
  have hoption : ∀ {o o' : Option Token}, o.map Token.bare = o'.map Token.bare →
      SameTokens o.toList o'.toList := by
    intro o o' h
    rw [SameTokens, ← Option.toList_map, ← Option.toList_map, h]
  exact ⟨congrArg async h, congrArg keyword h, hoption (congrArg star h), hoption (congrArg ident h),
    congrArg paren h, congrArg params h, congrArg parenClose h, congrArg brace h, congrArg inner h,
    congrArg braceClose h⟩

/-- What is mapped to at most one token is at most one token. -/
theorem exists_option_of_map {f : Token → Token} {ts : List Token} {o : Option Token}
    (h : ts.map f = o.toList) : ∃ o' : Option Token, ts = o'.toList ∧ o'.map f = o := by
  cases o with
  | none => exact ⟨none, List.map_eq_nil_iff.mp h, rfl⟩
  | some t =>
    obtain ⟨u, rfl, hu⟩ := List.map_eq_singleton_iff.mp h
    exact ⟨some u, rfl, congrArg some hu⟩

/-- Tokens that become those of a declaration are those of a declaration. -/
theorem exists_parts_of_map {f : Token → Token} {p : Parts} {ts : List Token}
    (h : ts.map f = p.unit) : ∃ q : Parts, ts = q.unit ∧ ∀ async : Option Token,
      async.map f = p.async → Parts.map f { q with async } = p := by
  simp only [Parts.unit, Parts.signature, Parts.block, List.map_eq_cons_iff,
    List.map_eq_append_iff, List.map_eq_nil_iff] at h
  obtain ⟨keyword, _, rfl, hkeyword, _, _, rfl, ⟨_, _, rfl, ⟨_, _, rfl, ⟨star, ident, rfl, hstar, hident⟩,
    paren, params, rfl, hparen, hparams⟩, parenClose, _, rfl, hparenClose, rfl⟩, brace, _, rfl, hbrace,
    inner, _, rfl, hinner, braceClose, _, rfl, hbraceClose, rfl⟩ := h
  obtain ⟨star, rfl, hstarMap⟩ := exists_option_of_map hstar
  obtain ⟨ident, rfl, hidentMap⟩ := exists_option_of_map hident
  refine ⟨⟨none, keyword, star, ident, paren, params, parenClose, brace, inner, braceClose⟩, rfl,
    fun async hasync => ?_⟩
  simp only [Parts.map, hasync, hkeyword, hstarMap, hidentMap, hparen, hparams, hparenClose, hbrace,
    hinner, hbraceClose]

/-- Tokens that are mapped to the tokens of a function are those of a function. -/
theorem exists_parts_of_map_tokens {f : Token → Token} {p : Parts} {ts : List Token}
    (h : ts.map f = p.tokens) : ∃ q : Parts, ts = q.tokens ∧ q.map f = p := by
  obtain ⟨front, us, rfl, hfront, hus⟩ := List.map_eq_append_iff.mp h
  obtain ⟨async, rfl, hasync⟩ := exists_option_of_map hfront
  obtain ⟨q, rfl, hq⟩ := exists_parts_of_map hus
  exact ⟨{ q with async }, rfl, hq async hasync⟩

/-- Tokens that are the same as those of a declaration are those of a declaration. -/
theorem exists_parts_of_sameTokens {p : Parts} {ts : List Token} (h : SameTokens ts p.unit) :
    ∃ q : Parts, ts = q.unit ∧ ∀ async : Option Token,
      async.map Token.bare = p.async.map Token.bare → Parts.Same { q with async } p := by
  obtain ⟨q, hq, hmap⟩ := exists_parts_of_map (h.trans (p.unit_map Token.bare).symm)
  exact ⟨q, hq, fun async hasync => Parts.same_of_map_bare (hmap async hasync)⟩

/-- Delimiters enclose the same tokens wherever they stand. -/
theorem enclose_of_same {opener opener' close close' : Token} {inner inner' : List Token}
    (h : enclose none opener [] (inner ++ [close]) = .ok ⟨inner, close, []⟩)
    (hopener : opener.bare = opener'.bare) (hinner : SameTokens inner inner')
    (hclose : close.bare = close'.bare) :
    enclose none opener' [] (inner' ++ [close']) = .ok ⟨inner', close', []⟩ :=
  enclose_congr h (word_eq_of_bare hopener) rfl
    (map_delimiter_congr (map_word_of_sameTokens hinner)) (word_eq_of_bare hclose) []

/-- Parts that are the same are well-formed together, since all that is asked of them are kinds,
texts and balance. -/
theorem Parts.WellFormed.of_same {p q : Parts} {afterDefault : Bool} (h : p.WellFormed afterDefault)
    (hsame : p.Same q) : q.WellFormed afterDefault := by
  refine ⟨?_, ?_, ?_, ?_, enclose_of_same h.params hsame.paren hsame.params hsame.parenClose, ?_,
    enclose_of_same h.inner hsame.brace hsame.inner hsame.braceClose⟩
  · have hstar := map_word_of_sameTokens hsame.star
    intro t ht
    rw [ht] at hstar
    obtain ⟨u, hu, hword⟩ : ∃ u ∈ p.star, u.word = t.word := by
      cases hcase : p.star with
      | none => simp [hcase] at hstar
      | some u => exact ⟨u, rfl, by simpa [hcase] using hstar⟩
    rw [← punctIs_congr hword]
    exact h.star u hu
  · have hident := map_word_of_sameTokens hsame.ident
    intro t ht
    rw [ht] at hident
    obtain ⟨u, hu, hword⟩ : ∃ u ∈ p.ident, u.word = t.word := by
      cases hcase : p.ident with
      | none => simp [hcase] at hident
      | some u => exact ⟨u, rfl, by simpa [hcase] using hident⟩
    rw [← (word_eq_iff.mp hword).1]
    exact h.ident u hu
  · intro hnone
    have hident := map_word_of_sameTokens hsame.ident
    rw [hnone] at hident
    exact h.named (by simpa using hident)
  · rw [← punctIs_congr (word_eq_of_bare hsame.paren)]
    exact h.paren
  · rw [← punctIs_congr (word_eq_of_bare hsame.brace)]
    exact h.brace

/-! ### What is read -/

/-- The pieces of a parameter list are told by the gaps and the texts of its tokens.  Their places
do not matter, and the depth changes alike at every delimiter. -/
theorem paramPieces_congr (closing : Text) (depth : Nat) {ts us : List Token}
    (h : SameTokens ts us) : paramPieces closing depth ts = paramPieces closing depth us := by
  induction ts generalizing depth us with
  | nil =>
    obtain rfl : us = [] := by simpa [SameTokens, eq_comm] using h
    rfl
  | cons t ts ih =>
    cases us with
    | nil => cases h
    | cons u us =>
      obtain ⟨hbare, hrest⟩ := List.cons.inj h
      obtain ⟨_, hgap, htext⟩ := bare_eq_iff.mp hbare
      have hword := word_eq_of_bare hbare
      have hdepth : t.depthAfter depth = u.depthAfter depth := by
        simp only [Token.depthAfter, opens_congr hword, closes_congr hword]
      have hsource : t.source = u.source := by
        rw [Token.source, Token.source, hgap, htext]
      rw [paramPieces, paramPieces, punctIs_congr hword, ih depth hrest, hdepth, ih _ hrest, hgap,
        hsource]

/-- Whether a line ends between two tokens is told by their words, the open delimiters and the gap
between them. -/
theorem endsLine_congr {opened opened' : List Token} {t t' u u' : Token}
    (hopened : opened.map Token.word = opened'.map Token.word) (ht : t.word = t'.word)
    (hu : u.bare = u'.bare) : endsLine opened t u = endsLine opened' t' u' := by
  have hhead : (opened.head?.any fun o => o.punctIs "\x7b") =
      opened'.head?.any fun o => o.punctIs "\x7b" := by
    cases opened with
    | nil =>
      cases opened' with
      | nil => rfl
      | cons o' os' => cases hopened
    | cons o os =>
      cases opened' with
      | nil => cases hopened
      | cons o' os' => exact punctIs_congr (List.cons.inj hopened).1 _
  simp only [endsLine, hhead, punctIs_congr ht, punctIs_congr (word_eq_of_bare hu),
    (bare_eq_iff.mp hu).2.1]

/-- Lines are cut without looking at places.  The open delimiters, the words and the gaps decide
where a line ends, and none of these has a place. -/
theorem splitRuns_congr {opened opened' ts us : List Token}
    (hopened : opened.map Token.word = opened'.map Token.word) (h : SameTokens ts us) :
    (splitRuns opened ts).map (fun r => r.tokens.map Token.bare) =
      (splitRuns opened' us).map fun r => r.tokens.map Token.bare := by
  induction ts generalizing opened opened' us with
  | nil =>
    obtain rfl : us = [] := by simpa [SameTokens, eq_comm] using h
    rfl
  | cons t ts ih =>
    cases us with
    | nil => cases h
    | cons u us =>
      obtain ⟨hbare, hrest⟩ := List.cons.inj h
      have hword := word_eq_of_bare hbare
      have hopen := map_word_openAfter hopened hword
      have hmore := ih hopen hrest
      rw [splitRuns, splitRuns]
      cases hruns : splitRuns (t.openAfter opened) ts with
      | nil =>
        cases hruns' : splitRuns (u.openAfter opened') us with
        | nil => simpa [LineRun.tokens] using hbare
        | cons r' rs' =>
          rw [hruns, hruns'] at hmore
          cases hmore
      | cons r rs =>
        cases hruns' : splitRuns (u.openAfter opened') us with
        | nil =>
          rw [hruns, hruns'] at hmore
          cases hmore
        | cons r' rs' =>
          rw [hruns, hruns'] at hmore
          obtain ⟨hr, hrs⟩ := List.cons.inj hmore
          have hfirst : r.first.bare = r'.first.bare := (List.cons.inj hr).1
          dsimp only
          rw [endsLine_congr hopen hword hfirst]
          split
          · simp only [List.map_cons, LineRun.tokens, List.map_nil, hbare]
            exact congrArg _ hmore
          · rw [List.map_cons, List.map_cons, hrs]
            exact congrArg (· :: _) (List.cons_eq_cons.mpr ⟨hbare, hr⟩)

/-- What is read from a declaration, but for its place. -/
structure Declaration.SameAs (d e : Declaration) : Prop where
  name : d.name = e.name
  params : d.params = e.params
  header : d.header = e.header
  body : d.body = e.body
  lines : d.lines.map LogicalLine.text = e.lines.map LogicalLine.text

/-- The text from the first token of a list to the last. -/
def textOf : List Token → Text
  | [] => []
  | t :: ts => t.text ++ Token.sourceOf ts

/-- Places do not matter for the source of tokens, -/
theorem sourceOf_map_bare (ts : List Token) :
    Token.sourceOf (ts.map Token.bare) = Token.sourceOf ts := by
  refine SameTokens.sourceOf ?_
  simp [SameTokens, Token.bare]

/-- nor for its text. -/
@[simp] theorem textOf_map_bare (ts : List Token) : textOf (ts.map Token.bare) = textOf ts := by
  cases ts with
  | nil => rfl
  | cons t ts => rw [List.map_cons, textOf, textOf, sourceOf_map_bare, Token.bare]

/-- The texts of lines without the blanks around them. -/
theorem map_text_readLines (opener : Token) (inner : List Token) (closing : Text) :
    (readLines true opener inner closing).map LogicalLine.text =
      (splitRuns [opener] inner).map fun r => textOf r.tokens := by
  simp only [readLines, if_true, List.map_map]
  refine List.map_congr_left fun r _ => ?_
  simp [LineRun.toLine, LineRun.tokens, textOf]

/-- The texts of lines without the white space around them are told by the tokens of the body. -/
theorem map_text_readLines_congr {opener opener' : Token} {inner inner' : List Token}
    (closing closing' : Text) (hopener : opener.word = opener'.word) (h : SameTokens inner inner') :
    (readLines true opener inner closing).map LogicalLine.text =
      (readLines true opener' inner' closing').map LogicalLine.text := by
  have hopened : [opener].map Token.word = [opener'].map Token.word := by simp [hopener]
  have hruns := congrArg (List.map textOf) (splitRuns_congr hopened h)
  simp only [List.map_map, Function.comp_def, textOf_map_bare] at hruns
  rw [map_text_readLines, map_text_readLines, hruns]

/-- The same parts give one name.  Where there is no name both are called `default`. -/
theorem Parts.Same.name_eq {p q : Parts} (h : p.Same q) :
    p.ident.elim "default".toList Token.text = q.ident.elim "default".toList Token.text := by
  have hsame := h.ident
  cases hp : p.ident with
  | none =>
    cases hq : q.ident with
    | none => rfl
    | some u =>
      rw [hp, hq] at hsame
      cases hsame
  | some t =>
    cases hq : q.ident with
    | none =>
      rw [hp, hq] at hsame
      cases hsame
    | some u =>
      rw [hp, hq] at hsame
      exact (bare_eq_iff.mp (List.cons.inj hsame).1).2.2

/-- The same parts begin in the same way.  Both begin with `async`, or both with `function`. -/
theorem Parts.Same.first_eq {p q : Parts} (h : p.Same q) :
    p.first.text = q.first.text ∧ SameTokens (if p.async.isSome then [p.keyword] else [])
      (if q.async.isSome then [q.keyword] else []) := by
  have hsame := h.async
  unfold first
  cases hp : p.async with
  | none =>
    cases hq : q.async with
    | none => exact ⟨(bare_eq_iff.mp h.keyword).2.2, rfl⟩
    | some u => simp [hp, hq] at hsame
  | some t =>
    cases hq : q.async with
    | none => simp [hp, hq] at hsame
    | some u =>
      rw [hp, hq] at hsame
      refine ⟨(bare_eq_iff.mp (Option.some_inj.mp hsame)).2.2, ?_⟩
      simp [SameTokens, h.keyword]

/-- **The same parts are read as the same declaration.**  Index and scope are given from outside,
and where the parts stand in their texts is left out of the comparison. -/
theorem Parts.Same.read {p q : Parts} (h : p.Same q) (index index' : Nat)
    (scope scope' : Option Nat) :
    (p.read true index scope).SameAs (q.read true index' scope') := by
  obtain ⟨_, hcloseGap, _⟩ := bare_eq_iff.mp h.parenClose
  obtain ⟨_, hbraceGap, hbraceText⟩ := bare_eq_iff.mp h.brace
  have hsignature : SameTokens p.signature q.signature := by
    simp only [SameTokens, signature, List.map_append, List.map_cons, List.map_nil]
    rw [h.star, h.ident, h.paren, h.params, h.parenClose]
  obtain ⟨hfirst, hkeyword⟩ := h.first_eq
  have hlines := map_text_readLines_congr p.braceClose.gap q.braceClose.gap (word_eq_of_bare h.brace)
    h.inner
  refine ⟨h.name_eq, ?_, ?_, ?_, hlines⟩
  · simp only [Parts.read, readParams, paramPieces_congr _ _ h.params, hcloseGap]
  · simp only [Parts.read, hfirst, hbraceGap, sourceOf_append, SameTokens.sourceOf hkeyword,
      SameTokens.sourceOf hsignature]
  · simp only [Parts.read, hbraceText, sourceOf_append, SameTokens.sourceOf h.inner, sourceOf_cons,
      sourceOf_nil, (bare_eq_iff.mp h.braceClose).2]

/-! ### Walks in another place -/

/-- Tokens that are the same but for their places are alike. -/
theorem rel_alike_of_map_bare {o o' : Option Token} (h : o.map Token.bare = o'.map Token.bare) :
    Option.Rel Token.Alike o o' := by
  cases o with
  | none =>
    cases o' with
    | none => exact .none
    | some u => cases h
  | some t =>
    cases o' with
    | none => cases h
    | some u => exact .some (alike_of_bare (Option.some_inj.mp h))

/-- Which `async` belongs to a declaration is told by the two tokens in front of it. -/
theorem asyncOf_map_bare {previous previous' beforePrevious beforePrevious' : Option Token}
    (hprevious : previous.map Token.bare = previous'.map Token.bare)
    (hbefore : Option.Rel Token.Alike beforePrevious beforePrevious') :
    (asyncOf previous beforePrevious).map Token.bare =
      (asyncOf previous' beforePrevious').map Token.bare := by
  rcases asyncOf_congr (rel_alike_of_map_bare hprevious) hbefore with
    ⟨hnone, hnone'⟩ | ⟨hasync, hasync', _⟩
  · rw [hnone, hnone']
  · rw [hasync, hasync', hprevious]

theorem eq_of_getD_eq {o o' : Option Token} {t : Token} (h : o.getD t = o'.getD t)
    (hsome : o.isSome = o'.isSome) : o = o' := by
  cases o <;> cases o' <;> simp_all

/-- The first token of the same tokens is the same word. -/
theorem head?_word_of_sameTokens {ts us : List Token} (h : SameTokens ts us) :
    ts.head?.map Token.word = us.head?.map Token.word := by
  have hmap := map_word_of_sameTokens h
  rw [← List.head?_map, ← List.head?_map, hmap]

/-- Where no declaration begins, none begins in another place. -/
theorem leadAt?_eq_none_of_alike {previous previous' beforePrevious beforePrevious' : Option Token}
    {t t' : Token} {rest rest' : List Token} (hprevious : Option.Rel Token.Alike previous previous')
    (hbefore : Option.Rel Token.Alike beforePrevious beforePrevious') (ht : t.Alike t')
    (hrest : rest.head?.map Token.word = rest'.head?.map Token.word)
    (h : leadAt? previous beforePrevious t rest = none) :
    leadAt? previous' beforePrevious' t' rest' = none := by
  rw [leadAt?_eq, (leads_congr hprevious hbefore ht hrest).1] at h
  rw [leadAt?_eq]
  split at h
  · cases h
  · rename_i hnot
    rw [if_neg hnot]

/-- Where a declaration begins, it begins in another place, with the `async` that stands there.
The token in front of the new place is the `async` that the parts begin with there. -/
theorem exists_same_of_lead {previous previous' beforePrevious beforePrevious' : Option Token}
    {p : Parts} {ts rest rest' : List Token} {afterDefault : Bool}
    (hprevious : previous.map Token.bare = previous'.map Token.bare)
    (hbefore : Option.Rel Token.Alike beforePrevious beforePrevious') (hts : SameTokens ts p.unit)
    (hrest : SameTokens rest' rest)
    (h : leadAt? previous beforePrevious p.keyword (p.signature ++ p.block ++ rest) =
      some (p.lead afterDefault)) :
    ∃ q : Parts, ts = q.unit ∧ q.Same p ∧
      leadAt? previous' beforePrevious' q.keyword (q.signature ++ q.block ++ rest') =
        some (q.lead afterDefault) := by
  obtain ⟨q, rfl, hq⟩ := exists_parts_of_sameTokens hts
  rw [leadAt?_eq, Option.ite_none_right_eq_some] at h
  obtain ⟨hleads, hlead⟩ := h
  simp only [Option.some.injEq, Parts.lead, Lead.mk.injEq, true_and] at hlead
  obtain ⟨hfirst, hisSome, hdefault⟩ := hlead
  have hasync := asyncOf_map_bare hprevious hbefore
  rw [eq_of_getD_eq hfirst hisSome] at hasync
  have hsame := hq _ hasync.symm
  have hbehind : SameTokens (p.signature ++ p.block ++ rest) (q.signature ++ q.block ++ rest') := by
    have hunit : SameTokens (q.signature ++ q.block) (p.signature ++ p.block) :=
      (List.cons.inj hts).2
    rw [SameTokens, List.map_append, ← hrest, ← hunit, ← List.map_append]
  obtain ⟨hleads', hdefault'⟩ := leads_congr (rel_alike_of_map_bare hprevious) hbefore
    (alike_of_bare hsame.keyword.symm) (head?_word_of_sameTokens hbehind)
  refine ⟨{ q with async := asyncOf previous' beforePrevious' }, rfl, hsame, ?_⟩
  rw [hleads'] at hleads
  rw [leadAt?_eq]
  change (if leads previous' beforePrevious' q.keyword
    (q.signature ++ q.block ++ rest') then _ else none) = _
  rw [if_pos hleads, ← hdefault', hdefault]
  rfl

/-- **Walks in another place.**  Tokens that are the same but for their places are walked in the
same way, and the same declarations are read. -/
theorem Walks.relocated {previous beforePrevious : Option Token} {opened : List Token}
    {items : List Item} (h : Walks 0 previous beforePrevious opened items []) {ts : List Token}
    (hts : SameTokens ts (tokensOf items)) {previous' beforePrevious' : Option Token}
    {opened' : List Token} (hprevious : previous.map Token.bare = previous'.map Token.bare)
    (hbefore : Option.Rel Token.Alike beforePrevious beforePrevious')
    (hopened : opened.map Token.word = opened'.map Token.word) (index index' : Nat) :
    ∃ items', ts = tokensOf items' ∧ Walks 0 previous' beforePrevious' opened' items' [] ∧
      List.Forall₂ Declaration.SameAs (declarationsOf true index opened items)
        (declarationsOf true index' opened' items') := by
  have hrel := rel_alike_of_map_bare hprevious
  induction items generalizing previous beforePrevious opened ts previous' beforePrevious' opened'
    index index' with
  | nil =>
    obtain rfl : ts = [] := List.map_eq_nil_iff.mp hts
    refine ⟨[], rfl, fun _ => ?_, .nil⟩
    rw [h rfl] at hopened
    exact List.map_eq_nil_iff.mp hopened.symm
  | cons item items ih =>
    rw [tokensOf_cons, SameTokens, List.map_append] at hts
    obtain ⟨front, us, rfl, hfront, hus⟩ := List.map_eq_append_iff.mp hts
    cases item with
    | token t =>
      obtain ⟨hlead, htrack, hwalks⟩ := h
      obtain ⟨u, rfl, hbare⟩ := List.map_eq_singleton_iff.mp hfront
      have hword := word_eq_of_bare hbare
      obtain ⟨items', rfl, hwalks', hread⟩ := ih hwalks hus
        (by rw [Option.map_some, Option.map_some, hbare]) hrel
        (map_word_openAfter hopened hword.symm) index index' (.some (alike_of_bare hbare.symm))
      refine ⟨.token u :: items', rfl, ⟨fun _ => ?_, track_congr hopened hword.symm htrack, hwalks'⟩,
        hread⟩
      have hnone := hlead (Nat.zero_le _)
      rw [List.append_nil] at hnone ⊢
      exact leadAt?_eq_none_of_alike hrel hbefore (alike_of_bare hbare.symm)
        (head?_word_of_sameTokens hus).symm hnone
    | unit p =>
      obtain ⟨⟨afterDefault, hwell, _, hlead⟩, hwalks⟩ := h
      rw [List.append_nil] at hlead
      obtain ⟨q, rfl, hsame, hlead'⟩ := exists_same_of_lead hprevious hbefore hfront hus hlead
      obtain ⟨items', rfl, hwalks', hread⟩ := ih hwalks hus
        (by rw [Option.map_some, Option.map_some, hsame.braceClose]) .none hopened (index + 1)
        (index' + 1) (.some (alike_of_bare hsame.braceClose.symm))
      refine ⟨.unit q :: items', rfl,
        ⟨⟨afterDefault, hwell.of_same hsame.symm, Nat.zero_le _, ?_⟩, hwalks'⟩,
        .cons (hsame.symm.read _ _ _ _) hread⟩
      rw [List.append_nil]
      exact hlead'

end Twinfold
