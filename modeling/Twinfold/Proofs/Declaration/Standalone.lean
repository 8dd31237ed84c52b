import Twinfold.Proofs.Declaration.Records

/-!
# Declarations that stand alone

A declaration that is cut out of its text and read alone is the same declaration.  What the text
had in front of it is gone: tokens that told whether a slash divides, open delimiters, the words
`export default`.  None of it matters behind the first word of a declaration, and this word is
`async` or `function`.  Only a declaration without a name needs what stands in front of it.

* `Parts.read_shifted` — what is read from tokens does not depend on where they stand, but for the
  offsets that are recorded;
* `standalone_of_extract` — the text of a declaration holds this one declaration, with all offsets
  counted from its first byte.
-/

namespace Twinfold

/-! ### Shifts -/

/-- The line some bytes further on. -/
def LogicalLine.shifted (base : Nat) (line : LogicalLine) : LogicalLine :=
  { line with start := base + line.start, stop := base + line.stop }

/-- The declaration some bytes further on. -/
def Declaration.shifted (base : Nat) (d : Declaration) : Declaration :=
  { d with
    start := base + d.start
    bodyStart := base + d.bodyStart
    stop := base + d.stop
    lines := d.lines.map (LogicalLine.shifted base) }

/-- Nothing is moved by no bytes. -/
theorem Declaration.shifted_zero (d : Declaration) : d.shifted 0 = d := by
  have hlines : LogicalLine.shifted 0 = id := by
    funext line
    simp [LogicalLine.shifted]
  simp [shifted, hlines]

section

variable (base : Nat)

theorem Token.stop_shifted (t : Token) : (t.shifted base).stop = base + t.stop :=
  Nat.add_assoc _ _ _

theorem Token.bare_comp_shifted : Token.bare ∘ Token.shifted base = Token.bare := rfl

theorem sameTokens_map_shifted (ts : List Token) : SameTokens (ts.map (Token.shifted base)) ts := by
  rw [SameTokens, List.map_map, Token.bare_comp_shifted]

/-- Which delimiters are open does not depend on where the tokens stand. -/
theorem openAfter_shifted (opened : List Token) (t : Token) :
    (t.shifted base).openAfter (opened.map (Token.shifted base)) =
      (t.openAfter opened).map (Token.shifted base) := by
  have hopens : (t.shifted base).opens = t.opens := rfl
  have hcloses : (t.shifted base).closes = t.closes := rfl
  unfold Token.openAfter
  rw [hopens, hcloses]
  split_ifs <;> simp

/-- Where lines end does not depend on where the tokens stand. -/
theorem endsLine_shifted (opened : List Token) (t u : Token) :
    endsLine (opened.map (Token.shifted base)) (t.shifted base) (u.shifted base) =
      endsLine opened t u := by
  refine endsLine_congr ?_ rfl rfl
  rw [List.map_map]
  rfl

/-- The run some bytes further on. -/
def LineRun.shifted (r : LineRun) : LineRun :=
  ⟨r.first.shifted base, r.others.map (Token.shifted base)⟩

/-- Tokens are cut into the same runs wherever they stand.  A line ends by gaps, kinds and texts,
and positions have no part in it. -/
theorem splitRuns_shifted (opened ts : List Token) :
    splitRuns (opened.map (Token.shifted base)) (ts.map (Token.shifted base)) =
      (splitRuns opened ts).map (LineRun.shifted base) := by
  induction ts generalizing opened with
  | nil => rfl
  | cons t ts ih =>
    rw [List.map_cons, splitRuns, splitRuns, openAfter_shifted, ih]
    cases splitRuns (t.openAfter opened) ts with
    | nil => rfl
    | cons r rs =>
      have hends : endsLine ((t.openAfter opened).map (Token.shifted base)) (t.shifted base)
          (r.shifted base).first = endsLine (t.openAfter opened) t r.first :=
        endsLine_shifted base _ t r.first
      rw [List.map_cons]
      dsimp only
      rw [hends]
      split <;> rfl

/-- The line of a run, if the blanks in front of it are behind the beginning of the text. -/
theorem toLine_shifted {r : LineRun} {before : Text} (h : before.size ≤ r.first.start)
    (behind : Text) : (r.shifted base).toLine before behind = (r.toLine before behind).shifted base := by
  have hlast : (r.shifted base).last.stop = base + r.last.stop := by
    rw [← Token.stop_shifted]
    cases hothers : r.others.getLast? <;> simp [LineRun.last, LineRun.shifted, hothers]
  have hstart : (r.shifted base).first.start - before.size = base + (r.first.start - before.size) :=
    Nat.add_sub_assoc h base
  have hsource := SameTokens.sourceOf (sameTokens_map_shifted base r.others)
  simp only [LineRun.toLine, LogicalLine.shifted, hlast, hstart]
  simp [LineRun.shifted, hsource, Token.shifted, Nat.add_assoc]

/-- Lines with their blanks move with the tokens, as long as no gap reaches beyond the beginning of
the text. -/
theorem wideLines_shifted {closing before : Text} {runs : List LineRun}
    (hbefore : ∀ r ∈ runs.head?, before.size ≤ r.first.start)
    (hgaps : ∀ r ∈ runs, r.first.gap.size ≤ r.first.start) :
    wideLines closing before (runs.map (LineRun.shifted base)) =
      (wideLines closing before runs).map (LogicalLine.shifted base) := by
  induction runs generalizing before with
  | nil => rfl
  | cons r rs ih =>
    have hindent : (indentAtEnd before).size ≤ r.first.start :=
      (Text.size_le_of_suffix (indentAtEnd_suffix before)).trans (hbefore r rfl)
    cases rs with
    | nil => simp only [List.map_cons, List.map_nil, wideLines, toLine_shifted base hindent]
    | cons s rs =>
      rw [List.forall_mem_cons] at hgaps
      have hrest : Text.size (s.first.gap.dropWhile isIndent) ≤ s.first.start :=
        (Text.size_le_of_suffix (List.dropWhile_suffix _)).trans (hgaps.2 s List.mem_cons_self)
      have hmore := @ih (s.first.gap.dropWhile isIndent) (by simpa using hrest) hgaps.2
      simp only [List.map_cons, wideLines, toLine_shifted base hindent] at hmore ⊢
      rw [← hmore]
      rfl

/-- **Lines of a moved body.**  The lines of a body that stands elsewhere are the same lines,
elsewhere, with and without white space. -/
theorem readLines_shifted (normalize : Bool) (opener : Token) {inner : List Token} (closing : Text)
    (hgaps : ∀ t ∈ inner, t.gap.size ≤ t.start) :
    readLines normalize (opener.shifted base) (inner.map (Token.shifted base)) closing =
      (readLines normalize opener inner closing).map (LogicalLine.shifted base) := by
  have hruns := splitRuns_shifted base [opener] inner
  have hall := flatMap_splitRuns [opener] inner
  have hfirst : ∀ r ∈ splitRuns [opener] inner, r.first.gap.size ≤ r.first.start := by
    intro r hr
    refine hgaps r.first ?_
    rw [← hall]
    exact List.mem_flatMap.mpr ⟨r, hr, List.mem_cons_self⟩
  rw [List.map_singleton] at hruns
  unfold readLines
  dsimp only
  rw [hruns]
  split
  · rw [List.map_map, List.map_map]
    exact List.map_congr_left fun r _ => toLine_shifted base (Nat.zero_le _) []
  · have hgap : ((inner.map (Token.shifted base)).head?.elim [] Token.gap) =
        inner.head?.elim [] Token.gap := by
      cases inner <;> rfl
    rw [hgap]
    refine wideLines_shifted base (fun r hr => ?_) hfirst
    obtain ⟨rs, hsplit⟩ := List.head?_eq_some_iff.mp hr
    rw [hsplit, List.flatMap_cons, LineRun.tokens, List.cons_append] at hall
    rw [← hall]
    exact hfirst r (by simp [hsplit])

theorem Parts.first_map (f : Token → Token) (p : Parts) : (p.map f).first = f p.first := by
  simp only [map, first]
  cases p.async <;> rfl

/-- **Reading does not depend on places**, but for the offsets that are recorded.  The line of the
text on which it begins is not moved, so it is left out. -/
theorem Parts.read_shifted (p : Parts) (hgaps : ∀ t ∈ p.inner, t.gap.size ≤ t.start)
    (normalize : Bool) (index : Nat) (scope : Option Nat) :
    (p.map (Token.shifted base)).read normalize index scope =
      { (p.read normalize index scope).shifted base with line := 0 } := by
  have hparams := paramPieces_congr p.parenClose.gap 0 (sameTokens_map_shifted base p.params)
  have hsource : ∀ ts, Token.sourceOf (ts.map (Token.shifted base)) = Token.sourceOf ts :=
    fun ts => SameTokens.sourceOf (sameTokens_map_shifted base ts)
  have hname : ((p.map (Token.shifted base)).ident.elim "default".toList Token.text) =
      p.ident.elim "default".toList Token.text := by
    simp only [map]
    cases p.ident <;> rfl
  have hsignature : (p.map (Token.shifted base)).signature = p.signature.map (Token.shifted base) := by
    simp [map, signature, Option.toList_map]
  have hkeyword : (if (p.map (Token.shifted base)).async.isSome then
      [(p.map (Token.shifted base)).keyword] else []) =
        (if p.async.isSome then [p.keyword] else []).map (Token.shifted base) := by
    simp only [map, Option.isSome_map]
    split <;> rfl
  have hinner : (p.map (Token.shifted base)).inner ++ [(p.map (Token.shifted base)).braceClose] =
      (p.inner ++ [p.braceClose]).map (Token.shifted base) := by
    simp [map]
  simp only [read, Declaration.shifted, Declaration.mk.injEq, first_map, hname, hsignature, hkeyword,
    hinner, ← List.map_append, hsource]
  refine ⟨trivial, trivial, congrArg paramsOfPieces hparams, ?_,
    readLines_shifted base normalize p.brace p.braceClose.gap hgaps, rfl, rfl,
    Token.stop_shifted base _, rfl, trivial, rfl, rfl⟩
  simp [map]

end

/-! ### The tokens of a declaration in front of a text -/

namespace Parts

/-- The parts without the gap in front of them. -/
def atFront (p : Parts) : Parts :=
  match p.async with
  | some t => { p with async := some { t with gap := [] } }
  | none => { p with keyword := { p.keyword with gap := [] } }

variable {p : Parts}

/-- Only the first token loses its gap. -/
theorem tokens_atFront (p : Parts) : p.atFront.tokens =
    { p.first with gap := [] } :: (p.behindFirst ++ p.brace :: (p.inner ++ [p.braceClose])) := by
  unfold atFront first behindFirst tokens unit
  cases h : p.async <;> simp [signature, block]

/-- That gap is not recorded. -/
theorem read_atFront (p : Parts) (normalize : Bool) (index : Nat) (scope : Option Nat) :
    p.atFront.read normalize index scope = p.read normalize index scope := by
  unfold atFront
  cases h : p.async <;> simp [read, first, signature, Token.start, h]

theorem inner_atFront (p : Parts) : p.atFront.inner = p.inner := by
  unfold atFront
  split <;> rfl

/-- It does not matter for the form, either. -/
theorem WellFormed.atFront {afterDefault : Bool} (h : p.WellFormed afterDefault) :
    p.atFront.WellFormed afterDefault := by
  obtain ⟨hstar, hkind, hnamed, hparen, hparams, hbrace, hinner⟩ := h
  unfold Parts.atFront
  split <;> exact ⟨hstar, hkind, hnamed, hparen, hparams, hbrace, hinner⟩

/-- Parts are found without the gap in front of them, too. -/
theorem Found.atFront (h : p.Found) : p.atFront.Found := by
  refine ⟨h.wellFormed.imp fun _ => WellFormed.atFront, ?_, ?_⟩
  · unfold Parts.atFront
    split <;> exact h.function
  · unfold Parts.atFront
    cases hasync : p.async with
    | none => nofun
    | some t =>
      intro u hu
      obtain rfl : { t with gap := [] } = u := Option.some_inj.mp hu
      exact h.async t hasync

/-- Parts that are the same are found together. -/
theorem Found.of_same {q : Parts} (h : p.Found) (hsame : p.Same q) : q.Found := by
  refine ⟨h.wellFormed.imp fun _ hformed => hformed.of_same hsame, ?_, fun t ht => ?_⟩
  · rw [← identIs_congr (word_eq_of_bare hsame.keyword)]
    exact h.function
  · have hasync := hsame.async
    rw [ht, Option.map_some, Option.map_eq_some_iff] at hasync
    obtain ⟨u, hu, hbare⟩ := hasync
    rw [← identIs_congr (word_eq_of_bare hbare)]
    exact h.async u hu

/-- A declaration with a name is well-formed anywhere. -/
theorem WellFormed.of_named {afterDefault : Bool} (h : p.WellFormed afterDefault)
    (hident : p.ident ≠ none) : p.WellFormed false :=
  { h with named := fun hnone => absurd hnone hident }

/-- A declaration begins with the word `async` or with the word `function`. -/
theorem Found.first_text (h : p.Found) :
    p.first.text = "async".toList ∨ p.first.text = "function".toList := by
  unfold first
  cases hasync : p.async with
  | none => exact .inr (congrArg Prod.snd (identIs_iff.mp h.function))
  | some t => exact .inl (congrArg Prod.snd (identIs_iff.mp (h.async t hasync)))

/-- The text of a declaration is that of its tokens. -/
theorem sourceOf_atFront (p : Parts) (normalize : Bool) (index : Nat) (scope : Option Nat) :
    Token.sourceOf p.atFront.tokens = (p.read normalize index scope).source := by
  rw [tokens_atFront]
  simp [Declaration.source, read, behindFirst]

/-! ### Reading them -/

/-- The items of a text that holds nothing but a declaration. -/
def itemsAlone (p : Parts) : List Item := p.async.toList.map .token ++ [.unit p]

theorem tokensOf_itemsAlone (p : Parts) : tokensOf p.itemsAlone = p.tokens := by
  simp [itemsAlone, tokens, Item.tokens]

/-- A declaration with a name goes on with it, or with a star. -/
theorem WellFormed.continues (h : p.WellFormed false) (rest : List Token) :
    continuesDeclaration false (p.signature ++ rest) = true := by
  obtain ⟨t, ht⟩ := Option.ne_none_iff_exists'.mp fun hnone => absurd (h.named hnone) (by decide)
  cases hstar : p.star with
  | some s => simp [signature, hstar, continuesDeclaration, h.star s hstar]
  | none => simp [signature, hstar, ht, continuesDeclaration, h.ident t ht]

/-- With nothing but `async` in front of it, a declaration is found. -/
theorem Found.leadAt? (h : p.Found) (hformed : p.WellFormed false) (rest : List Token) :
    Twinfold.leadAt? p.async none p.keyword (p.signature ++ rest) = some (p.lead false) := by
  have hcontinues := hformed.continues rest
  rw [leadAt?_eq]
  cases hcase : p.async with
  | none =>
    simp [leads, asyncOf, openerOf, afterDefaultOf, beginsStatement, h.function, hcontinues, lead,
      first, hcase]
  | some t =>
    simp [leads, asyncOf, openerOf, afterDefaultOf, beginsStatement, h.function, hcontinues, lead,
      first, hcase, h.async t hcase, Option.filter]

/-- A word leaves the open delimiters as they are. -/
theorem openAfter_of_ident {t : Token} (h : t.kind = .ident) (opened : List Token) :
    t.openAfter opened = opened := by
  obtain ⟨hopens, hcloses⟩ := not_delimiter_of_ident h
  simp [Token.openAfter, hopens, hcloses]

/-- Extraction walks over a declaration that stands alone.  With `async` in front of the keyword it
passes over that word first. -/
theorem Found.walks_alone (h : p.Found) (hformed : p.WellFormed false) :
    Walks 0 none none [] p.itemsAlone [] := by
  have hlead := h.leadAt? hformed (p.block ++ [])
  unfold itemsAlone
  cases hcase : p.async with
  | none =>
    rw [hcase] at hlead
    exact ⟨⟨false, hformed, Nat.zero_le _, by simpa using hlead⟩, fun _ => rfl⟩
  | some t =>
    rw [hcase] at hlead
    have ht := h.async t hcase
    have hkind := identIs_kind ht
    obtain ⟨hopens, hcloses⟩ := not_delimiter_of_ident hkind
    have hfunction : t.identIs "function" = false := by
      rw [← Bool.not_eq_true, identIs_iff, identIs_iff.mp ht]
      decide
    refine ⟨fun _ => ?_, ?_, ⟨false, hformed, Nat.zero_le _, ?_⟩, fun _ => ?_⟩
    · simp [leadAt?_eq, leads, hfunction]
    · simp [Extractor.track, hopens, hcloses, openAfter_of_ident hkind]
    · simpa using hlead
    · exact openAfter_of_ident hkind []

/-- **A declaration that stands alone** is what is extracted of its text.  It gets the number zero
and no scope. -/
theorem Found.declarations_alone (h : p.Found) (hformed : p.WellFormed false) {source : Text}
    {options : Options} (hregion : options.region = none) (hts : tokenize source = .ok p.tokens) :
    declarations source options = .ok [p.read options.rules.normalizeWhitespace 0 none] := by
  rw [← tokensOf_itemsAlone] at hts
  rw [declarations_of_walks hregion hts (h.walks_alone hformed)]
  unfold itemsAlone
  cases hcase : p.async with
  | none => rfl
  | some t =>
    have hopen := openAfter_of_ident (identIs_kind (h.async t hcase)) []
    simp [declarationsOf, hopen, scopeOf]

end Parts

/-! ### Declarations with a name -/

/-- In the source a name stands behind the word `function` of the declaration, perhaps with a star
in between. -/
def Declaration.NamedIn (d : Declaration) (source : Text) : Prop :=
  ∃ (before after : List Token) (async star : Option Token) (keyword name : Token),
    (lex source).tokens = before ++ (async.toList ++ keyword :: (star.toList ++ name :: after)) ∧
    (∀ t ∈ async, t.identIs "async" = true) ∧ keyword.identIs "function" = true ∧
    (∀ t ∈ star, t.punctIs "*" = true) ∧ name.kind = .ident ∧
    d.start = (async.getD keyword).start

section

variable {p : Parts} {async star : Option Token} {keyword name : Token} {after behind : List Token}

/-- Behind the word `function` and a star there is a name, or none.  Without a name the parenthesis
would have to be the name. -/
theorem Parts.ident_ne_none {afterDefault : Bool} (hformed : p.WellFormed afterDefault)
    (hstar : ∀ t ∈ star, t.punctIs "*" = true) (hname : name.kind = .ident)
    (h : star.toList ++ name :: after = p.signature ++ behind) : p.ident ≠ none := by
  intro hnone
  have hparen : p.paren.punctIs "*" = false := punctIs_eq_false hformed.paren (by decide)
  have hplain : name.punctIs "*" = false := by simp [Token.punctIs, hname]
  have hsignature : p.signature ++ behind =
      p.star.toList ++ p.paren :: (p.params ++ p.parenClose :: behind) := by
    simp [signature, hnone]
  -- Both sides go on behind the star, the one with the name and the other one without it.
  have hleft : takeIf (fun t => t.punctIs "*") (star.toList ++ name :: after) =
      (star, name :: after) := takeIf_append hstar fun _ => by simpa using hplain
  have hright : takeIf (fun t => t.punctIs "*") (p.signature ++ behind) =
      (p.star, p.paren :: (p.params ++ p.parenClose :: behind)) := by
    rw [hsignature]
    exact takeIf_append hformed.star fun _ => by simpa using hparen
  rw [h, hright] at hleft
  obtain ⟨rfl, -⟩ := List.cons.inj (Prod.mk.inj hleft).2
  rw [(Prod.mk.inj (punctIs_iff.mp hformed.paren)).1] at hname
  cases hname

/-- The first of the tokens that begin with one that may be missing. -/
theorem toList_append_cons (o : Option Token) (t : Token) (ts : List Token) :
    o.toList ++ t :: ts = o.getD t :: ((if o.isSome then [t] else []) ++ ts) := by
  cases o <;> rfl

/-- A declaration that is extracted has the name that stands in the source.  The tokens are split
at the same place for both, so the name of the one stands where that of the other would. -/
theorem Parts.ident_ne_none_of_named {source : Text} {d : Declaration} {front : List Token}
    {afterDefault : Bool} (hformed : p.WellFormed afterDefault) (hfound : p.Found)
    (htokens : (lex source).tokens = front ++ p.first :: (p.behindFirst ++ behind))
    (hstart : d.start = p.first.start) (hnamed : d.NamedIn source) : p.ident ≠ none := by
  obtain ⟨before, after, async, star, keyword, name, hall, hasync, hkeyword, hstar, hname, hd⟩ := hnamed
  have hother : ∀ t : Token, t.identIs "async" = true → t.identIs "function" = true → False := by
    intro t ht ht'
    rw [identIs_iff] at ht ht'
    exact absurd (ht.symm.trans ht') (by decide)
  rw [toList_append_cons] at hall
  obtain ⟨-, hfirst, hrest⟩ := append_inj_of_start hall htokens (hd.symm.trans hstart)
  rw [first] at hfirst
  rw [behindFirst, List.append_assoc] at hrest
  -- Either both begin with `async` or neither does.
  cases hcase : async with
  | none =>
    cases hp : p.async with
    | none =>
      rw [hcase, hp] at hrest
      exact ident_ne_none hformed hstar hname hrest
    | some b =>
      have hfirst : keyword = b := by rwa [hcase, hp] at hfirst
      exact (hother b (hfound.async b hp) (hfirst ▸ hkeyword)).elim
  | some a =>
    cases hp : p.async with
    | none =>
      have hfirst : a = p.keyword := by rwa [hcase, hp] at hfirst
      exact (hother a (hasync a hcase) (hfirst ▸ hfound.function)).elim
    | some b =>
      rw [hcase, hp] at hrest
      exact ident_ne_none hformed hstar hname (List.cons.inj hrest).2

end

/-! ### Alone -/

/-- The text of a declaration holds the tokens of the declaration, with their places counted from
the first of them. -/
theorem Parts.exists_alone {source : Text} {front after : List Token} {p : Parts} (hfound : p.Found)
    (htokens : (lex source).tokens = front ++ p.first ::
      (p.behindFirst ++ p.brace :: (p.inner ++ p.braceClose :: after))) :
    ∃ q : Parts, tokenize (Token.sourceOf p.atFront.tokens) = .ok q.tokens ∧
      q.map (Token.shifted p.first.start) = p.atFront.map (Token.shifted 0) := by
  have hall : (lex source).tokens = front ++ p.first ::
      ((p.behindFirst ++ p.brace :: (p.inner ++ [p.braceClose])) ++ after) := by
    simp [htokens]
  have hspells : Spells none p.atFront.tokens [] := by
    rw [tokens_atFront]
    refine spells_alone_of_lex hall ?_
    rcases hfound.first_text with h | h <;> rw [h] <;> decide
  have hbang : hashBang (Token.sourceOf p.atFront.tokens) = [] := by
    refine hashBang_of_head? ?_
    rw [tokens_atFront, sourceOf_cons]
    rcases hfound.first_text with h | h <;> simp [h]
  have hsource : Token.sourceOf p.atFront.tokens =
      hashBang (Token.sourceOf p.atFront.tokens) ++ (Token.sourceOf p.atFront.tokens ++ []) := by
    rw [hbang, List.nil_append, List.append_nil]
  obtain ⟨ts, hts, hsame⟩ := tokenize_of_spells hsource hspells isClosing_nil
  rw [hbang, prependGap_nil] at hts
  have hplaced := placed_of_lex source
  rw [hall, placed_append_iff] at hplaced
  have hfront : Placed (p.first.start + 0) p.atFront.tokens := by
    rw [tokens_atFront]
    exact ⟨rfl, (placed_append_iff.mp hplaced.2.2).1⟩
  have hmap := (placed_of_tokenize hts).map_shifted hfront hsame
  rw [← tokens_map] at hmap
  obtain ⟨q, rfl, hq⟩ := exists_parts_of_map_tokens hmap
  exact ⟨q, hts, hq⟩

/-- **A declaration means the same on its own.**  The text of a declaration with a name, cut out of
its source, holds exactly this declaration: with the same name, parameters, flavour, header, body
and lines, and with all offsets counted from its first byte.  Only its number, its line and its
scope belong to the source. -/
theorem standalone_of_extract {source : Text} {options alone : Options} {d : Declaration}
    (hd : d ∈ (extract source options).declarations) (hnamed : d.NamedIn source)
    (hregion : alone.region = none)
    (hrules : alone.rules.normalizeWhitespace = options.rules.normalizeWhitespace) :
    StandsAt source d.start d.stop d.source ∧
      ∃ e, declarations d.source alone = .ok [e] ∧ e.start = 0 ∧
        d = { e.shifted d.start with index := d.index, line := d.line, scope := d.scope } := by
  obtain ⟨before, after, p, scope, htokens, hfound, hasync, hread⟩ := exists_parts_of_extract hd
  obtain ⟨_, hformed⟩ := hfound.wellFormed
  obtain ⟨front, hfront⟩ := Parts.exists_front hasync after
  have hall := htokens.trans hfront
  have hstart : d.start = p.first.start := by rw [hread]; rfl
  have hrecorded := recorded_of_extract hd
  refine ⟨hrecorded.header.append hrecorded.body, ?_⟩
  have hident := Parts.ident_ne_none_of_named hformed hfound hall hstart hnamed
  -- The tokens of the span are those of a declaration, in front of which nothing stands.
  obtain ⟨q, hts, hq⟩ := Parts.exists_alone hfound hall
  rw [Parts.sourceOf_atFront p _ _ _, ← hread] at hts
  have hsame : p.atFront.Same q := by
    have hbare := congrArg (Parts.map Token.bare) hq
    rw [Parts.map_map, Parts.map_map, Token.bare_comp_shifted, Token.bare_comp_shifted] at hbare
    exact (Parts.same_of_map_bare hbare).symm
  have hformed' := (hformed.of_named hident).atFront.of_same hsame
  have hgaps : ∀ t ∈ p.atFront.inner, t.gap.size ≤ t.start := by
    intro t ht
    rw [Parts.inner_atFront] at ht
    exact (placed_of_lex source).gap_le_start t (by simp [hall, ht])
  have hgaps' : ∀ t ∈ q.inner, t.gap.size ≤ t.start := fun t ht =>
    (placed_of_tokenize hts).gap_le_start t (by simp [Parts.tokens, Parts.unit, Parts.block, ht])
  have hmoved : { (q.read options.rules.normalizeWhitespace d.index scope).shifted d.start with
      line := 0 } = { d with line := 0 } := by
    have hreads := congrArg (fun r => r.read options.rules.normalizeWhitespace d.index scope) hq
    rwa [Parts.read_shifted _ _ hgaps, Parts.read_shifted _ _ hgaps', Parts.read_atFront, ← hread,
      ← hstart, Declaration.shifted_zero] at hreads
  have halone := (hfound.atFront.of_same hsame).declarations_alone hformed' hregion hts
  rw [hrules] at halone
  refine ⟨_, halone, Nat.add_eq_left.mp (congrArg Declaration.start hmoved), ?_⟩
  exact (congrArg (fun e => { e with index := d.index, line := d.line, scope := d.scope }) hmoved).symm

/-- A declaration behind a statement, in a block.  By itself it may have another line, index and
scope, and is the same but for where it stands. -/
theorem standalone_of_block :
    ∃ d ∈ (extract "\x7bx\nasync function f(a)\x7b\x7d\x7d".toList {}).declarations,
      d.NamedIn "\x7bx\nasync function f(a)\x7b\x7d\x7d".toList ∧ d.start = 3 ∧
      d.source = "async function f(a)\x7b\x7d".toList ∧
      ∃ e, declarations "async function f(a)\x7b\x7d".toList {} = .ok [e] ∧ e.start = 0 ∧
        d = { e.shifted 3 with index := d.index, line := d.line, scope := d.scope } := by
  have hd : ∃ d ∈ (extract "\x7bx\nasync function f(a)\x7b\x7d\x7d".toList {}).declarations,
      d.start = 3 ∧ d.source = "async function f(a)\x7b\x7d".toList := by
    decide +kernel
  obtain ⟨d, hd, hstart, hsource⟩ := hd
  have hnamed : d.NamedIn "\x7bx\nasync function f(a)\x7b\x7d\x7d".toList := by
    refine ⟨(lex "\x7bx\nasync function f(a)\x7b\x7d\x7d".toList).tokens.take 2,
      (lex "\x7bx\nasync function f(a)\x7b\x7d\x7d".toList).tokens.drop 5,
      some ⟨.ident, ['\n'], "async".toList, ⟨3, 2⟩⟩, none, ⟨.ident, [' '], "function".toList, ⟨9, 2⟩⟩,
      ⟨.ident, [' '], ['f'], ⟨18, 2⟩⟩, by decide +kernel, ?_, by decide, nofun, rfl, hstart⟩
    rintro t ⟨⟩
    decide
  obtain ⟨-, halone⟩ := standalone_of_extract hd hnamed (show Options.region {} = none from rfl) rfl
  rw [hsource, hstart] at halone
  exact ⟨d, hd, hnamed, hstart, hsource, halone⟩

end Twinfold
