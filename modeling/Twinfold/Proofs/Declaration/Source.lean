import Twinfold.Proofs.Declaration.Alike
import Twinfold.Proofs.Declaration.Lines

/-!
# Declarations in their source

The declarations of a text are read from parts that stand in it
(`exists_items_of_declarations`).  The body of a declaration holds the tokens that it holds in
the source, from brace to brace, and its lines stand in it (`bodyRead_of_declarations`).
-/

namespace Twinfold

/-! ### Items of a text -/

/-- What is known of the parts of a declaration that extraction finds. -/
structure Parts.Found (p : Parts) : Prop where
  wellFormed : ∃ afterDefault, p.WellFormed afterDefault
  function : p.keyword.identIs "function" = true
  async : ∀ t ∈ p.async, t.identIs "async" = true

/-- The `async` of a declaration is the token in front of it. -/
theorem Parts.asyncOf_of_lead {p : Parts} {previous beforePrevious : Option Token}
    {afterDefault : Bool} {rest : List Token}
    (hlead : leadAt? previous beforePrevious p.keyword rest = some (p.lead afterDefault)) :
    asyncOf previous beforePrevious = p.async := by
  rw [leadAt?_eq, Option.ite_none_right_eq_some] at hlead
  obtain ⟨_, hlead⟩ := hlead
  simp only [Option.some.injEq, Parts.lead, Lead.mk.injEq, true_and] at hlead
  exact eq_of_getD_eq hlead.1 hlead.2.1

/-- A declaration begins with `async` or with the word `function`. -/
theorem Parts.found_of_lead {p : Parts} {previous beforePrevious : Option Token}
    {afterDefault : Bool} {rest : List Token} (hwell : p.WellFormed afterDefault)
    (hlead : leadAt? previous beforePrevious p.keyword rest = some (p.lead afterDefault)) :
    p.Found := by
  have hasync := Parts.asyncOf_of_lead hlead
  rw [leadAt?_eq, Option.ite_none_right_eq_some] at hlead
  refine ⟨⟨_, hwell⟩, ?_, ?_⟩
  · have hleads := hlead.1
    simp only [leads, Bool.and_eq_true] at hleads
    exact hleads.1.1.1
  · intro t ht
    rw [← hasync, asyncOf] at ht
    have htest := (Option.filter_eq_some_iff.mp ht).2
    exact (Bool.and_eq_true _ _ ▸ htest).1

/-- Every declaration that a walk passes is well-formed and begins with `async` or with `function`.
-/
theorem Walks.found {low : Nat} {previous beforePrevious : Option Token}
    {opened left : List Token} {items : List Item}
    (h : Walks low previous beforePrevious opened items left) :
    ∀ p, .unit p ∈ items → p.Found := by
  induction items generalizing previous beforePrevious opened with
  | nil => simp
  | cons item items ih =>
    intro p hp
    cases item with
    | token t =>
      obtain ⟨_, _, hwalks⟩ := h
      rcases List.mem_cons.mp hp with hp | hp
      · cases hp
      · exact ih hwalks p hp
    | unit q =>
      obtain ⟨⟨afterDefault, hwell, _, hlead⟩, hwalks⟩ := h
      rcases List.mem_cons.mp hp with hp | hp
      · cases hp
        exact Parts.found_of_lead hwell hlead
      · exact ih hwalks p hp

/-- The declarations are read from the parts among the items, whatever the rules.  The same parts
read by other rules are among the declarations by those rules. -/
theorem exists_parts_of_mem_declarationsOf {normalize : Bool} {index : Nat} {opened : List Token}
    {items : List Item} {d : Declaration} (h : d ∈ declarationsOf normalize index opened items) :
    ∃ p scope, .unit p ∈ items ∧ d = p.read normalize d.index scope ∧
      ∀ normalize, p.read normalize d.index scope ∈ declarationsOf normalize index opened items := by
  induction items generalizing index opened with
  | nil => cases h
  | cons item items ih =>
    cases item with
    | token t =>
      obtain ⟨p, scope, hp, hd, hread⟩ := ih h
      exact ⟨p, scope, List.mem_cons_of_mem _ hp, hd, hread⟩
    | unit p =>
      rcases List.mem_cons.mp h with rfl | h
      · exact ⟨p, _, List.mem_cons_self, rfl, fun _ => List.mem_cons_self⟩
      · obtain ⟨q, scope, hq, hd, hread⟩ := ih h
        exact ⟨q, scope, List.mem_cons_of_mem _ hq, hd, fun normalize =>
          List.mem_cons_of_mem _ (hread normalize)⟩

/-- A plain function is declared without `async`. -/
theorem Parts.async_eq_none_of_plain {p : Parts} {normalize : Bool} {index : Nat}
    {scope : Option Nat} (h : (p.read normalize index scope).flavor = .plain) : p.async = none := by
  have hflavor : Flavor.of p.async.isSome p.star.isSome = .plain := h
  cases hasync : p.async with
  | none => rfl
  | some t =>
    rw [hasync] at hflavor
    cases hstar : p.star.isSome <;> rw [hstar] at hflavor <;> cases hflavor

/-- A declaration without `async` is told by the first letter of its header. -/
theorem Parts.Found.async_eq_none {q : Parts} (h : q.Found) {normalize : Bool} {index : Nat}
    {scope : Option Nat} {rest : Text} (hheader : (q.read normalize index scope).header = 'f' :: rest) :
    q.async = none := by
  cases hasync : q.async with
  | none => rfl
  | some t =>
    have hword : "async".toList = 'a' :: "sync".toList := by decide
    have htext : t.text = "async".toList := congrArg Prod.snd (identIs_iff.mp (h.async t hasync))
    rw [Parts.read, Parts.first, hasync, Option.getD_some, htext, hword] at hheader
    have hletter := (List.cons.inj hheader).1
    cases hletter

/-- The declarations of a text are found if and only if extracting them does not fail. -/
theorem declarations_eq_ok_iff {source : Text} {options : Options} {ds : List Declaration} :
    declarations source options = .ok ds ↔
      (extract source options).declarations = ds ∧ (extract source options).failure = none := by
  unfold declarations
  dsimp only
  split
  · rename_i e he
    simp [he]
  · rename_i hnone
    simp [hnone]

/-- The failure of an extraction is the failure to find the declarations. -/
theorem declarations_eq_error_iff {source : Text} {options : Options} {e : ParseError} :
    declarations source options = .error e ↔ (extract source options).failure = some e := by
  unfold declarations
  dsimp only
  split
  · rename_i e' he
    simp [he]
  · rename_i hnone
    simp [hnone]

/-- Without a region, extraction looks at all tokens. -/
theorem Extractor.start_of_whole (source : Text) {options : Options}
    (hregion : options.region = none) : Extractor.start source options =
      ⟨options.rules.normalizeWhitespace, 0, source.size, (lex source).tokens, (lex source).failure,
        none, none, [], 0⟩ := by
  unfold Extractor.start
  rw [hregion]

/-- The declarations of a text are among items that stand in it, and extraction walks over
them. -/
theorem exists_items_of_declarations {source : Text} {options : Options} {ts : List Token}
    {ds : List Declaration} (hts : tokenize source = .ok ts)
    (hds : declarations source options = .ok ds) :
    ∃ low items left, ts = tokensOf items ++ left ∧ Walks low none none [] items left ∧
      ds = declarationsOf options.rules.normalizeWhitespace 0 [] items := by
  obtain ⟨htokens, _⟩ := tokenize_eq_ok_iff.mp hts
  obtain ⟨hdeclarations, hnone⟩ := declarations_eq_ok_iff.mp hds
  obtain ⟨items, left, hitems, _, hwalks, hfound⟩ := Extractor.exists_items_of_run _ hnone
  unfold extract at hdeclarations
  rw [hfound] at hdeclarations
  unfold Extractor.start at hitems hdeclarations hwalks
  dsimp only at hitems hdeclarations hwalks
  split at hitems
  · rename_i hwindow
    rw [hwindow] at hdeclarations
    -- The region is missing: there are no tokens, and no items.
    have hnil : tokensOf items = [] := (List.append_eq_nil_iff.mp hitems.symm).1
    obtain rfl : items = [] := by
      rcases items with _ | ⟨_ | p, items⟩
      · rfl
      · cases hnil
      · cases hnil
    exact ⟨0, [], ts, rfl, fun _ => rfl, hdeclarations.symm⟩
  · rename_i low high hwindow
    rw [hwindow] at hdeclarations hwalks
    exact ⟨low, items, left, htokens ▸ hitems, hwalks, hdeclarations.symm⟩

/-! ### Whole texts -/

/-- Tokens of a text stand in it. -/
theorem start_lt_of_lex (source : Text) : ∀ t ∈ (lex source).tokens, t.start < source.size := by
  intro t ht
  obtain ⟨left, hsource⟩ := exists_left_of_lex source
  obtain ⟨before, behind, hsplit, hstart⟩ := (placed_of_lex source).exists_split t ht
  have hlt : t.start < t.start + t.text.size := start_lt_stop_of_lex source t ht
  rw [hsource, hsplit]
  simp only [Text.size_append]
  omega

/-- Tokens begin within the text. -/
theorem start_lt_of_tokenize {source : Text} {ts : List Token} (h : tokenize source = .ok ts) :
    ∀ t ∈ ts, t.start < source.size := by
  rw [← (tokenize_eq_ok_iff.mp h).1]
  exact start_lt_of_lex source

namespace Extractor

/-- Extraction that does not stop early ends where the tokens end.  It then ends without an error,
if the whole text is in the window. -/
theorem failure_of_seek {x : Extractor} {ts : List Token} (h : x.seek ts = .finished)
    (hhigh : ∀ t ∈ ts, t.start < x.high) : x.failure = none := by
  induction ts generalizing x with
  | nil =>
    simp only [seek, atEnd] at h
    split at h
    · cases h
    · cases h
    · assumption
  | cons t ts ih =>
    have hstart : ¬x.high ≤ t.start := Nat.not_le.mpr (hhigh t List.mem_cons_self)
    rw [seek, if_neg hstart] at h
    split at h
    · cases h
    · split at h
      · cases h
      · rename_i opened _
        exact @ih { x with opened, previous := some t, beforePrevious := x.previous } h
          fun u hu => hhigh u (List.mem_cons_of_mem _ hu)

/-- **Only what is in the region can fail.**  If a run ends without a failure and all tokens that
it was given stand in front of the end of the region, the tokens were not cut short by a failure of
the lexer.  The induction is on the run: what is left behind a declaration is a part of what was
left before, and where no declaration is found any more, all tokens have been passed and the
failure would have been reported. -/
theorem failure_of_run (x : Extractor) (h : x.run.failure = none)
    (hhigh : ∀ t ∈ x.tokens, t.start < x.high) : x.failure = none := by
  induction x using run.induct with
  | case1 x d after hnext ih =>
    rw [run_of_declaration hnext] at h
    unfold next at hnext
    split at hnext
    · cases hnext
    · cases hnext
    · rename_i lead y hseek
      split at hnext
      · cases hnext
      · rename_i r hread
        cases hnext
        obtain ⟨skipped, keyword, hsplit, hlead, _, ⟨_, hfailure, _, _, hhigh'⟩, _⟩ :=
          walks_of_seek_eq_lead hseek
        obtain ⟨async, afterDefault, rfl⟩ := exists_async_of_leadAt? hlead
        obtain ⟨p, _, _, _, hparts, _⟩ := exists_parts_of_readDeclaration hread
        rw [← hfailure]
        refine ih h fun t ht => ?_
        have hmem : t ∈ x.tokens := by
          rw [hsplit, hparts]
          simp only [List.mem_append, List.mem_cons]
          exact .inr (.inr (.inr ht))
        have hlt := hhigh t hmem
        rwa [← hhigh'] at hlt
  | case2 x e hnext =>
    rw [run_of_failed hnext] at h
    cases h
  | case3 x hnext =>
    unfold next at hnext
    split at hnext
    · rename_i hseek
      exact failure_of_seek hseek hhigh
    · cases hnext
    · split at hnext <;> cases hnext

end Extractor

/-- Where declarations are found in a whole text, the text can be lexed. -/
theorem exists_tokens_of_declarations {source : Text} {options : Options} {ds : List Declaration}
    (hregion : options.region = none) (h : declarations source options = .ok ds) :
    ∃ ts, tokenize source = .ok ts := by
  obtain ⟨_, hnone⟩ := declarations_eq_ok_iff.mp h
  rw [extract, Extractor.start_of_whole source hregion] at hnone
  have hfailure := Extractor.failure_of_run _ hnone (start_lt_of_lex source)
  exact ⟨_, tokenize_eq_ok_iff.mpr ⟨rfl, hfailure⟩⟩

/-- Without a region, extraction walks over all tokens.  Nothing is in the way: all tokens are in
reach and no failure cuts them short. -/
theorem exists_walk_of_declarations {source : Text} {options : Options} {ts : List Token}
    {ds : List Declaration} (hregion : options.region = none) (hts : tokenize source = .ok ts)
    (hds : declarations source options = .ok ds) :
    ∃ items, ts = tokensOf items ∧ Walks 0 none none [] items [] ∧
      ds = declarationsOf options.rules.normalizeWhitespace 0 [] items := by
  obtain ⟨htokens, _⟩ := tokenize_eq_ok_iff.mp hts
  obtain ⟨hdeclarations, hnone⟩ := declarations_eq_ok_iff.mp hds
  obtain ⟨items, left, hitems, hhigh, hwalks, hfound⟩ := Extractor.exists_items_of_run _ hnone
  unfold extract at hdeclarations
  rw [hfound] at hdeclarations
  rw [Extractor.start_of_whole source hregion] at hitems hdeclarations hhigh hwalks
  dsimp only at hitems hdeclarations hhigh hwalks
  rw [htokens] at hitems
  have hleft : left = [] := by
    cases left with
    | nil => rfl
    | cons t left =>
      have hlt := start_lt_of_tokenize hts t (by simp [hitems])
      have := hhigh t rfl
      omega
  subst hleft
  exact ⟨items, by rw [hitems, List.append_nil], hwalks, hdeclarations.symm⟩

/-- A walk over all tokens of a text, with no region, finds the declarations of the text. -/
theorem declarations_of_walks {source : Text} {options : Options} {items : List Item}
    (hregion : options.region = none) (hts : tokenize source = .ok (tokensOf items))
    (hwalks : Walks 0 none none [] items []) :
    declarations source options =
      .ok (declarationsOf options.rules.normalizeWhitespace 0 [] items) := by
  obtain ⟨htokens, hnone⟩ := tokenize_eq_ok_iff.mp hts
  have hrun := @Extractor.run_of_walks ⟨options.rules.normalizeWhitespace, 0, source.size,
    tokensOf items, none, none, none, [], 0⟩ items rfl hwalks (start_lt_of_tokenize hts) rfl
  rw [declarations_eq_ok_iff, extract, Extractor.start_of_whole source hregion, htokens, hnone, hrun]
  exact ⟨rfl, rfl⟩

/-- **Whatever spells a text is read in it.**  If the tokens that spell a text are items that
extraction walks over, their declarations are extracted, but for their places. -/
theorem declarations_of_spells {source closing : Text} {us : List Token} {items : List Item}
    (hsource : source = hashBang source ++ (Token.sourceOf us ++ closing))
    (hspells : Spells none us closing) (hclosing : IsClosing closing)
    (hitems : prependGap (hashBang source) us = tokensOf items)
    (hwalks : Walks 0 none none [] items []) :
    ∃ ds, declarations source {} = .ok ds ∧
      List.Forall₂ Declaration.SameAs (declarationsOf true 0 [] items) ds := by
  obtain ⟨vs, hvs, hsame⟩ := tokenize_of_spells hsource hspells hclosing
  have hprepend : SameTokens (prependGap (hashBang source) vs) (tokensOf items) := by
    rw [← hitems]
    cases vs with
    | nil =>
      obtain rfl : us = [] := by simpa [SameTokens, eq_comm] using hsame
      rfl
    | cons v vs =>
      cases us with
      | nil => cases hsame
      | cons u us =>
        obtain ⟨hhead, hrest⟩ := List.cons.inj hsame
        obtain ⟨hkind, hgap, htext⟩ := bare_eq_iff.mp hhead
        refine List.cons_eq_cons.mpr ⟨bare_eq_iff.mpr ⟨hkind, ?_, htext⟩, hrest⟩
        dsimp only
        rw [hgap]
  obtain ⟨items', hitems', hwalks', hread⟩ := hwalks.relocated hprepend rfl .none rfl 0 0
  rw [hitems'] at hvs
  exact ⟨_, declarations_of_walks rfl hvs hwalks', hread⟩

/-! ### Bodies -/

/-- The tokens stand from brace to brace. -/
structure Braced (ts : List Token) (brace : Token) (inner : List Token) (close : Token) : Prop where
  eq_block : ts = brace :: (inner ++ [close])
  gap_eq : brace.gap = []
  opens : brace.punctIs "\x7b" = true
  enclosed : enclose none brace [] (inner ++ [close]) = .ok ⟨inner, close, []⟩

/-- The body of a declaration can be lexed by itself, and its lines stand in it. -/
structure Declaration.BodyRead (d : Declaration) (ts : List Token) : Prop where
  tokenize_eq : tokenize d.body = .ok ts
  spells : Spells none ts []
  sourceOf_eq : Token.sourceOf ts = d.body
  head?_eq : d.body.head? = some '\x7b'
  lines : LinesIn d.bodyStart d.body d.lines
  braced : ∃ brace inner close, Braced ts brace inner close

/-- The tokens of the body, from brace to brace. -/
theorem Parts.body_eq_sourceOf (p : Parts) (normalize : Bool) (index : Nat) (scope : Option Nat) :
    (p.read normalize index scope).body =
      Token.sourceOf ({ p.brace with gap := [] } :: (p.inner ++ [p.braceClose])) := by
  simp [read]

/-- A part of a text that begins with a brace can be lexed by itself.  What a slash behind the
brace means does not depend on what was in front of the brace. -/
theorem tokenize_block {previous : Option Token} {brace : Token} {ts : List Token} {tail : Text}
    (h : Spells previous (brace :: ts) tail) (hbrace : brace.punctIs "\x7b" = true) :
    ∃ us, tokenize (Token.sourceOf ({ brace with gap := [] } :: ts)) = .ok us ∧
      SameTokens us ({ brace with gap := [] } :: ts) ∧
      Spells none ({ brace with gap := [] } :: ts) [] := by
  have htext : brace.text = ['\x7b'] := text_of_punctIs hbrace
  have hspells : Spells none ({ brace with gap := [] } :: ts) [] := h.alone (by simp [htext])
  have hbang : hashBang (Token.sourceOf ({ brace with gap := [] } :: ts)) = [] := by
    simp [hashBang, htext, List.isPrefixOf]
  have hsource : Token.sourceOf ({ brace with gap := [] } :: ts) =
      hashBang (Token.sourceOf ({ brace with gap := [] } :: ts)) ++
        (Token.sourceOf ({ brace with gap := [] } :: ts) ++ []) := by
    rw [hbang, List.nil_append, List.append_nil]
  obtain ⟨us, hus, hsame⟩ := tokenize_of_spells hsource hspells isClosing_nil
  rw [hbang, prependGap_nil] at hus
  exact ⟨us, hus, hsame, hspells⟩

/-- **Bodies.**  Every declaration of a text has a body that can be lexed by itself, and its
lines stand in it. -/
theorem bodyRead_of_declarations {source : Text} {options : Options} {ts : List Token}
    {ds : List Declaration} (hts : tokenize source = .ok ts)
    (hds : declarations source options = .ok ds) : ∀ d ∈ ds, ∃ us, d.BodyRead us := by
  intro d hd
  obtain ⟨low, items, left, hitems, hwalks, hfound⟩ := exists_items_of_declarations hts hds
  rw [hfound] at hd
  obtain ⟨p, scope, hp, hread, _⟩ := exists_parts_of_mem_declarationsOf hd
  obtain ⟨_, hparts⟩ := (hwalks.found p hp).wellFormed
  -- The tokens of the body among those of the source.
  obtain ⟨before, after, rfl⟩ := List.append_of_mem hp
  have hsplit : ts = (tokensOf before ++ p.keyword :: p.signature) ++
      (p.brace :: (p.inner ++ [p.braceClose]) ++ (tokensOf after ++ left)) := by
    rw [hitems]
    simp [Item.tokens, Parts.unit, Parts.block]
  have hne : tokensOf before ++ p.keyword :: p.signature ≠ [] := by simp
  obtain ⟨first, front, hfront⟩ := List.exists_cons_of_ne_nil hne
  rw [hfront, List.cons_append] at hsplit
  subst hsplit
  obtain ⟨closing, _, hspells, _⟩ := spells_behind_of_tokenize hts
  have hplaced := placed_of_tokenize hts
  rw [← List.cons_append, placed_append_iff, placed_append_iff] at hplaced
  obtain ⟨_, ⟨⟨_, hinner⟩, _⟩⟩ := hplaced
  rw [spells_append_iff, spells_append_iff] at hspells
  obtain ⟨_, hblock, _⟩ := hspells
  obtain ⟨us, hus, hsame, hspelled⟩ := tokenize_block hblock hparts.brace
  have hbody := p.body_eq_sourceOf options.rules.normalizeWhitespace d.index scope
  rw [← hread] at hbody
  refine ⟨us, ?_, ?_, ?_, ?_, ?_, ?_⟩
  · rw [hbody]
    exact hus
  · exact Spells.congr hspelled hsame.symm
  · rw [hbody]
    exact SameTokens.sourceOf hsame
  · rw [hbody, sourceOf_cons, text_of_punctIs hparts.brace]
    rfl
  · rw [hread]
    exact linesIn_read (placed_append_iff.mp hinner).1 _ _ _
  · simp only [SameTokens, List.map_cons, List.map_append, List.map_nil, List.map_eq_cons_iff,
      List.map_eq_append_iff, List.map_eq_nil_iff] at hsame
    obtain ⟨brace, _, rfl, hbrace, inner, _, rfl, hinner, close, _, rfl, hclose, rfl⟩ := hsame
    have hword := word_eq_of_bare hbrace
    exact ⟨brace, inner, close, rfl, (bare_eq_iff.mp hbrace).2.1,
      (punctIs_congr hword _).trans hparts.brace,
      enclose_congr hparts.inner hword.symm rfl
        (map_delimiter_congr (map_word_of_sameTokens hinner).symm) (word_eq_of_bare hclose).symm []⟩

end Twinfold
