import Twinfold.Proofs.Coalesce.Replaced
import Twinfold.Proofs.Declaration.BodyTokens
import Twinfold.Proofs.Similarity.Positions

/-!
# Receivers in shared bodies

A body that looks at its receiver or at its list of arguments means something else when another
function calls it.  So a group whose canonical function does so shares nothing
(`FunctionForm.readsReceiver`), and the other members have the tokens of the canonical body, but
for a slot, which holds neither word (`Assessed.exists_source`).

What is looked at are the tokens of lines lexed alone.  A template is one token, whatever code is
in its substitutions, and a line may be lexed otherwise than in the source.  And where parameters
are compared by position, a parameter may be called like the receiver in one function and
otherwise in the other.

* `coalesce_spares_receivers_iff` — a body that is shared reads no receiver if and only if none is
  hidden there (`Declaration.HidesNoReceiver`);
* `receiver_in_template` — two functions that read their receivers in templates share a body.
-/

namespace Twinfold

/-! ### Receivers -/

/-- The words for the receiver and for the list of arguments. -/
def Token.IsReceiver (t : Token) : Prop :=
  t.kind = .ident ∧ t.isAnyOf ["this", "arguments"] = true

instance (t : Token) : Decidable t.IsReceiver := inferInstanceAs (Decidable (_ ∧ _))

/-- A template that goes on with `text` has a substitution with the given code. -/
inductive Substitutes : (text code : Text) → Prop
  | here {code rest behind : Text} {q : Place}
      (hscan : scanFrames [.code 1 none .start] .start rest = .found (code ++ ['}']) behind q) :
      Substitutes ('$' :: '{' :: rest) code
  | further {code rest taken behind : Text} {q : Place}
      (hscan : scanFrames [.code 1 none .start] .start rest = .found taken behind q)
      (hmore : Substitutes behind code) : Substitutes ('$' :: '{' :: rest) code
  | escaped {c : Char} {rest code : Text} (hmore : Substitutes rest code) :
      Substitutes ('\\' :: c :: rest) code
  | plain {c : Char} {rest code : Text} (hc : c ≠ '\\' ∧ c ≠ '`')
      (hopens : ¬(c = '$' ∧ rest.head? = some '{')) (hmore : Substitutes rest code) :
      Substitutes (c :: rest) code

/-- The code of a substitution reads the receiver, in a template of its own perhaps. -/
inductive CodeReadsReceiver : Text → Prop
  | word {code : Text} {t : Token} (ht : t ∈ (lex code).tokens) (hreceiver : t.IsReceiver) :
      CodeReadsReceiver code
  | template {code inner : Text} {t : Token} (ht : t ∈ (lex code).tokens)
      (hkind : t.kind = .template) (hinner : Substitutes t.text.tail inner)
      (hreads : CodeReadsReceiver inner) : CodeReadsReceiver code

/-- A template whose substitutions read the receiver. -/
def Token.TemplateReadsReceiver (t : Token) : Prop :=
  t.kind = .template ∧ ∃ code, Substitutes t.text.tail code ∧ CodeReadsReceiver code

/-- The body reads the receiver or the list of arguments, by a word of its own or in a template. -/
def Declaration.ReadsReceiver (d : Declaration) (source : Text) : Prop :=
  ∃ t ∈ d.bodyTokens source, t.IsReceiver ∨ t.TemplateReadsReceiver

/-- The keys of the lines tell the tokens, even where parameters are compared by position: no
parameter is called like a word behind which a slash begins a regular expression, as in
`function f(typeof)`, and no line has a null character, which marks positions, or begins with
`#!`. -/
structure Declaration.TellsTokens (d : Declaration) : Prop where
  names : ∀ k name, d.NamesParam k name → ∀ s ∈ wordsBeforeRegex, name ≠ s.toList
  lines : ∀ line ∈ d.lines, IsPlainLine line.text

/-- The body has no receiver that is not looked for: in a line that is lexed otherwise than in the
source, or in a template.  Where parameters are compared by position, a word that names a
parameter of the function is not looked for either; and if keys do not tell the tokens (`told`),
equal keys say nothing about the other words. -/
structure Declaration.HidesNoReceiver (d : Declaration) (source : Text)
    (byPosition told : Prop) : Prop where
  lines : ∀ line ∈ d.lines, ¬line.LexedAlike source → ∀ t ∈ line.tokensIn source, ¬t.IsReceiver
  templates : ∀ t ∈ d.bodyTokens source, ¬t.TemplateReadsReceiver
  positions : byPosition → ∀ line ∈ d.lines, line.LexedAlike source →
    ∀ t ∈ line.tokensIn source, (∃ k, d.NamesParam k t.text) → ¬t.IsReceiver
  untold : byPosition → ¬told → ∀ line ∈ d.lines, line.LexedAlike source →
    ∀ t ∈ line.tokensIn source, ¬t.IsReceiver

/-! ### Members of a group -/

theorem isReceiver_congr {t u : Token} (h : t.word = u.word) : t.IsReceiver ↔ u.IsReceiver := by
  rw [Token.IsReceiver, Token.IsReceiver, (word_eq_iff.mp h).1, isAnyOf_congr h]

/-- There are two such words. -/
theorem Token.IsReceiver.text {t : Token} (h : t.IsReceiver) :
    t.text = "this".toList ∨ t.text = "arguments".toList := by
  have hwords := h.2
  simpa only [Token.isAnyOf, List.any_cons, List.any_nil, Bool.or_false, Bool.or_eq_true,
    decide_eq_true_eq] using hwords

/-- Only words are written like the receiver. -/
theorem isReceiver_of_text_eq {line line' : Text} {ts us : List Token}
    (hts : tokenize line = .ok ts) (hus : tokenize line' = .ok us) {t u : Token} (ht : t ∈ ts)
    (hu : u ∈ us) (htext : t.text = u.text) (hreceiver : u.IsReceiver) : t.IsReceiver := by
  obtain ⟨_, _, hreads⟩ := exists_reads_of_tokenize hts t ht
  obtain ⟨_, _, hreads'⟩ := exists_reads_of_tokenize hus u hu
  rw [htext] at hreads
  have hslash : u.text.head? ≠ some '/' := by
    rcases hreceiver.text with h | h <;> rw [h] <;> decide
  refine ⟨(kind_eq_of_reads hreads hreads' hslash).trans hreceiver.1, ?_⟩
  rw [Token.isAnyOf, htext]
  exact hreceiver.2

/-- What can be replaced is no receiver. -/
theorem not_isReceiver_of_isReplaceable {f : FunctionForm} {before after : Option Token}
    {t : FormToken} (h : f.isReplaceable before t after = true) : ¬t.token.IsReceiver := by
  intro hreceiver
  have hkind := hreceiver.1
  have hkeyword : t.token.isAnyOf keywords = true := by
    rcases hreceiver.text with h | h <;> rw [Token.isAnyOf, h] <;> decide
  have hconstant : t.token.isAnyOf constantWords = false := by
    rcases hreceiver.text with h | h <;> rw [Token.isAnyOf, h] <;> decide
  unfold FunctionForm.isReplaceable at h
  split at h
  · cases h
  split at h <;> rename_i hkind' <;> rw [hkind] at hkind' <;> cases hkind'
  rw [hconstant, hkeyword, Bool.false_or] at h
  simp only [Bool.and_eq_true] at h
  cases h.1.1.1.2

/-- A position is not written like the receiver. -/
theorem param_of_word {form : FormToken} {t : Token} (h : form.word = t.text) (ht : t.IsReceiver) :
    form.param = none := by
  rcases hparam : form.param with _ | position
  · rfl
  · rw [FormToken.word, hparam] at h
    rcases ht.text with htext | htext <;> rw [htext] at h <;> cases h

/-- Neither is a mark. -/
theorem param_of_marked {form : FormToken} {t : Token} (h : form.marked.text = t.text)
    (ht : t.IsReceiver) : form.param = none := by
  rcases hparam : form.param with _ | position
  · rfl
  · rw [FormToken.marked, hparam] at h
    rcases ht.text with htext | htext <;> rw [htext] at h <;> cases h

theorem FormToken.marked_of_none {form : FormToken} (h : form.param = none) :
    form.marked = form.token := by
  rw [marked, h]

theorem FormToken.word_of_none {form : FormToken} (h : form.param = none) :
    form.word = form.token.text := by
  rw [word, h]

section

variable {rules : LineRules} {c m : Declaration} {difference : Option (Slot × Text)}

/-- A parameter without a name stands in the list of names as the empty text, which is no word. -/
theorem Declaration.TellsTokens.leaveSlashes {d : Declaration} (h : d.TellsTokens) :
    LeaveSlashes (d.params.map fun param => (Param.name? param).getD []) := by
  intro name hname s hs
  obtain ⟨param, hparam, rfl⟩ := List.mem_map.mp hname
  rcases hnamed : Param.name? param with _ | name
  · have hne : ∀ s ∈ wordsBeforeRegex, [] ≠ s.toList := by decide
    exact hne s hs
  · obtain ⟨k, hk⟩ := List.getElem?_of_mem hparam
    exact h.names k name ⟨param, hk, hnamed⟩ s hs

/-- **Lines with the same key have the same receivers**, but for words that name parameters.  Where
parameters go by position the keys are lexed again with marks for positions, and no mark is a
receiver. -/
theorem exists_line_of_keys
    (htold : rules.ignoreParamNames = true → c.TellsTokens ∧ m.TellsTokens) {n : Nat}
    (hkeys : (FunctionForm.of rules c).keys[n]? = (FunctionForm.of rules m).keys[n]?)
    {line : LogicalLine} {ts : List Token} (hline : m.lines[n]? = some line)
    (hts : tokenize line.text = .ok ts) {form : FormToken}
    (hform : form ∈ formTokens (m.positionalNames rules) none ts) (hparam : form.param = none)
    (hreceiver : form.token.IsReceiver) :
    ∃ line' us u, c.lines[n]? = some line' ∧ tokenize line'.text = .ok us ∧ u ∈ us ∧
      u.text = form.token.text := by
  obtain ⟨line', hline'⟩ : ∃ line', c.lines[n]? = some line' := by
    have hsome := congrArg Option.isSome hkeys
    rw [getElem?_keys, getElem?_keys, hline, Option.isSome_map, Option.map_some] at hsome
    exact Option.isSome_iff_exists.mp hsome
  by_cases hnames : rules.ignoreParamNames = true
  · obtain ⟨hc, hm⟩ := htold hnames
    have hkey := hkeys
    rw [getElem?_keys, getElem?_keys, hline, hline', Option.map_some, Option.map_some,
      Option.some_inj] at hkey
    obtain ⟨us, hus, hwords⟩ := words_eq_of_key_eq hnames hm.leaveSlashes hc.leaveSlashes
      (hm.lines line (List.mem_of_getElem? hline)) (hc.lines line' (List.mem_of_getElem? hline'))
      hkey.symm hts
    rw [Declaration.positionalNames, if_pos hnames] at hform
    have hmem := List.mem_map_of_mem (f := fun form => form.marked.word) hform
    rw [hwords] at hmem
    obtain ⟨other, hother, hword⟩ := List.mem_map.mp hmem
    have htext := (word_eq_iff.mp hword).2
    rw [FormToken.marked_of_none hparam] at htext
    rw [FormToken.marked_of_none (param_of_marked htext hreceiver)] at htext
    refine ⟨line', us, other.token, hline', hus, ?_, htext⟩
    rw [← map_token_formTokens _ none us]
    exact List.mem_map_of_mem hother
  · have htexts := lineTexts_eq_of_keys (eq_false_of_ne_true hnames) hkeys hline' hline
    rw [lineTexts_of_ok hts] at htexts
    rcases hus : tokenize line'.text with e | us
    · rw [lineTexts_of_error hus] at htexts
      cases htexts
    · rw [lineTexts_of_ok hus] at htexts
      have hmem : form.token ∈ ts := by
        rw [← map_token_formTokens (m.positionalNames rules) none ts]
        exact List.mem_map_of_mem hform
      have htext := List.mem_map_of_mem (f := Token.text) hmem
      rw [← LineTexts.tokens.inj htexts] at htext
      obtain ⟨u, hu, htext⟩ := List.mem_map.mp htext
      exact ⟨line', us, u, hline', hus, hu, htext⟩

/-- **A member has the receivers of the canonical body**, line by line, but for words that name
parameters. -/
theorem Assessed.exists_source
    (htold : rules.ignoreParamNames = true → c.TellsTokens ∧ m.TellsTokens)
    (h : Assessed (.of rules c) (.of rules m) difference) {n : Nat} {line : LogicalLine}
    {ts : List Token} (hline : m.lines[n]? = some line) (hts : tokenize line.text = .ok ts)
    {form : FormToken} (hform : form ∈ formTokens (m.positionalNames rules) none ts)
    (hparam : form.param = none) (hreceiver : form.token.IsReceiver) :
    ∃ line' us u, c.lines[n]? = some line' ∧ tokenize line'.text = .ok us ∧ u ∈ us ∧
      u.text = form.token.text := by
  have hsame := fun hkeys => exists_line_of_keys htold (n := n) hkeys hline hts hform hparam hreceiver
  cases h with
  | identical hkeys => exact hsame (by rw [hkeys])
  | differs own l r i t₀ u₀ hlen herase hfits hr hu₀ hreplaceable hwords =>
    by_cases hn : own.line = n
    · subst hn
      rw [getElem?_lines, hline, Option.map_some, Option.some_inj] at hr
      have htokens : r.tokens = formTokens (m.positionalNames rules) none ts :=
        hr ▸ LineForm.tokens_of_ok hts
      rw [← htokens] at hform
      obtain ⟨j, hj⟩ := List.getElem?_of_mem hform
      by_cases hij : i = j
      · -- What stands in the slot can be replaced.
        subst hij
        rw [FunctionForm.isReplaceableAt, hj, Option.any_some] at hreplaceable
        exact absurd hreceiver (not_isReceiver_of_isReplaceable hreplaceable)
      · -- Away from the slot the words of the lines are the same.
        have hat := congrArg (fun words => words[j]?) hwords
        simp only [List.getElem?_set_ne hij, List.getElem?_map, hj, Option.map_some] at hat
        obtain ⟨other, hother, hword⟩ := Option.map_eq_some_iff.mp hat.symm
        rw [FormToken.word_of_none hparam] at hword
        have hnone := param_of_word hword hreceiver
        obtain ⟨line', us, hline', hus, hu, -⟩ := exists_lexed_of_form hfits.line_eq hother
        refine ⟨line', us, other.token, hline', hus, List.mem_of_getElem? hu, ?_⟩
        rw [← hword, FormToken.word_of_none hnone]
    · exact hsame (getElem?_eq_of_eraseIdx hlen herase hn)

/-- The lines of a function that looks at no receiver hold none. -/
theorem not_isReceiver_of_readsReceiver (h : (FunctionForm.of rules c).readsReceiver = false)
    {n : Nat} {line : LogicalLine} {ts : List Token} (hline : c.lines[n]? = some line)
    (hts : tokenize line.text = .ok ts) : ∀ t ∈ ts, ¬t.IsReceiver := by
  intro t ht hreceiver
  have hform := getElem?_lines rules c n
  rw [hline, Option.map_some] at hform
  rw [FunctionForm.readsReceiver, List.any_eq_false] at h
  refine h _ (List.mem_of_getElem? hform) (List.any_eq_true.mpr ⟨t, ?_, ?_⟩)
  · rwa [LineForm.lexed_of_ok hts]
  · simpa [Token.IsReceiver] using hreceiver

/-- **Members look at no receiver** if the canonical function looks at none, but for words that
name parameters. -/
theorem Assessed.not_isReceiver
    (htold : rules.ignoreParamNames = true → c.TellsTokens ∧ m.TellsTokens)
    (h : Assessed (.of rules c) (.of rules m) difference)
    (hcanonical : (FunctionForm.of rules c).readsReceiver = false) {n : Nat} {line : LogicalLine}
    {ts : List Token} (hline : m.lines[n]? = some line) (hts : tokenize line.text = .ok ts) :
    ∀ t ∈ ts, (rules.ignoreParamNames = true → ¬∃ k, m.NamesParam k t.text) → ¬t.IsReceiver := by
  intro t ht hunnamed hreceiver
  have hmem := ht
  rw [← map_token_formTokens (m.positionalNames rules) none ts] at hmem
  obtain ⟨form, hform, rfl⟩ := List.mem_map.mp hmem
  have hparam : form.param = none := by
    by_contra hsome
    obtain ⟨k, hk⟩ := Option.ne_none_iff_exists'.mp hsome
    obtain ⟨hpositions, hnamed⟩ :=
      Declaration.namesParam_of_param hform hk (text_ne_nil_of_tokenize hts ht)
    exact hunnamed hpositions ⟨k, hnamed⟩
  obtain ⟨line', us, u, hline', hus, hu, htext⟩ :=
    h.exists_source htold hline hts hform hparam hreceiver
  exact not_isReceiver_of_readsReceiver hcanonical hline' hus u hu
    (isReceiver_of_text_eq hus hts hu ht htext hreceiver)

end

/-! ### Shared bodies -/

/-- A group whose canonical function reads its receiver shares nothing. -/
theorem readsReceiver_of_groupObstacle? {rules : LineRules} {c : Declaration}
    (h : groupObstacle? (.of rules c) = none) : (FunctionForm.of rules c).readsReceiver = false := by
  simp only [groupObstacle?] at h
  split_ifs at h with _ hreads _
  exact eq_false_of_ne_true hreads

section

variable {source : Text} {options : Options} {d : Declaration}

/-- A body reads no receiver if none is looked for and found and none is hidden.  That the words
that are looked for are no receivers is the hypothesis `halike`. -/
theorem not_readsReceiver_iff (hd : d ∈ (extract source options).declarations)
    {byPosition told : Prop} (halike : ∀ line ∈ d.lines, line.LexedAlike source →
      ∀ t ∈ line.tokensIn source, (byPosition → told ∧ ¬∃ k, d.NamesParam k t.text) →
        ¬t.IsReceiver) :
    ¬d.ReadsReceiver source ↔ d.HidesNoReceiver source byPosition told := by
  have hbody : ∀ t, t ∈ d.bodyTokens source ↔ ∃ line ∈ d.lines, t ∈ line.tokensIn source := by
    intro t
    rw [← flatMap_tokensIn hd, List.mem_flatMap]
  constructor
  · intro h
    have hnone : ∀ line ∈ d.lines, ∀ t ∈ line.tokensIn source, ¬t.IsReceiver :=
      fun line hline t ht hreceiver => h ⟨t, (hbody t).mpr ⟨line, hline, ht⟩, .inl hreceiver⟩
    exact ⟨fun line hline _ => hnone line hline, fun t ht htemplate => h ⟨t, ht, .inr htemplate⟩,
      fun _ line hline _ t ht _ => hnone line hline t ht, fun _ _ line hline _ => hnone line hline⟩
  · rintro h ⟨t, ht, hreceiver | htemplate⟩
    · obtain ⟨line, hline, ht'⟩ := (hbody t).mp ht
      by_cases hlexed : line.LexedAlike source
      · refine halike line hline hlexed t ht' (fun hposition => ⟨?_, ?_⟩) hreceiver
        · by_contra htold
          exact h.untold hposition htold line hline hlexed t ht' hreceiver
        · exact fun hnamed => h.positions hposition line hline hlexed t ht' hnamed hreceiver
      · exact h.lines line hline hlexed t ht' hreceiver
    · exact h.templates t ht htemplate

/-- What is not found in the lines lexed alone is not in lines that are lexed alike. -/
theorem not_isReceiver_of_lexedAlike {line : LogicalLine} (halike : line.LexedAlike source)
    (counts : Text → Prop)
    (h : ∀ ts, tokenize line.text = .ok ts → ∀ t ∈ ts, counts t.text → ¬t.IsReceiver) {t : Token}
    (ht : t ∈ line.tokensIn source) (hcounts : counts t.text) : ¬t.IsReceiver := by
  obtain ⟨ts, hts⟩ := halike.exists_tokens
  have hmem : t.word ∈ ts.map Token.word := halike.map_word hts ▸ List.mem_map_of_mem ht
  obtain ⟨u, hu, hword⟩ := List.mem_map.mp hmem
  rw [← isReceiver_congr hword]
  exact h ts hts u hu ((word_eq_iff.mp hword).2 ▸ hcounts)

end

/-- **Shared bodies read no receiver that was looked for.**  When a source text is coalesced, a
function that shares a body (the canonical one or an adapter) reads its receiver or its list of
arguments only in a template, in a line that is lexed otherwise than in the source, or, in an
adapter where parameters are compared by position, by a word that names one of its parameters.  In
such an adapter the other words count too, if the keys of its lines and of those of the canonical
function do not tell their tokens. -/
theorem coalesce_spares_receivers_iff {source : Text} {options : Options} {d : Detection}
    {layout : Layout} {r : Coalesced} (hdetect : detect source options = .ok d)
    (hcoalesce : coalesce source d layout = .ok r) :
    ∀ g ∈ r.shared, ∀ i ∈ g.members, ∃ m, d.declarations[i]? = some m ∧
      (¬m.ReadsReceiver source ↔ m.HidesNoReceiver source
        (options.rules.ignoreParamNames = true ∧ i ≠ g.canonical)
        (m.TellsTokens ∧ ∀ c ∈ d.declarations[g.canonical]?, c.TellsTokens)) := by
  obtain ⟨p, hplan, _, hshared⟩ := plan_of_coalesce hcoalesce
  obtain ⟨works, hdoes, _⟩ := exists_works_of_plan hplan
  obtain ⟨hextract, _⟩ := declarations_eq_ok_iff.mp (declarations_of_detect hdetect)
  intro g hg i hi
  rw [hshared, hdoes.shared_eq] at hg
  obtain ⟨w, hw, rfl⟩ := List.mem_map.mp hg
  have hsound := hdoes.sound w hw
  have hcanonical := readsReceiver_of_groupObstacle? hsound.no_obstacle
  rcases List.mem_cons.mp hi with rfl | hi
  · have hmem := List.mem_of_getElem? hsound.canonical_eq
    rw [← hextract] at hmem
    refine ⟨w.canonical, hsound.canonical_eq, not_readsReceiver_iff hmem ?_⟩
    intro line hline halike t ht _
    obtain ⟨n, hn⟩ := List.getElem?_of_mem hline
    exact not_isReceiver_of_lexedAlike halike (fun _ => True) (fun ts hts u hu _ =>
      not_isReceiver_of_readsReceiver hcanonical hn hts u hu) ht trivial
  · obtain ⟨m, hm, rfl⟩ := List.mem_map.mp hi
    obtain ⟨hdecl, hassess⟩ := (w.sound_sharing d).assessed m hm
    obtain ⟨_, _, _, hassessed⟩ := assessed_of_assess hassess
    have hmem := List.mem_of_getElem? hdecl
    rw [← hextract] at hmem
    refine ⟨m.declaration, hdecl, not_readsReceiver_iff hmem ?_⟩
    intro line hline halike t ht hunnamed
    obtain ⟨n, hn⟩ := List.getElem?_of_mem hline
    by_cases hindex : m.index = w.group.canonical
    · rw [hindex, hsound.canonical_eq, Option.some_inj] at hdecl
      rw [← hdecl] at hn
      exact not_isReceiver_of_lexedAlike halike (fun _ => True) (fun ts hts u hu _ =>
        not_isReceiver_of_readsReceiver hcanonical hn hts u hu) ht trivial
    · rw [← rules_of_detect hdetect] at hunnamed
      refine not_isReceiver_of_lexedAlike halike
        (fun text => d.rules.ignoreParamNames = true → ¬∃ k, m.declaration.NamesParam k text)
        (fun ts hts u hu => hassessed.not_isReceiver ?_ hcanonical hn hts u hu) ht
        fun hpositions => (hunnamed ⟨hpositions, hindex⟩).2
      intro hpositions
      obtain ⟨⟨hm, hc⟩, -⟩ := hunnamed ⟨hpositions, hindex⟩
      exact ⟨hc _ hsound.canonical_eq, hm⟩

/-- Two functions that return a property of their receivers, in a template. -/
def templated : Text :=
  ("function f()\x7breturn `$\x7bthis.x\x7d`\x7d\n" ++
    "function g()\x7breturn `$\x7bthis.x\x7d`\x7d").toList

/-- The condition for two functions that read their receivers in templates and share a body. -/
theorem spares_receivers_templated : ∃ d r, detect templated {} = .ok d ∧
    coalesce templated d {} = .ok r ∧ r.shared = [⟨0, [1], none, 0⟩] ∧
    ∀ g ∈ r.shared, ∀ i ∈ g.members, ∃ m, d.declarations[i]? = some m ∧
      (¬m.ReadsReceiver templated ↔ m.HidesNoReceiver templated
        (({} : Options).rules.ignoreParamNames = true ∧ i ≠ g.canonical)
        (m.TellsTokens ∧ ∀ c ∈ d.declarations[g.canonical]?, c.TellsTokens)) := by
  have hrun : (runOn templated {}).map (fun x => x.2.shared) = some [⟨0, [1], none, 0⟩] := by
    decide +kernel
  obtain ⟨⟨d, r⟩, hresult, hshared⟩ := Option.map_eq_some_iff.mp hrun
  obtain ⟨hdetect, hcoalesce⟩ := of_runOn hresult
  exact ⟨d, r, hdetect, hcoalesce, hshared, coalesce_spares_receivers_iff hdetect hcoalesce⟩

/-- A template that reads the receiver. -/
theorem templateReadsReceiver_of_word {t : Token}
    (h : t.word = (.template, "`$\x7bthis.x\x7d`".toList)) : t.TemplateReadsReceiver := by
  have hscan : ∃ q, scanFrames [.code 1 none .start] .start "this.x\x7d`".toList =
      .found ("this.x".toList ++ ['}']) ['`'] q := ⟨_, rfl⟩
  obtain ⟨q, hscan⟩ := hscan
  have hthis : ∃ u ∈ (lex "this.x".toList).tokens, u.IsReceiver := by decide +kernel
  obtain ⟨u, hu, hreceiver⟩ := hthis
  obtain ⟨hkind, htext⟩ := Prod.mk.inj h
  refine ⟨hkind, "this.x".toList, ?_, .word hu hreceiver⟩
  rw [htext]
  exact .here hscan

/-- **Receivers in templates are not found.**  Both functions read their receivers, and one of them
becomes an adapter of the other. -/
theorem receiver_in_template : ∃ d r, detect templated {} = .ok d ∧
    coalesce templated d {} = .ok r ∧
    ¬∀ g ∈ r.shared, ∀ i ∈ g.members, ∀ m ∈ d.declarations[i]?, ¬m.ReadsReceiver templated := by
  have hrun : (runOn templated {}).map (fun x => (x.2.shared,
      x.1.declarations[1]?.map fun m => (m.bodyTokens templated).map Token.word)) =
      some ([⟨0, [1], none, 0⟩],
        some [(.ident, "return".toList), (.template, "`$\x7bthis.x\x7d`".toList)]) := by
    decide +kernel
  obtain ⟨⟨d, r⟩, hresult, hfields⟩ := Option.map_eq_some_iff.mp hrun
  simp only [Prod.mk.injEq] at hfields
  obtain ⟨hshared, hwords⟩ := hfields
  obtain ⟨m, hm, hwords⟩ := Option.map_eq_some_iff.mp hwords
  obtain ⟨hdetect, hcoalesce⟩ := of_runOn hresult
  refine ⟨d, r, hdetect, hcoalesce, fun hall => ?_⟩
  obtain ⟨_, us, hbody, _, hrest⟩ := List.map_eq_cons_iff.mp hwords
  obtain ⟨t, _, rfl, hword, _⟩ := List.map_eq_cons_iff.mp hrest
  have ht : t ∈ m.bodyTokens templated := by rw [hbody]; simp
  exact hall ⟨0, [1], none, 0⟩ (by simp [hshared]) 1 (by simp [SharedBody.members]) m hm
    ⟨t, ht, .inr (templateReadsReceiver_of_word hword)⟩

end Twinfold
