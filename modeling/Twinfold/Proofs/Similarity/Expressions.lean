import Mathlib.Data.List.Infix
import Twinfold.Declaration.Extractor
import Twinfold.Proofs.Similarity.Keys

/-!
# A difference in one expression is the whole difference

When the verdict on two functions names one expression, the lines it names hold the same tokens
but for one (`expression_is_whole_difference`).  That token is an operand on either side: a
literal, a constant or the name of a called function, which is no property and is neither
assigned nor counted up or down (`OperandAt`).

Which tokens are the same depends on the rules.  Where parameters are compared by position, a
token that names one stands for its position (`Declaration.meanings`).  Then the texts of two
tokens may differ, but they name the parameters at one position (`agreeAt_of_meaning_eq`).
-/

namespace Twinfold

/-! ### Markers in a text -/

/-- A marker is found if it stands somewhere in the text. -/
theorem Text.isSome_find?_iff (marker t : Text) :
    (Text.find? marker t).isSome ↔ marker <:+: t := by
  induction t with
  | nil => cases marker <;> simp [Text.find?]
  | cons c t ih =>
    rw [List.infix_cons_iff, ← ih, Text.find?]
    by_cases hfront : marker.isPrefixOf (c :: t)
    · simp [hfront, List.isPrefixOf_iff_prefix.mp hfront]
    · have hfront' : ¬marker <+: c :: t := fun h => hfront (List.isPrefixOf_iff_prefix.mpr h)
      simp [hfront, hfront']

/-! ### What tokens stand for -/

namespace Declaration

variable (rules : LineRules) (d : Declaration)

/-- The name of the parameter at position `k` is a given text. -/
def NamesParam (k : Nat) (text : Text) : Prop :=
  ∃ param, d.params[k]? = some param ∧ Param.name? param = some text

/-- The names of the parameters, where parameters are compared by position. -/
def positionalNames : List Text :=
  if rules.ignoreParamNames then d.params.map fun param => (Param.name? param).getD [] else []

/-- What the tokens of a line stand for: the positions of the parameters they name, where
parameters are compared by position, and their texts. -/
def meanings (ts : List Token) : List (Nat ⊕ Text) :=
  (formTokens (d.positionalNames rules) none ts).map FormToken.meaning

end Declaration

/-- The tokens number `j` of two lines agree: they have one text or, where parameters are compared
by position, name the parameters at one position of their functions. -/
def AgreeAt (rules : LineRules) (left right : Declaration) (ts us : List Token) (j : Nat) : Prop :=
  ∃ t u, ts[j]? = some t ∧ us[j]? = some u ∧
    (t.text = u.text ∨ rules.ignoreParamNames = true ∧
      ∃ k, left.NamesParam k t.text ∧ right.NamesParam k u.text)

/-- A token stands for a position if it names the parameter there, -/
theorem FormToken.meaning_eq_inl_iff {t : FormToken} {k : Nat} :
    t.meaning = .inl k ↔ t.param = some k := by
  unfold meaning
  rcases t.param with _ | p <;> simp

/-- and for its text if it names none. -/
theorem FormToken.meaning_eq_inr_iff {t : FormToken} {text : Text} :
    t.meaning = .inr text ↔ t.param = none ∧ t.token.text = text := by
  unfold meaning
  rcases t.param with _ | p <;> simp

/-- A token names the parameter whose name it is. -/
theorem name_of_mem_formTokens {names : List Text} {before : Option Token} {ts : List Token}
    {t : FormToken} (ht : t ∈ formTokens names before ts) {k : Nat} (hparam : t.param = some k) :
    names[k]? = some t.token.text := by
  induction ts generalizing before with
  | nil => cases ht
  | cons u us ih =>
    rcases List.mem_cons.mp ht with rfl | ht
    · have hposition : paramPosition? names before u us.head? = some k := hparam
      unfold paramPosition? at hposition
      split at hposition
      · obtain ⟨hlt, hname, -⟩ := List.findIdx?_eq_some_iff_getElem.mp hposition
        rw [List.getElem?_eq_getElem hlt, of_decide_eq_true hname]
      · cases hposition
    · exact ih ht

section

variable {rules : LineRules} {left right d : Declaration} {line : Text} {ts us : List Token}

@[simp] theorem Declaration.length_meanings : (d.meanings rules ts).length = ts.length := by
  rw [meanings, List.length_map, ← List.length_map FormToken.token, map_token_formTokens]

/-- The tokens of the form of a line stand for what the tokens of the line do. -/
theorem Declaration.map_meaning_tokens (hts : tokenize line = .ok ts) :
    (LineForm.of rules (d.params.map fun param => (Param.name? param).getD []) line).tokens.map
      FormToken.meaning = d.meanings rules ts :=
  congrArg (List.map FormToken.meaning) (LineForm.tokens_of_ok hts)

/-- What stands for a token at a position is the meaning of the token there. -/
theorem Declaration.exists_of_getElem?_meanings {j : Nat} {meaning : Nat ⊕ Text}
    (h : (d.meanings rules ts)[j]? = some meaning) :
    ∃ t ∈ formTokens (d.positionalNames rules) none ts, ts[j]? = some t.token ∧
      t.meaning = meaning := by
  rw [meanings, List.getElem?_map, Option.map_eq_some_iff] at h
  obtain ⟨t, ht, hmeaning⟩ := h
  refine ⟨t, List.mem_of_getElem? ht, ?_, hmeaning⟩
  conv_lhs => rw [← map_token_formTokens (d.positionalNames rules) none ts]
  rw [List.getElem?_map, ht, Option.map_some]

/-- A token that stands for a position is the name of the parameter there.  This happens only where
the names of parameters are ignored. -/
theorem Declaration.namesParam_of_param {t : FormToken} {k : Nat}
    (ht : t ∈ formTokens (d.positionalNames rules) none ts) (hparam : t.param = some k)
    (hne : t.token.text ≠ []) :
    rules.ignoreParamNames = true ∧ d.NamesParam k t.token.text := by
  have hname := name_of_mem_formTokens ht hparam
  unfold positionalNames at hname
  split at hname
  · rename_i hignore
    refine ⟨hignore, ?_⟩
    rw [List.getElem?_map, Option.map_eq_some_iff] at hname
    obtain ⟨param, hparam, hname⟩ := hname
    refine ⟨param, hparam, ?_⟩
    rcases hnamed : Param.name? param with _ | name
    · rw [hnamed] at hname
      exact absurd hname.symm hne
    · rw [hnamed] at hname
      exact congrArg some hname
  · cases hname

/-- No token is empty. -/
theorem text_ne_nil_of_tokenize (hts : tokenize line = .ok ts) {t : Token} (ht : t ∈ ts) :
    t.text ≠ [] := by
  obtain ⟨_, _, hreads⟩ := exists_reads_of_tokenize hts t ht
  exact hreads.ne_nil

/-- Tokens that stand for the same agree.  They have one text, or stand for one position on both
sides. -/
theorem agreeAt_of_meaning_eq {line' : Text} (hts : tokenize line = .ok ts)
    (hus : tokenize line' = .ok us) {j : Nat} (hj : j < ts.length)
    (hmeaning : (left.meanings rules ts)[j]? = (right.meanings rules us)[j]?) :
    AgreeAt rules left right ts us j := by
  have hj' : j < (left.meanings rules ts).length := by simpa using hj
  have hsome := List.getElem?_eq_getElem hj'
  obtain ⟨t, ht, hat, htm⟩ := Declaration.exists_of_getElem?_meanings hsome
  obtain ⟨u, hu, hat', hum⟩ :=
    Declaration.exists_of_getElem?_meanings (hmeaning.symm.trans hsome)
  refine ⟨t.token, u.token, hat, hat', ?_⟩
  have hsame : u.meaning = t.meaning := hum.trans htm.symm
  rcases hparam : t.param with _ | k
  · have htext := FormToken.meaning_eq_inr_iff.mpr ⟨hparam, rfl⟩
    exact .inl (FormToken.meaning_eq_inr_iff.mp (hsame.trans htext)).2.symm
  · have hposition := FormToken.meaning_eq_inl_iff.mpr hparam
    have hparam' := FormToken.meaning_eq_inl_iff.mp (hsame.trans hposition)
    obtain ⟨hignore, hleft⟩ := Declaration.namesParam_of_param ht hparam
      (text_ne_nil_of_tokenize hts (List.mem_of_getElem? hat))
    obtain ⟨-, hright⟩ := Declaration.namesParam_of_param hu hparam'
      (text_ne_nil_of_tokenize hus (List.mem_of_getElem? hat'))
    exact .inr ⟨hignore, k, hleft, hright⟩

end

/-! ### Operands -/

/-- A token that an argument can stand for: a literal (a template only without substitutions), a
constant, or the name of a function that is called by the token `after`. -/
inductive Token.IsOperand (t : Token) (after : Option Token) : Prop
  | number (hkind : t.kind = .number)
  | string (hkind : t.kind = .string)
  | template (hkind : t.kind = .template) (hplain : ¬['$', '{'] <:+: t.text)
  | constant (hkind : t.kind = .ident) (hword : t.isAnyOf ["true", "false", "null"] = true)
  | callee (hkind : t.kind = .ident) (hcalled : ∃ a, after = some a ∧ a.punctIs "(" = true)

/-- The token number `p` of a line is an operand with a given span and text.  It is no property
and neither assigned nor counted up or down. -/
structure OperandAt (line : Text) (ts : List Token) (p : Nat) (span : Span) (text : Text) :
    Prop where
  exists_token : ∃ t, ts[p]? = some t ∧ span = ⟨t.start, t.stop⟩ ∧ t.IsOperand ts[p + 1]?
  exists_split : ∃ before behind, line = before ++ (text ++ behind) ∧
    span.start = before.size ∧ span.stop = (before ++ text).size
  before : ∀ j b, j + 1 = p → ts[j]? = some b → b.isAnyOf [".", "?.", "++", "--"] = false
  after : ∀ a, ts[p + 1]? = some a → a.isAnyOf assignOps = false

section

variable {f : FunctionForm} {before after : Option Token} {t : FormToken}

/-- What is replaced stands between no tokens that forbid it. -/
theorem neighbours_of_isReplaceable (h : f.isReplaceable before t after = true) :
    (∀ b, before = some b → b.isAnyOf [".", "?.", "++", "--"] = false) ∧
      ∀ a, after = some a → a.isAnyOf assignOps = false := by
  unfold FunctionForm.isReplaceable at h
  split at h
  · cases h
  · rename_i hcond
    simp only [Bool.or_eq_true, not_or, Bool.not_eq_true] at hcond
    obtain ⟨⟨hbefore, hafter⟩, -⟩ := hcond
    refine ⟨?_, ?_⟩
    · rintro b rfl
      exact hbefore
    · rintro a rfl
      exact hafter

/-- What is replaced is an operand.  It is a number, a string, a template without substitutions, a
constant word or a callee. -/
theorem isOperand_of_isReplaceable (h : f.isReplaceable before t after = true)
    (hparen : ∀ a, after = some a → a.text = ['('] → a.punctIs "(" = true) :
    t.token.IsOperand after := by
  unfold FunctionForm.isReplaceable at h
  split at h
  · cases h
  split at h <;> rename_i hkind
  · exact .number hkind
  · exact .string hkind
  · simp only [Bool.and_eq_true, Bool.not_eq_true', FunctionForm.hasSubstitution] at h
    refine .template hkind fun hmarker => ?_
    rw [← Text.isSome_find?_iff, h.2] at hmarker
    cases hmarker
  · simp only [Bool.or_eq_true, Bool.and_eq_true] at h
    rcases h with hword | ⟨⟨⟨⟨⟨hcalled, -⟩, -⟩, -⟩, -⟩, -⟩
    · exact .constant hkind hword
    · rw [Option.any_eq_true] at hcalled
      obtain ⟨a, ha, htext⟩ := hcalled
      exact .callee hkind ⟨a, ha, hparen a ha (of_decide_eq_true htext)⟩
  · cases h
  · cases h

end

section

variable {line : Text} {ts : List Token}

/-- Only a punctuator is written like an opening parenthesis. -/
theorem punctIs_of_text_eq (hts : tokenize line = .ok ts) {t : Token} (ht : t ∈ ts)
    (htext : t.text = ['(']) : t.punctIs "(" = true := by
  obtain ⟨previous, tail, hreads⟩ := exists_reads_of_tokenize hts t ht
  rw [htext] at hreads
  have hkind := kind_eq_of_reads hreads (reads_delimiter (by decide) none []) (by decide)
  simp [Token.punctIs, hkind, htext]

/-- A token is the text in its span. -/
theorem exists_split_of_tokenize (hts : tokenize line = .ok ts) {t : Token} (ht : t ∈ ts) :
    ∃ before behind, line = before ++ (t.text ++ behind) ∧ t.start = before.size ∧
      t.stop = (before ++ t.text).size := by
  obtain ⟨closing, hline⟩ := exists_closing_of_tokenize hts
  obtain ⟨before, behind, hsplit, hstart⟩ := (placed_of_tokenize hts).exists_split t ht
  rw [Nat.zero_add] at hstart
  refine ⟨before, behind ++ closing, ?_, hstart, ?_⟩
  · rw [hline, hsplit]
    simp only [List.append_assoc]
  · rw [Token.stop, ← Token.start, hstart, Text.size_append]

end

/-! ### Slots -/

/-- The token `t`, number `p` of the line number `i` of a function, can be replaced.  The line is
lexed as the tokens `ts`. -/
structure Declaration.HasSlot (d : Declaration) (rules : LineRules) (i p : Nat)
    (line : LogicalLine) (ts : List Token) (t : FormToken) : Prop where
  line_eq : d.lines[i]? = some line
  lexed : tokenize line.text = .ok ts
  token_eq : ts[p]? = some t.token
  formToken_eq : (LineForm.of rules (d.params.map fun param => (Param.name? param).getD [])
    line.text).tokens[p]? = some t
  replaceable : (FunctionForm.of rules d).isReplaceableAt
    (.of rules (d.params.map fun param => (Param.name? param).getD []) line.text) p = true

/-- **What is replaced in a line is an operand of it.**  What stands around it is taken from the
line. -/
theorem Declaration.HasSlot.operandAt {d : Declaration} {rules : LineRules} {i p : Nat}
    {line : LogicalLine} {ts : List Token} {t : FormToken} (h : d.HasSlot rules i p line ts t) :
    OperandAt line.text ts p t.span t.token.text := by
  have hreplaceable := h.replaceable
  rw [FunctionForm.isReplaceableAt, h.formToken_eq, LineForm.lexed_of_ok h.lexed,
    Option.any_some] at hreplaceable
  obtain ⟨hbefore, hafter⟩ := neighbours_of_isReplaceable hreplaceable
  refine ⟨⟨t.token, h.token_eq, rfl, isOperand_of_isReplaceable hreplaceable fun a ha => ?_⟩,
    exists_split_of_tokenize h.lexed (List.mem_of_getElem? h.token_eq), ?_, hafter⟩
  · exact punctIs_of_text_eq h.lexed (List.mem_of_getElem? ha)
  · rintro j b rfl hb
    refine hbefore b ?_
    rwa [if_neg (Nat.succ_ne_zero j), Nat.add_sub_cancel]

/-- **An expression is a slot of either function**, and nothing else of their lines differs.  The
slot is at the same place among the tokens on both sides. -/
theorem exists_slots_of_compare {rules : LineRules} {left right : Declaration} {i : Nat}
    {pair : ExprPair}
    (h : left.compare rules right = .nearDuplicate (.substituted i) (.expression pair)) :
    ∃ p l ts t r us u, left.HasSlot rules i p l ts t ∧ right.HasSlot rules i p r us u ∧
      pair = ⟨t.span, t.token.text, u.span, u.token.text⟩ ∧
      DifferOnlyAt p (left.meanings rules ts) (right.meanings rules us) := by
  obtain ⟨-, -, l, r, hl, hr, hexpression⟩ := FunctionForm.exists_of_compare_substituted h
  obtain ⟨p, t, u, ht, hu, hpair, hreplaceable, hreplaceable', hdiffer⟩ :=
    exists_of_expression hexpression.symm
  obtain ⟨line, ts, hline, hts, hat, rfl⟩ := exists_lexed_of_form hl ht
  obtain ⟨line', us, hline', hus, hat', rfl⟩ := exists_lexed_of_form hr hu
  rw [Declaration.map_meaning_tokens hts, Declaration.map_meaning_tokens hus] at hdiffer
  exact ⟨p, line, ts, t, line', us, u, ⟨hline, hts, hat, ht, hreplaceable⟩,
    ⟨hline', hus, hat', hu, hreplaceable'⟩, hpair, hdiffer⟩

/-! ### The difference of two functions -/

/-- **An expression is the whole difference of its line.**  When two functions differ in one
expression of line `i`, the lines of that number hold equally many tokens.  They agree at every
position but one, and in what they stand for they differ there and nowhere else.  At that position
either line has an operand, which the expression names by its span and its text. -/
theorem expression_is_whole_difference {rules : LineRules} {left right : Declaration} {i : Nat}
    {pair : ExprPair}
    (h : left.compare rules right = .nearDuplicate (.substituted i) (.expression pair)) :
    ∃ l r ts us p, left.lines[i]? = some l ∧ right.lines[i]? = some r ∧
      tokenize l.text = .ok ts ∧ tokenize r.text = .ok us ∧ ts.length = us.length ∧
      (∀ j < ts.length, j ≠ p → AgreeAt rules left right ts us j) ∧
      DifferOnlyAt p (left.meanings rules ts) (right.meanings rules us) ∧
      OperandAt l.text ts p pair.left pair.leftText ∧
      OperandAt r.text us p pair.right pair.rightText := by
  obtain ⟨p, l, ts, t, r, us, u, hleft, hright, rfl, hdiffer⟩ := exists_slots_of_compare h
  refine ⟨l, r, ts, us, p, hleft.line_eq, hright.line_eq, hleft.lexed, hright.lexed,
    by simpa using hdiffer.1, ?_, hdiffer, hleft.operandAt, hright.operandAt⟩
  intro j hj hne
  exact agreeAt_of_meaning_eq hleft.lexed hright.lexed hj (not_not.mp fun hat => hne ((hdiffer.2 j).mp hat))

/-- Two functions that call different functions on their parameters, which have different names: the
callees are the whole difference where parameters are compared by position. -/
theorem expression_is_whole_difference_of_callees :
    ∃ f ∈ (extract "function f(a)\x7breturn p(a)\x7dfunction g(b)\x7breturn q(b)\x7d".toList
        {}).declarations,
      ∃ g ∈ (extract "function f(a)\x7breturn p(a)\x7dfunction g(b)\x7breturn q(b)\x7d".toList
        {}).declarations,
      f.compare ⟨true, true⟩ g = .nearDuplicate (.substituted 0)
          (.expression ⟨⟨7, 8⟩, ['p'], ⟨7, 8⟩, ['q']⟩) ∧
        ∃ l r ts us p, f.lines[0]? = some l ∧ g.lines[0]? = some r ∧
          tokenize l.text = .ok ts ∧ tokenize r.text = .ok us ∧ ts.length = us.length ∧
          (∀ j < ts.length, j ≠ p → AgreeAt ⟨true, true⟩ f g ts us j) ∧
          DifferOnlyAt p (f.meanings ⟨true, true⟩ ts) (g.meanings ⟨true, true⟩ us) ∧
          OperandAt l.text ts p ⟨7, 8⟩ ['p'] ∧ OperandAt r.text us p ⟨7, 8⟩ ['q'] := by
  have hcompare :
      ∃ f ∈ (extract "function f(a)\x7breturn p(a)\x7dfunction g(b)\x7breturn q(b)\x7d".toList
        {}).declarations,
      ∃ g ∈ (extract "function f(a)\x7breturn p(a)\x7dfunction g(b)\x7breturn q(b)\x7d".toList
        {}).declarations,
      f.compare ⟨true, true⟩ g = .nearDuplicate (.substituted 0)
          (.expression ⟨⟨7, 8⟩, ['p'], ⟨7, 8⟩, ['q']⟩) := by
    decide +kernel
  obtain ⟨f, hf, g, hg, hverdict⟩ := hcompare
  exact ⟨f, hf, g, hg, hverdict, expression_is_whole_difference hverdict⟩

end Twinfold
