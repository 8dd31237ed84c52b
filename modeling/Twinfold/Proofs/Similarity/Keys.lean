import Mathlib.Data.List.InsertIdx
import Twinfold.Proofs.Similarity.Alignment
import Twinfold.Proofs.Token.Spelling

/-!
# Keys and tokens

Where parameters are compared by name, the key of a line is the text of its tokens with single
spaces in between, and token texts may hold spaces themselves.  Yet lines with one key have the same
tokens: a key can be lexed again (`tokenize_spaced`), and that gives the tokens back
(`lineTexts_eq_of_key_eq`).  And since it can be lexed, a key is never the text of a line that
cannot be.

When the difference of two lines is one expression, the tokens of the lines stand for the same but
for one (`exists_of_expression`).

* `spacing_keeps_tokens` — tokens tell keys, and keys tell tokens.
-/

namespace Twinfold

/-! ### The texts of a line -/

/-- The texts of the tokens of a line; or the line, if it cannot be lexed. -/
inductive LineTexts
  | tokens (texts : List Text)
  | unlexed (line : Text)
deriving DecidableEq, Repr

/-- The texts of a line. -/
def LineTexts.of (line : Text) : LineTexts :=
  match tokenize line with
  | .ok ts => .tokens (ts.map Token.text)
  | .error _ => .unlexed line

theorem lineTexts_of_ok {line : Text} {ts : List Token} (h : tokenize line = .ok ts) :
    LineTexts.of line = .tokens (ts.map Token.text) := by
  rw [LineTexts.of, h]

theorem lineTexts_of_error {line : Text} {e : ParseError} (h : tokenize line = .error e) :
    LineTexts.of line = .unlexed line := by
  rw [LineTexts.of, h]

/-! ### Keys -/

/-- Without names no token names a parameter. -/
theorem formTokens_nil (before : Option Token) (ts : List Token) :
    formTokens [] before ts = ts.map fun t => ⟨t, none⟩ := by
  induction ts generalizing before with
  | nil => rfl
  | cons t ts ih => simp [formTokens, paramPosition?, ih]

/-- The tokens of a form are those of the line. -/
theorem map_token_formTokens (names : List Text) (before : Option Token) (ts : List Token) :
    (formTokens names before ts).map FormToken.token = ts := by
  induction ts generalizing before with
  | nil => rfl
  | cons t ts ih => rw [formTokens, List.map_cons, ih]

section

variable {rules : LineRules} {names names' : List Text} {line : Text}

/-- The forms of a function are those of its lines. -/
theorem getElem?_lines (rules : LineRules) (d : Declaration) (n : Nat) :
    (FunctionForm.of rules d).lines[n]? = d.lines[n]?.map fun line =>
      .of rules (d.params.map fun param => (Param.name? param).getD []) line.text := by
  simp [FunctionForm.of]

/-- The tokens of a line with the parameters they name. -/
theorem LineForm.tokens_of_ok {ts : List Token} (h : tokenize line = .ok ts) :
    (LineForm.of rules names line).tokens =
      formTokens (if rules.ignoreParamNames then names else []) none ts := by
  unfold LineForm.of
  rw [h]

theorem LineForm.lexed_of_ok {ts : List Token} (h : tokenize line = .ok ts) :
    (LineForm.of rules names line).lexed = ts := by
  rw [lexed, tokens_of_ok h, map_token_formTokens]

/-- What is compared of a line that can be lexed where parameters are compared by name: all its
tokens, none of which names a parameter, and for a key their texts with single spaces in between,
or the line itself if white space matters. -/
theorem LineForm.of_ok (hnames : rules.ignoreParamNames = false) {ts : List Token}
    (h : tokenize line = .ok ts) :
    (LineForm.of rules names line).tokens = ts.map (fun t => ⟨t, none⟩) ∧
      (LineForm.of rules names line).key =
        if rules.normalizeWhitespace then Text.join [' '] (ts.map Token.text) else line := by
  obtain ⟨closing, hclosing⟩ := exists_closing_of_tokenize h
  have hwords : (ts.map fun t => (⟨t, none⟩ : FormToken)).map FormToken.word =
      ts.map Token.text := by
    simp [FormToken.word]
  have hsource : ((ts.map fun t => (⟨t, none⟩ : FormToken)).flatMap fun t =>
      t.token.gap ++ t.word) = Token.sourceOf ts := by
    simp only [FormToken.word, List.flatMap_map]
    rfl
  unfold LineForm.of
  rw [h]
  dsimp only
  rw [hnames, if_neg Bool.false_ne_true, formTokens_nil, hwords, hsource]
  refine ⟨rfl, ?_⟩
  split
  · rfl
  · rw [hclosing, List.drop_left]

/-- Where parameters are compared by name, the words of a line are the texts of its tokens. -/
theorem LineForm.map_word_of_ok (hnames : rules.ignoreParamNames = false) {ts : List Token}
    (h : tokenize line = .ok ts) :
    (LineForm.of rules names line).tokens.map FormToken.word = ts.map Token.text := by
  rw [(of_ok hnames h).1, List.map_map]
  rfl

/-- The word of a token is its text. -/
theorem LineForm.word_of_ok (hnames : rules.ignoreParamNames = false) {ts : List Token}
    (h : tokenize line = .ok ts) {t : FormToken} (ht : t ∈ (LineForm.of rules names line).tokens) :
    t.word = t.token.text := by
  rw [(of_ok hnames h).1] at ht
  obtain ⟨u, -, rfl⟩ := List.mem_map.mp ht
  rfl

/-- A line that cannot be lexed has no tokens, and is its own key. -/
theorem LineForm.of_error {e : ParseError} (h : tokenize line = .error e) :
    (LineForm.of rules names line).tokens = [] ∧ (LineForm.of rules names line).key = line := by
  unfold LineForm.of
  rw [h]
  exact ⟨rfl, rfl⟩

/-- **A line with a token can be lexed**, and the token is one of its tokens.  A line that cannot
be lexed has no tokens, and its text for a key. -/
theorem exists_lexed_of_form {d : Declaration} {n i : Nat} {form : LineForm} {t : FormToken}
    (hform : (FunctionForm.of rules d).lines[n]? = some form) (ht : form.tokens[i]? = some t) :
    ∃ line ts, d.lines[n]? = some line ∧ tokenize line.text = .ok ts ∧ ts[i]? = some t.token ∧
      form = .of rules (d.params.map fun param => (Param.name? param).getD []) line.text := by
  rw [getElem?_lines] at hform
  obtain ⟨line, hline, rfl⟩ := Option.map_eq_some_iff.mp hform
  rcases hts : tokenize line.text with e | ts
  · rw [(LineForm.of_error hts).1] at ht
    cases ht
  · refine ⟨line, ts, hline, hts, ?_, rfl⟩
    rw [← LineForm.lexed_of_ok hts, LineForm.lexed, List.getElem?_map, ht]
    rfl

/-- **Keys tell tokens.**  Lines with the same key have the same tokens.  Where white space does
not count both keys are lexed again; otherwise the keys are the lines. -/
theorem lineTexts_eq_of_key_eq (hnames : rules.ignoreParamNames = false) {line line' : Text}
    (hkey : (LineForm.of rules names line).key = (LineForm.of rules names' line').key) :
    LineTexts.of line = LineTexts.of line' := by
  rcases h : tokenize line with e | ts <;> rcases h' : tokenize line' with e' | ts'
  · rw [(LineForm.of_error h).2, (LineForm.of_error h').2] at hkey
    rw [hkey]
  · rw [(LineForm.of_error h).2, (LineForm.of_ok hnames h').2] at hkey
    split at hkey
    · -- The key of the one line can be lexed, and it is the other line.
      obtain ⟨us, hus, _⟩ := tokenize_spaced h'
      rw [← hkey, h] at hus
      cases hus
    · rw [hkey]
  · rw [(LineForm.of_ok hnames h).2, (LineForm.of_error h').2] at hkey
    split at hkey
    · obtain ⟨us, hus, _⟩ := tokenize_spaced h
      rw [hkey, h'] at hus
      cases hus
    · rw [hkey]
  · rw [(LineForm.of_ok hnames h).2, (LineForm.of_ok hnames h').2] at hkey
    split at hkey
    · obtain ⟨us, hus, hwords⟩ := tokenize_spaced h
      obtain ⟨us', hus', hwords'⟩ := tokenize_spaced h'
      rw [← hkey, hus] at hus'
      cases hus'
      rw [lineTexts_of_ok h, lineTexts_of_ok h', map_text_of_map_word (hwords.symm.trans hwords')]
    · rw [hkey]

end

/-! ### A difference in one expression -/

namespace FormToken

/-- What a token stands for where lines are compared: the position of the parameter it names, or
its text. -/
def meaning (t : FormToken) : Nat ⊕ Text :=
  match t.param with
  | some position => .inl position
  | none => .inr t.token.text

/-- Tokens are the same if they stand for the same. -/
theorem same_eq (t u : FormToken) : t.same u = decide (t.meaning = u.meaning) := by
  unfold same meaning
  rcases t.param with _ | p <;> rcases u.param with _ | q <;> simp

/-- What stands in a key for a meaning. -/
def spelled : Nat ⊕ Text → Text
  | .inl position => '\x00' :: Text.ofNat position
  | .inr text => text

theorem word_eq (t : FormToken) : t.word = spelled t.meaning := by
  unfold word meaning
  rcases t.param with _ | p <;> rfl

/-- Lines whose tokens stand for the same but at one position have the same words but there. -/
theorem map_word_of_differOnlyAt {ts us : List FormToken} {i : Nat} {u : FormToken}
    (h : DifferOnlyAt i (ts.map meaning) (us.map meaning)) (hu : us[i]? = some u) :
    us.map word = (ts.map word).set i u.word := by
  obtain ⟨hlen, -, -, herase⟩ := differOnlyAt_iff.mp h
  have hwords : ∀ ts : List FormToken, ts.map word = (ts.map meaning).map spelled := by
    intro ts
    rw [List.map_map]
    exact List.map_congr_left fun t _ => t.word_eq
  have herase' : (ts.map word).eraseIdx i = (us.map word).eraseIdx i := by
    rw [hwords, hwords, List.eraseIdx_map spelled, List.eraseIdx_map spelled, herase]
  obtain ⟨hlt, hget⟩ := List.getElem?_eq_some_iff.mp hu
  have hset := eq_set_of_eraseIdx (by simpa using hlen) (by simpa using hlt) herase'
  rwa [List.getElem_map, hget] at hset

end FormToken

/-- **One expression.**  When the difference of two lines is one expression, their tokens stand for
the same but for one, which can be replaced in either line. -/
theorem exists_of_expression {left right : FunctionForm} {l r : LineForm} {pair : ExprPair}
    (h : substitution left l right r = .expression pair) :
    ∃ i t u, l.tokens[i]? = some t ∧ r.tokens[i]? = some u ∧
      pair = ⟨t.span, t.token.text, u.span, u.token.text⟩ ∧
      left.isReplaceableAt l i = true ∧ right.isReplaceableAt r i = true ∧
      DifferOnlyAt i (l.tokens.map FormToken.meaning) (r.tokens.map FormToken.meaning) := by
  unfold substitution at h
  split at h
  · cases h
  · dsimp only at h
    split at h
    · rename_i t u ht hu hcond
      simp only [Bool.and_eq_true, decide_eq_true_eq] at hcond
      obtain ⟨⟨⟨hleft, hright⟩, hreplaceable⟩, hreplaceable'⟩ := hcond
      refine ⟨_, t, u, ht, hu, (Difference.expression.inj h).symm, hreplaceable,
        hreplaceable', ?_⟩
      refine differOnlyAt_of_agreement (agreement_eq_map FormToken.same_eq _ _) ?_
        (by simpa using hleft) (by simpa using hright)
      rw [agreement_eq_map FormToken.same_eq, List.map_reverse, List.map_reverse, List.map_drop,
        List.map_drop]
    · split at h <;> cases h

/-! ### Tokens tell keys -/

section

variable {rules : LineRules} {names names' : List Text} {line line' : Text} {ts ts' : List Token}

/-- **Tokens tell keys**, and keys tell tokens.  A key is the texts of the tokens with a space
between every two of them. -/
theorem key_eq_iff (hnormal : rules.normalizeWhitespace = true)
    (hnames : rules.ignoreParamNames = false) (hts : tokenize line = .ok ts)
    (hts' : tokenize line' = .ok ts') :
    (LineForm.of rules names line).key = (LineForm.of rules names' line').key ↔
      ts.map Token.text = ts'.map Token.text := by
  constructor
  · intro hkey
    have htexts := lineTexts_eq_of_key_eq hnames hkey
    rw [lineTexts_of_ok hts, lineTexts_of_ok hts'] at htexts
    exact LineTexts.tokens.inj htexts
  · intro htexts
    rw [(LineForm.of_ok hnames hts).2, (LineForm.of_ok hnames hts').2, if_pos hnormal,
      if_pos hnormal, htexts]

/-- A line that cannot be lexed has no key of a line that can be. -/
theorem key_ne_of_error (hnames : rules.ignoreParamNames = false) (hts : tokenize line = .ok ts)
    {e : ParseError} (herror : tokenize line' = .error e) :
    (LineForm.of rules names line).key ≠ (LineForm.of rules names' line').key := by
  intro hkey
  have htexts := lineTexts_eq_of_key_eq hnames hkey
  rw [lineTexts_of_ok hts, lineTexts_of_error herror] at htexts
  cases htexts

end

/-- **Tokens are stable under spacing.**  The texts of the tokens of a text, with single spaces in
between, hold tokens of the same kinds and texts.  So, when white space does not count and
parameters are compared by name, two lines that can be lexed have the same key if and only if
their tokens have the same texts, and a line that cannot be lexed has another key. -/
theorem spacing_keeps_tokens {source : Text} {ts : List Token} (hts : tokenize source = .ok ts) :
    (∃ us, tokenize (Text.join [' '] (ts.map Token.text)) = .ok us ∧
      us.map Token.word = ts.map Token.word) ∧
    ∀ (rules : LineRules) (names names' : List Text) (line : Text),
      rules.normalizeWhitespace = true → rules.ignoreParamNames = false →
      (∀ us, tokenize line = .ok us →
        ((LineForm.of rules names source).key = (LineForm.of rules names' line).key ↔
          ts.map Token.text = us.map Token.text)) ∧
      ∀ e, tokenize line = .error e →
        (LineForm.of rules names source).key ≠ (LineForm.of rules names' line).key := by
  refine ⟨tokenize_spaced hts, fun rules names names' line hnormal hnames => ⟨?_, ?_⟩⟩
  · intro us hus
    exact key_eq_iff hnormal hnames hts hus
  · intro e herror
    exact key_ne_of_error hnames hts herror

/-- Two spellings of a quotient, in which a comment and a regular expression stand, and a string
without an end. -/
theorem spacing_keeps_quotient : ∃ ts us e,
    tokenize "a/b/*c*/=/d /g".toList = .ok ts ∧ tokenize "a / b = /d /g".toList = .ok us ∧
    tokenize "'a".toList = .error e ∧
    (∃ vs, tokenize (Text.join [' '] (ts.map Token.text)) = .ok vs ∧
      vs.map Token.word = ts.map Token.word) ∧
    ((LineForm.of {} [] "a/b/*c*/=/d /g".toList).key =
        (LineForm.of {} [] "a / b = /d /g".toList).key ↔
      ts.map Token.text = us.map Token.text) ∧
    (LineForm.of {} [] "a/b/*c*/=/d /g".toList).key ≠ (LineForm.of {} [] "'a".toList).key := by
  have hlexed : (tokenize "a/b/*c*/=/d /g".toList).toBool = true ∧
      (tokenize "a / b = /d /g".toList).toBool = true ∧ (tokenize "'a".toList).toBool = false := by
    decide +kernel
  rcases hts : tokenize "a/b/*c*/=/d /g".toList with e | ts
  · rw [hts] at hlexed
    cases hlexed.1
  rcases hus : tokenize "a / b = /d /g".toList with e | us
  · rw [hus] at hlexed
    cases hlexed.2.1
  rcases herror : tokenize "'a".toList with e | vs
  · obtain ⟨hspaced, hkeys⟩ := spacing_keeps_tokens hts
    exact ⟨ts, us, e, rfl, rfl, rfl, hspaced, (hkeys {} [] [] _ rfl rfl).1 us hus,
      (hkeys {} [] [] _ rfl rfl).2 e herror⟩
  · rw [herror] at hlexed
    cases hlexed.2.2

end Twinfold
