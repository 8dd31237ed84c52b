import Mathlib.Data.List.Nodup
import Twinfold.Proofs.Similarity.Expressions
import Twinfold.Proofs.Text.Split
import Twinfold.Proofs.Token.Renaming

/-!
# Keys where parameters go by position

In the key of a line, a word that names a parameter is the null character with the position.  A key
still tells the tokens of its line, if no text of the line holds the null character and no
parameter has a name behind which a slash begins a regular expression
(`Declaration.TellsTokens`): with a dollar sign for every null character the words become
identifiers, and the key can be lexed again.

* `Declaration.words_eq_of_key_eq` — lines with the same key have the same tokens, but for the names of
  parameters, which are marked.
-/

namespace Twinfold

/-! ### Marks -/

/-- The text with dollar signs for null characters. -/
def unmarked (t : Text) : Text := t.map fun c => if c = '\x00' then '$' else c

@[simp] theorem unmarked_nil : unmarked [] = [] := rfl

@[simp] theorem unmarked_append (t u : Text) : unmarked (t ++ u) = unmarked t ++ unmarked u :=
  List.map_append

/-- There is nothing to replace in a text without null characters. -/
theorem unmarked_of_not_mem {t : Text} (h : '\x00' ∉ t) : unmarked t = t := by
  have hsame : ∀ c ∈ t, (if c = '\x00' then '$' else c) = id c := by
    intro c hc
    refine if_neg ?_
    rintro rfl
    exact h hc
  rw [unmarked, List.map_congr_left hsame, List.map_id]

/-- In joined texts the null characters are replaced one text after the other. -/
theorem unmarked_join (ts : List Text) :
    unmarked (Text.join [' '] ts) = Text.join [' '] (ts.map unmarked) := by
  induction ts with
  | nil => rfl
  | cons t ts ih =>
    cases ts with
    | nil => simp [Text.join]
    | cons u us =>
      rw [Text.join_cons_cons, unmarked_append, unmarked_append, ih]
      exact (Text.join_cons_cons _ _ _ _).symm

/-- The identifier for a position. -/
def markAt (position : Nat) : Text := '$' :: Text.ofNat position

theorem isDigit_of_mem_ofNat {c : Char} {n : Nat} (h : c ∈ Text.ofNat n) : c.isDigit = true :=
  Nat.isDigit_of_mem_toDigits (by decide) (by decide) h

/-- A position becomes its mark. -/
theorem unmarked_mark (position : Nat) :
    unmarked ('\x00' :: Text.ofNat position) = markAt position := by
  have hdigits : '\x00' ∉ Text.ofNat position := fun h =>
    absurd (isDigit_of_mem_ofNat h) (by decide)
  have hrest := unmarked_of_not_mem hdigits
  rw [unmarked] at hrest ⊢
  rw [List.map_cons, hrest, if_pos rfl, markAt]

/-- A mark is an identifier. -/
theorem isName_markAt (position : Nat) : IsName (markAt position) := by
  refine isName_of_continues (by decide) (by decide) fun d hd => ?_
  have hdigit := isDigit_of_mem_ofNat hd
  refine ⟨by rw [continuesIdent, hdigit, Bool.or_true], ?_⟩
  by_contra hwide
  simp only [isWideSpace, Bool.not_eq_false, Bool.or_eq_true, decide_eq_true_eq] at hwide
  rcases hwide with ((rfl | rfl) | rfl) | rfl <;> exact absurd hdigit (by decide)

namespace FormToken

/-- The token with the mark of its position in the place of the name of a parameter. -/
def marked (t : FormToken) : Token :=
  match t.param with
  | some position => t.token.named (markAt position)
  | none => t.token

/-- The word of a token, with dollar signs, is the text of the marked token. -/
theorem unmarked_word {t : FormToken} (h : '\x00' ∉ t.token.text) :
    unmarked t.word = t.marked.text := by
  unfold word marked
  rcases t.param with _ | position
  · exact unmarked_of_not_mem h
  · exact unmarked_mark position

@[simp] theorem gap_marked (t : FormToken) : t.marked.gap = t.token.gap := by
  unfold marked
  rcases t.param with _ | position <;> rfl

end FormToken

/-! ### Marked lines -/

/-- Behind a mark a slash divides. -/
theorem slashBeginsRegex_mark (t : Token) (position : Nat) :
    slashBeginsRegex (some (t.named (markAt position))) = false := by
  have hdollar : ∀ s ∈ wordsBeforeRegex, s.toList.head? ≠ some '$' := by decide
  simp only [slashBeginsRegex, Token.named, Token.isAnyOf, List.any_eq_false]
  intro s hs htext
  exact hdollar s hs (by rw [← of_decide_eq_true htext]; rfl)

/-- A letter can be exchanged for a dollar sign in front of a token.  A dollar sign goes on an
identifier, and it is in no punctuator and in no number. -/
theorem endsBefore_dollar {kind : TokenKind} {text rest rest' : Text} {d : Char}
    (h : endsBefore kind text (d :: rest)) (hbegins : beginsIdent d = true)
    (hwide : isWideSpace d = false) : endsBefore kind text ('$' :: rest') := by
  have hcontinues : continuesIdent d = true := by rw [continuesIdent, hbegins, Bool.true_or]
  cases kind with
  | string => rfl
  | template => rfl
  | regex => simp [endsBefore, hcontinues] at h
  | ident => simp [endsBefore, hcontinues, hwide] at h
  | number => simp [endsBefore, continuesNumber]
  | punct =>
    have hdollar : InNoPunct '$' := by
      unfold InNoPunct
      decide
    simp only [endsBefore, punctLength_append_cons (inNoPunct_of_beginsIdent hbegins),
      punctLength_append_cons hdollar, Bool.and_eq_true] at h ⊢
    exact ⟨⟨h.1.1, by simp⟩, by simp⟩

/-- Tokens that get the marks of positions: identifiers behind which a slash divides. -/
def Marks (names : Token → Option Text) (t : Token) : Prop :=
  ∀ name, names t = some name →
    t.kind = .ident ∧ slashBeginsRegex (some t) = false ∧ ∃ position, name = markAt position

section

variable {names : Token → Option Text} {previous : Option Token} {t u : Token} {ts : List Token}
  {tail : Text}

/-- A mark is a name that its token can get. -/
theorem Marks.nameable (h : Marks names t) (hreads : Reads previous t.kind t.text tail) :
    t.Nameable names where
  isName name hname := by
    obtain ⟨_, _, position, rfl⟩ := h name hname
    exact isName_markAt position
  slash hsome := by
    obtain ⟨name, hname⟩ := Option.isSome_iff_exists.mp hsome
    obtain ⟨hkind, hslash, -⟩ := h name hname
    rw [hkind] at hreads
    obtain ⟨c, body, htext, -, -, hc⟩ := exists_head_of_ident hreads
    exact ⟨hslash, by simpa [htext] using hc⟩

/-- A mark does not run together with a neighbour.  A token directly in front of a word ends in
front of its first letter, and so it does in front of the mark; what stands directly behind a word
does not go on with it, nor with its mark. -/
theorem Marks.apartFrom (ht : Marks names t) (hu : Marks names u)
    (hreads : Reads previous t.kind t.text (u.gap ++ (u.text ++ tail)))
    (hreads' : Reads (some t) u.kind u.text tail) : t.ApartFrom names u := by
  intro hnamed hgap
  have hends := hreads.endsBefore
  obtain ⟨hstart, d, body, htext, -⟩ := id hreads'
  rw [hgap, List.nil_append, htext, List.cons_append] at hends
  rw [htext, List.cons_append, startsToken_append_iff] at hstart
  have hspace : isGapSpace d = false := by
    have := hstart.1
    simp only [startsToken, Bool.and_eq_true, Bool.not_eq_true'] at this
    exact this.1
  have hwide : isWideSpace d = false := (Bool.or_eq_false_iff.mp hspace).2
  rcases hname' : names u with _ | name'
  · obtain ⟨name, hname⟩ := Option.isSome_iff_exists.mp (by simpa [hname'] using hnamed)
    rw [renamed_of_some hname, renamed_of_none hname', htext]
    rw [(ht name hname).1] at hends
    exact hends
  · obtain ⟨hkind', -, position, rfl⟩ := hu name' hname'
    rw [hkind'] at hreads'
    obtain ⟨c, body', htext', hbegins, -⟩ := exists_head_of_ident hreads'
    obtain ⟨rfl, rfl⟩ := List.cons.inj (htext.symm.trans htext')
    rw [renamed_of_some hname']
    rcases hname : names t with _ | name
    · rw [renamed_of_none hname]
      exact endsBefore_dollar hends hbegins hwide
    · rw [(ht name hname).1] at hends
      have hcontinues : continuesIdent d = true := by rw [continuesIdent, hbegins, Bool.true_or]
      simp [endsBefore, hcontinues, hwide] at hends

/-- No mark runs together with a neighbour.  A mark begins with a dollar sign, which ends every
token that the name in its place ended. -/
theorem apart_of_marks (h : Spells previous ts tail) (hmarks : ∀ t ∈ ts, Marks names t) :
    Token.Apart names ts := by
  induction ts generalizing previous with
  | nil => trivial
  | cons t ts ih =>
    obtain ⟨_, hreads, hspells⟩ := h
    have hrest := ih hspells fun u hu => hmarks u (List.mem_cons_of_mem _ hu)
    cases ts with
    | nil => trivial
    | cons u us =>
      have ht := hmarks t List.mem_cons_self
      rw [sourceOf_cons, List.append_assoc, List.append_assoc] at hreads
      refine ⟨⟨ht.apartFrom (hmarks u (by simp)) hreads hspells.2.1, fun hsome _ => ?_⟩, hrest⟩
      obtain ⟨name, hname⟩ := Option.isSome_iff_exists.mp hsome
      obtain ⟨_, _, position, rfl⟩ := ht name hname
      rw [renamed_of_some hname]
      exact slashBeginsRegex_mark t position

end

/-! ### Keys -/

section

variable {names : List Text} {forms : List FormToken} {line : Text} {ts : List Token}

/-- The marks of the tokens that name parameters. -/
def marksOf (forms : List FormToken) (t : Token) : Option Text :=
  (forms.find? fun form => form.token = t).bind fun form => form.param.map markAt

/-- Where the tokens differ from one another, each of them gets the mark of its own position. -/
theorem marksOf_token (hnodup : (forms.map FormToken.token).Nodup) {form : FormToken}
    (h : form ∈ forms) : marksOf forms form.token = form.param.map markAt := by
  rcases hfind : forms.find? fun other => other.token = form.token with _ | other
  · have hnone := List.find?_eq_none.mp hfind form h
    exact absurd (decide_eq_true rfl) hnone
  · have hother := List.find?_some hfind
    have hmem := List.mem_of_find?_eq_some hfind
    obtain rfl := List.inj_on_of_nodup_map hnodup hmem h (of_decide_eq_true hother)
    rw [marksOf, hfind, Option.bind_some]

/-- The tokens with their marks. -/
theorem renamed_marksOf (hnodup : (forms.map FormToken.token).Nodup) {form : FormToken}
    (h : form ∈ forms) : form.token.renamed (marksOf forms) = form.marked := by
  unfold FormToken.marked
  have hname := marksOf_token hnodup h
  rcases hparam : form.param with _ | position <;> rw [hparam] at hname
  · exact renamed_of_none hname
  · exact renamed_of_some hname

/-- Only words name parameters. -/
theorem kind_of_mem_formTokens {before : Option Token} {form : FormToken}
    (h : form ∈ formTokens names before ts) {position : Nat} (hparam : form.param = some position) :
    form.token.kind = .ident := by
  induction ts generalizing before with
  | nil => cases h
  | cons t ts ih =>
    rcases List.mem_cons.mp h with rfl | h
    · have hposition : paramPosition? names before t ts.head? = some position := hparam
      unfold paramPosition? at hposition
      split at hposition
      · rename_i hcond
        simp only [Bool.and_eq_true, decide_eq_true_eq] at hcond
        exact hcond.1.1
      · cases hposition
    · exact ih h

/-- No two tokens of a line are the same, since they stand in different places. -/
theorem nodup_of_tokenize (h : tokenize line = .ok ts) : ts.Nodup := by
  obtain ⟨hpairwise, hpos⟩ := pairwise_of_tokenize h
  refine hpairwise.imp_of_mem fun {t u} ht _ hle heq => ?_
  have := hpos t ht
  rw [← heq] at hle
  omega

/-- The names of parameters tell divisions from regular expressions. -/
def LeaveSlashes (names : List Text) : Prop := ∀ name ∈ names, ∀ s ∈ wordsBeforeRegex, name ≠ s.toList

/-- The tokens that name parameters can get marks: they are words, and since no parameter is called
like a word before regular expressions, a slash behind them divides. -/
theorem marks_formTokens (hnames : LeaveSlashes names) (hts : ts.Nodup) {before : Option Token} :
    ∀ t ∈ ts, Marks (marksOf (formTokens names before ts)) t := by
  intro t ht name hname
  have htokens := map_token_formTokens names before ts
  rw [← htokens] at ht hts
  obtain ⟨form, hform, rfl⟩ := List.mem_map.mp ht
  rw [marksOf_token hts hform, Option.map_eq_some_iff] at hname
  obtain ⟨position, hparam, rfl⟩ := hname
  have hkind := kind_of_mem_formTokens hform hparam
  have hmem := List.mem_of_getElem? (name_of_mem_formTokens hform hparam)
  refine ⟨hkind, ?_, position, rfl⟩
  simp only [slashBeginsRegex, hkind, Token.isAnyOf, List.any_eq_false]
  intro s hs htext
  exact hnames _ hmem s hs (of_decide_eq_true htext)

/-- The tokens with their marks spell a text of their own.  It can therefore be lexed, and gives
back these tokens. -/
theorem spells_marked (hnames : LeaveSlashes names) (hts : ts.Nodup) {closing : Text}
    (hspells : Spells none ts closing) (hclosing : IsClosing closing) :
    Spells none ((formTokens names none ts).map FormToken.marked) closing := by
  have htokens := map_token_formTokens names none ts
  have hnodup : ((formTokens names none ts).map FormToken.token).Nodup := by rwa [htokens]
  have hmarks : ∀ t ∈ ts, Marks (marksOf (formTokens names none ts)) t :=
    marks_formTokens hnames hts
  have hrenamed : ts.map (Token.renamed (marksOf (formTokens names none ts))) =
      (formTokens names none ts).map FormToken.marked := by
    conv_lhs => rw [← htokens, List.map_map]
    rw [htokens]
    exact List.map_congr_left fun form hform => renamed_marksOf hnodup hform
  rw [← hrenamed]
  refine spells_renamed hspells (fun name => endsBefore_closing hclosing) ?_ (fun _ _ _ => rfl)
    (apart_of_marks hspells hmarks)
  intro t ht
  obtain ⟨_, _, hreads⟩ := hspells.exists_reads t ht
  exact (hmarks t ht).nameable hreads

/-- A line that can be told from a key: it has no null character and does not begin with `#!`. -/
def IsPlainLine (line : Text) : Prop := '\x00' ∉ line ∧ hashBang line = []

/-- What stands in a key for tokens and their gaps, with dollar signs for null characters. -/
theorem unmarked_flatMap (hplain : ∀ form ∈ forms, '\x00' ∉ form.token.gap ++ form.token.text) :
    unmarked (forms.flatMap fun form => form.token.gap ++ form.word) =
      Token.sourceOf (forms.map FormToken.marked) := by
  induction forms with
  | nil => rfl
  | cons form forms ih =>
    obtain ⟨hform, hrest⟩ := List.forall_mem_cons.mp hplain
    rw [List.mem_append, not_or] at hform
    rw [List.flatMap_cons, unmarked_append, unmarked_append, ih hrest, unmarked_of_not_mem hform.1,
      FormToken.unmarked_word hform.2, List.map_cons, sourceOf_cons, FormToken.gap_marked,
      List.append_assoc]

/-- **Keys are spelled by marked tokens.**  With dollar signs for null characters a key is the text
of the marked tokens, with their gaps or with single spaces in between. -/
theorem exists_spells_key {rules : LineRules} (hpositions : rules.ignoreParamNames = true)
    (hnames : LeaveSlashes names) (hplain : IsPlainLine line) (hts : tokenize line = .ok ts) :
    ∃ us closing, unmarked (LineForm.of rules names line).key = Token.sourceOf us ++ closing ∧
      Spells none us closing ∧ IsClosing closing ∧
      us.map Token.word = (formTokens names none ts).map fun form => form.marked.word := by
  obtain ⟨us, closing, hprepend, hline, hspells, hclosing, -⟩ := spells_of_tokenize hts
  rw [hplain.2, prependGap_nil] at hprepend
  rw [hplain.2, List.nil_append] at hline
  subst hprepend
  have hmarked := spells_marked hnames (nodup_of_tokenize hts) hspells hclosing
  have hnull := hplain.1
  rw [hline, List.mem_append, not_or] at hnull
  have hforms : ∀ form ∈ formTokens names none ts, '\x00' ∉ form.token.gap ++ form.token.text := by
    intro form hform hmem
    have htoken : form.token ∈ ts := by
      rw [← map_token_formTokens names none ts]
      exact List.mem_map_of_mem hform
    exact hnull.1 (List.mem_flatMap.mpr ⟨form.token, htoken, hmem⟩)
  unfold LineForm.of
  rw [hts]
  dsimp only
  rw [if_pos hpositions]
  by_cases hnormal : rules.normalizeWhitespace = true
  · refine ⟨spaced [] ((formTokens names none ts).map FormToken.marked), [], ?_,
      spells_spaced hmarked isGap_nil, isClosing_nil, ?_⟩
    · rw [if_pos hnormal, unmarked_join, sourceOf_spaced_nil, List.append_nil, List.map_map,
        List.map_map]
      refine congrArg (Text.join [' ']) (List.map_congr_left fun form hform => ?_)
      exact FormToken.unmarked_word fun h => hforms form hform (List.mem_append_right _ h)
    · rw [map_word_spaced, List.map_map]
      rfl
  · refine ⟨(formTokens names none ts).map FormToken.marked, closing, ?_, hmarked, hclosing, ?_⟩
    · rw [if_neg hnormal, unmarked_append, unmarked_flatMap hforms]
      conv_lhs => rw [hline]
      rw [List.drop_left, unmarked_of_not_mem hnull.2]
    · rw [List.map_map]
      rfl

/-- A line that cannot be lexed is its key, and no tokens spell it. -/
theorem not_spells_of_error {rules : LineRules} (hplain : IsPlainLine line) {e : ParseError}
    (herror : tokenize line = .error e) {us : List Token} {closing : Text}
    (hkey : unmarked (LineForm.of rules names line).key = Token.sourceOf us ++ closing)
    (hspells : Spells none us closing) (hclosing : IsClosing closing) : False := by
  rw [(LineForm.of_error herror).2, unmarked_of_not_mem hplain.1] at hkey
  have hsource : line = hashBang line ++ (Token.sourceOf us ++ closing) := by
    rw [hplain.2, List.nil_append]
    exact hkey
  obtain ⟨vs, hvs, -⟩ := tokenize_of_spells hsource hspells hclosing
  rw [herror] at hvs
  cases hvs

/-- **Keys tell tokens where parameters go by position**, but for the names of the parameters.
Both lists of marked tokens spell the one key, and lexing it finds one list only; a line that
cannot be lexed would be spelled by tokens. -/
theorem words_eq_of_key_eq {rules : LineRules} (hpositions : rules.ignoreParamNames = true)
    {names' : List Text} {line' : Text} (hnames : LeaveSlashes names)
    (hnames' : LeaveSlashes names') (hplain : IsPlainLine line) (hplain' : IsPlainLine line')
    (hkey : (LineForm.of rules names line).key = (LineForm.of rules names' line').key)
    (hts : tokenize line = .ok ts) :
    ∃ ts', tokenize line' = .ok ts' ∧
      (formTokens names none ts).map (fun form => form.marked.word) =
        (formTokens names' none ts').map fun form => form.marked.word := by
  obtain ⟨us, closing, hus, hspells, hclosing, hwords⟩ :=
    exists_spells_key hpositions hnames hplain hts
  rcases hts' : tokenize line' with e | ts'
  · rw [hkey] at hus
    exact (not_spells_of_error hplain' hts' hus hspells hclosing).elim
  · obtain ⟨us', closing', hus', hspells', hclosing', hwords'⟩ :=
      exists_spells_key hpositions hnames' hplain' hts'
    -- Both lists are what lexing finds in the one text.
    let l : Lexer := ⟨[], unmarked (LineForm.of rules names line).key, .start, none⟩
    obtain ⟨vs, hrun, hsame⟩ := run_of_spells (l := l) hus hspells hclosing
    rw [← hkey] at hus'
    obtain ⟨vs', hrun', hsame'⟩ := run_of_spells (l := l) hus' hspells' hclosing'
    have htokens : vs = vs' := by
      rw [hrun, prependGap_nil, prependGap_nil] at hrun'
      exact congrArg Lexed.tokens hrun'
    refine ⟨ts', rfl, ?_⟩
    rw [← hwords, ← hwords', ← map_word_of_sameTokens hsame, ← map_word_of_sameTokens hsame',
      htokens]

end

end Twinfold
