import Twinfold.Proofs.Coalesce.Calls
import Twinfold.Proofs.Coalesce.Receivers
import Twinfold.Proofs.Text.Words
import Twinfold.Proofs.Token.Endings
import Twinfold.Proofs.Token.Tiling

/-!
# Names in the code of templates

A template is one token, so the identifiers in the code of its substitutions are no tokens of the
text.  In their place the words of the template are avoided: the runs of letters, where a letter is
something else than for the lexer.

An identifier made of letters is such a word if no letter stands next to it (`StandsIn`).  Behind it
none does, since the identifier would go on.  In front of it there is a gap or a token, and these
end without a letter (`EndsPlain`): gaps with a space or a slash, literals with the mark that closes
them (`getLast?_of_scanFrames`), and behind an identifier or a regular expression another identifier
needs a gap.  Only a number may end with a letter and have an identifier directly behind it.

* `endsPlain_of_reads` — a token directly in front of a letter ends without one, unless it is a
  number;
* `mem_words_of_codeNames` — an identifier made of letters, in the code of a substitution however
  deep, is a word of the template, unless it stands directly behind such a number.
-/

namespace Twinfold

/-! ### Names between characters that are no letters -/

/-- The text does not end with a letter. -/
def EndsPlain (text : Text) : Prop := ∀ c ∈ text.getLast?, Text.isWordChar c = false

theorem endsPlain_nil : EndsPlain [] := nofun

/-- A text that ends with a character that is in no word ends plainly. -/
theorem EndsPlain.of_getLast? {text : Text} {c : Char} (h : text.getLast? = some c)
    (hc : Text.isWordChar c = false) : EndsPlain text := by
  intro d hd
  rw [h, Option.mem_some_iff] at hd
  exact hd ▸ hc

/-- Behind a character that is in no word a text ends as plainly as it does alone, also if nothing
is left of it. -/
theorem EndsPlain.append_cons {text : Text} {c : Char} (h : EndsPlain text)
    (hc : Text.isWordChar c = false) (front : Text) : EndsPlain (front ++ c :: text) := by
  intro d hd
  rw [List.getLast?_append, List.getLast?_cons, Option.some_or, Option.mem_some_iff] at hd
  rcases hlast : text.getLast? with _ | e
  · rw [hlast] at hd
    exact hd ▸ hc
  · rw [hlast] at hd
    exact h d (hd ▸ hlast)

/-- How a text ends does not depend on what stands in front of it. -/
theorem EndsPlain.append {text : Text} (h : EndsPlain text) (hne : text ≠ []) (front : Text) :
    EndsPlain (front ++ text) := by
  intro c hc
  rw [List.getLast?_append_of_ne_nil _ hne] at hc
  exact h c hc

/-- The name stands in the text with no letter next to it. -/
def StandsIn (name text : Text) : Prop :=
  ∃ front behind, text = front ++ (name ++ behind) ∧ EndsPlain front ∧
    ∀ c ∈ behind.head?, Text.isWordChar c = false

/-- Between characters that are no letters, a text can stand in another one. -/
theorem StandsIn.within {name text : Text} (h : StandsIn name text) {c d : Char}
    (hc : Text.isWordChar c = false) (hd : Text.isWordChar d = false) (front behind : Text) :
    StandsIn name (front ++ c :: (text ++ d :: behind)) := by
  obtain ⟨before, after, rfl, hbefore, hafter⟩ := h
  refine ⟨front ++ c :: before, after ++ d :: behind, by simp, hbefore.append_cons hc front, ?_⟩
  intro e he
  cases after with
  | nil => exact Option.some_inj.mp he ▸ hd
  | cons f after => exact hafter e he

/-- **What stands alone is a word.**  A word of a text is a longest run of letters, and here it
cannot be longer. -/
theorem StandsIn.mem_words {name text : Text} (h : StandsIn name text) (hne : name ≠ [])
    (hname : ∀ c ∈ name, Text.isWordChar c = true) : name ∈ text.words Text.isWordChar := by
  obtain ⟨before, after, rfl, hbefore, hafter⟩ := h
  have hend : name ∈ Text.words Text.isWordChar (name ++ after) := by
    cases after with
    | nil => simp [words_eq_singleton hne hname]
    | cons c after =>
      rw [words_append_cons (hafter c rfl), words_eq_singleton hne hname]
      exact List.mem_append_left _ List.mem_cons_self
  rcases List.eq_nil_or_concat before with rfl | ⟨before, c, rfl⟩
  · exact hend
  · rw [List.concat_eq_append] at hbefore ⊢
    rw [List.append_assoc, List.singleton_append, words_append_cons (hbefore c (by simp))]
    exact List.mem_append_right _ hend

/-! ### How gaps end -/

/-- What separates tokens is in no word. -/
theorem not_isWordChar_of_isGapSpace {c : Char} (h : isGapSpace c = true) :
    Text.isWordChar c = false := by
  by_contra hword
  rw [Bool.not_eq_false] at hword
  rw [(continuesIdent_of_isWordChar hword).2.1] at h
  cases h

/-- A gap ends with a space or with the end of a comment. -/
theorem endsPlain_of_trivia {gap : Text} (h : Trivia False gap) : EndsPlain gap := by
  induction h with
  | nil => exact endsPlain_nil
  | @space c t hspace ht ih => exact ih.append_cons (not_isWordChar_of_isGapSpace hspace) []
  | @line comment t hline ht ih => exact ih.append_cons rfl ('/' :: '/' :: comment)
  | @block comment t hblock ht ih =>
    simpa using ih.append_cons (c := '/') rfl ('/' :: '*' :: (comment ++ ['*']))
  | last hfinal => exact hfinal.elim

/-! ### How tokens end -/

/-- Behind an identifier stands no letter. -/
theorem not_isWordChar_behind_ident {previous : Option Token} {text tail : Text}
    (h : Reads previous .ident text tail) : ∀ c ∈ tail.head?, Text.isWordChar c = false := by
  intro c hc
  by_contra hword
  rw [Bool.not_eq_false] at hword
  obtain ⟨hcontinues, _, hwide⟩ := continuesIdent_of_isWordChar hword
  have hends := h.endsBefore
  simp [endsBefore, Option.mem_def.mp hc, hcontinues, hwide] at hends

/-- A punctuator holds no letters.  It is one of the long ones, or a single character that begins
nothing else. -/
theorem not_isWordChar_of_punct {previous : Option Token} {text tail : Text}
    (h : Reads previous .punct text tail) : ∀ c ∈ text, Text.isWordChar c = false := by
  have hlong : ∀ s ∈ longPuncts, ∀ c ∈ s.toList, continuesIdent c = false := by decide
  intro c hc
  by_contra hword
  rw [Bool.not_eq_false] at hword
  have hcontinues := (continuesIdent_of_isWordChar hword).1
  cases text with
  | nil => cases hc
  | cons d body =>
    obtain ⟨s, hs, htext⟩ | rfl := punct_cases h
    · rw [hlong s hs c (htext ▸ hc)] at hcontinues
      cases hcontinues
    · obtain rfl : c = d := List.mem_singleton.mp hc
      obtain ⟨_, hkind, -⟩ := reads_cons_iff.mp h
      unfold kindAt at hkind
      split_ifs at hkind with _ _ hdigit hbegins
      simp_all [continuesIdent]

/-- **A token directly in front of a letter ends without one**, unless it is a number.  An
identifier or the flags of a regular expression would go on with the letter; strings, templates and
punctuators end with a mark. -/
theorem endsPlain_of_reads {previous : Option Token} {kind : TokenKind} {text tail : Text}
    (h : Reads previous kind text tail) (hnumber : kind ≠ .number) {c : Char}
    (hc : tail.head? = some c) (hword : Text.isWordChar c = true) : EndsPlain text := by
  have hliteral : ∀ {d : Char} {body : Text} {f : Frame} {p : Place},
      (∃ q, (scanFrames [f] (p.past d) (body ++ tail)).cons d = .found (d :: body) tail q) →
      Text.isWordChar f.mark = false → EndsPlain (d :: body) := by
    intro d body f p hscan hmark
    obtain ⟨q, hfound⟩ := scanLiteral_eq_found_iff.mp hscan
    refine .of_getLast? ?_ hmark
    rw [List.getLast?_cons, getLast?_of_scanFrames hfound rfl]
    rfl
  cases text with
  | nil => exact endsPlain_nil
  | cons d body =>
    obtain ⟨_, hkind, p, hscan⟩ := reads_cons_iff.mp h
    cases kind with
    | number => exact absurd rfl hnumber
    | ident =>
      rw [not_isWordChar_behind_ident h c hc] at hword
      cases hword
    | regex =>
      have hends := h.endsBefore
      simp [endsBefore, hc, (continuesIdent_of_isWordChar hword).1] at hends
    | punct => exact fun e he => not_isWordChar_of_punct h e (List.mem_of_getLast? he)
    | template => exact hliteral hscan rfl
    | string =>
      have hquote : d = '"' ∨ d = '\'' := by
        unfold kindAt at hkind
        split_ifs at hkind with hquote
        simpa using hquote
      refine hliteral hscan ?_
      rcases hquote with rfl | rfl <;> rfl

/-! ### Names in code -/

/-- The tokens in the code of a substitution. -/
def codeTokens (code : Text) : List Token := (Lexer.run ⟨[], code, .start, none⟩).tokens

/-- The name is an identifier of the code, in a template of its own perhaps, that does not stand
directly behind a number with a letter or digit at its end. -/
inductive CodeNames (name : Text) : (code : Text) → Prop
  | ident {code : Text} {before after : List Token} {t : Token}
      (htokens : codeTokens code = before ++ t :: after) (hkind : t.kind = .ident)
      (hname : t.text = name)
      (hapart : t.gap = [] → ∀ u ∈ before.getLast?, u.kind = .number → EndsPlain u.text) :
      CodeNames name code
  | template {code inner : Text} {t : Token} (ht : t ∈ codeTokens code) (hkind : t.kind = .template)
      (hinner : Substitutes t.text.tail inner) (hnames : CodeNames name inner) :
      CodeNames name code

/-- The tokens of code spell it up to where it cannot be read further. -/
theorem spells_codeTokens (code : Text) :
    ∃ left, code = Token.sourceOf (codeTokens code) ++ left ∧
      Spells none (codeTokens code) left := by
  obtain ⟨ts, left, htokens, hrest, hspells, _⟩ := spells_of_run ⟨[], code, .start, none⟩
  rw [prependGap_nil] at htokens
  exact ⟨left, by rw [codeTokens, htokens]; exact hrest, by rw [codeTokens, htokens]; exact hspells⟩

/-- The code of a substitution stands between braces.  Whatever is in front of it in the template
has been passed over by then. -/
theorem Substitutes.exists_between {text code : Text} (h : Substitutes text code) :
    ∃ front behind, text = front ++ '\x7b' :: (code ++ '\x7d' :: behind) := by
  induction h with
  | @here code rest behind q hscan =>
    refine ⟨['$'], behind, ?_⟩
    rw [(eq_append_of_scanFrames hscan).1]
    simp
  | @further code rest taken behind q hscan hmore ih =>
    obtain ⟨front, behind', hbehind⟩ := ih
    refine ⟨'$' :: '\x7b' :: (taken ++ front), behind', ?_⟩
    rw [(eq_append_of_scanFrames hscan).1, hbehind]
    simp
  | @escaped c rest code hmore ih =>
    obtain ⟨front, behind, rfl⟩ := ih
    exact ⟨'\\' :: c :: front, behind, rfl⟩
  | @plain c rest code hc hopens hmore ih =>
    obtain ⟨front, behind, rfl⟩ := ih
    exact ⟨c :: front, behind, rfl⟩

/-- An identifier made of letters stands alone in a text whose tokens it is among, unless it stands
directly behind a number with a letter or digit at its end. -/
theorem standsIn_of_spells {before after : List Token} {t : Token} {left : Text}
    (h : Spells none (before ++ t :: after) left) (hkind : t.kind = .ident)
    (hname : ∀ c ∈ t.text, Text.isWordChar c = true)
    (hapart : t.gap = [] → ∀ u ∈ before.getLast?, u.kind = .number → EndsPlain u.text) :
    StandsIn t.text (Token.sourceOf (before ++ t :: after) ++ left) := by
  obtain ⟨hbefore, hgap, hreads, _⟩ := spells_append_iff.mp h
  refine ⟨Token.sourceOf before ++ t.gap, Token.sourceOf after ++ left,
    by simp [sourceOf_append, sourceOf_cons], ?_, ?_⟩
  · by_cases hempty : t.gap = []
    · rw [hempty, List.append_nil]
      rcases List.eq_nil_or_concat before with rfl | ⟨front, u, rfl⟩
      · exact endsPlain_nil
      · -- The token in front ends where the name begins.
        rw [List.concat_eq_append] at hbefore hapart ⊢
        obtain ⟨_, _, hu, _⟩ := spells_append_iff.mp hbefore
        obtain ⟨c, body, htext, _⟩ := exists_head_of_ident (hkind ▸ hreads)
        have hplain : EndsPlain u.text := by
          by_cases hnumber : u.kind = .number
          · exact hapart hempty u (by simp) hnumber
          · refine endsPlain_of_reads hu hnumber (c := c) ?_ (hname c (htext ▸ List.mem_cons_self))
            simp [sourceOf_cons, hempty, htext]
        rw [sourceOf_append, sourceOf_cons, sourceOf_nil, List.append_nil, ← List.append_assoc]
        exact hplain.append hu.ne_nil _
    · exact (endsPlain_of_trivia (isGap_iff_trivia.mp hgap)).append hempty _
  · exact not_isWordChar_behind_ident (hkind ▸ hreads)

/-- An identifier of the code, in a template of its own perhaps, stands alone there.  The letters
next to it in the text would otherwise have been read as a part of it. -/
theorem CodeNames.standsIn {name code : Text} (h : CodeNames name code)
    (hname : ∀ c ∈ name, Text.isWordChar c = true) : StandsIn name code := by
  induction h with
  | @ident code before after t htokens hkind htext hapart =>
    obtain ⟨left, hcode, hspells⟩ := spells_codeTokens code
    rw [htokens] at hcode hspells
    rw [hcode, ← htext]
    exact standsIn_of_spells hspells hkind (htext ▸ hname) hapart
  | @template code inner t ht hkind hinner _ ih =>
    obtain ⟨left, hcode, hspells⟩ := spells_codeTokens code
    obtain ⟨before, after, htokens⟩ := List.append_of_mem ht
    obtain ⟨_, _, hreads⟩ := hspells.exists_reads t ht
    obtain ⟨c, body, htext, _⟩ := hreads.2
    obtain ⟨front, behind, hbody⟩ := hinner.exists_between
    have htext : t.text = c :: (front ++ '\x7b' :: (inner ++ '\x7d' :: behind)) := by
      rw [← hbody, htext]
      rfl
    have hwithin := ih.within (c := '\x7b') (d := '\x7d') rfl rfl
      (Token.sourceOf before ++ t.gap ++ c :: front) (behind ++ Token.sourceOf after ++ left)
    rw [hcode, htokens, sourceOf_append, sourceOf_cons, htext]
    simpa using hwithin

/-- **Names in templates are avoided.**  An identifier made of letters, in the code of a
substitution however deep, is a word of the template, unless it stands directly behind a number with
a letter or digit at its end. -/
theorem mem_words_of_codeNames {text name code : Text} (h : Substitutes text.tail code)
    (hcode : CodeNames name code) (hne : name ≠ [])
    (hname : ∀ c ∈ name, Text.isWordChar c = true) : name ∈ text.words Text.isWordChar := by
  obtain ⟨front, behind, hbetween⟩ := h.exists_between
  cases text with
  | nil => simp at hbetween
  | cons c text =>
    have hwithin := (hcode.standsIn hname).within (c := '\x7b') (d := '\x7d') rfl rfl
      (c :: front) behind
    rw [List.cons_append, ← hbetween] at hwithin
    exact hwithin.mem_words hne hname

end Twinfold
