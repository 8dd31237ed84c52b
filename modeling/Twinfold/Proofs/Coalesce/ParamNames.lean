import Twinfold.Proofs.Coalesce.ParamRuns
import Twinfold.Proofs.Coalesce.TemplateCode

/-!
# The names of parameters

The name of a parameter is the word that it begins with, behind the dots of a rest parameter.  It is
not taken from a token.  Still it is at the beginning of one: a parameter is a row of tokens and
gaps (`exists_run_of_params`), and what its white space hides is a gap, a vertical tab or the
beginning of an identifier, since for the lexer most white space beyond ASCII is letters
(`trimStart_of_reads`).

* `exists_token_of_trimStart` — behind white space the text of tokens begins within one of them;
* `exists_token_of_name?` — the name is the leading word of the first identifier, or a number
  begins with it;
* `exists_ident_of_mem_params` — a name that begins with a letter is the leading word of an
  identifier (`leadingWord`).
-/

namespace Twinfold

/-! ### White space -/

/-- Two toggles are an interval. -/
theorem member_cons_cons {a b n : Nat} {bs : Text.Toggles} :
    Text.Toggles.member (a :: b :: bs) n = true ↔ a ≤ n ∧ (n < b ∨ bs.member n = true) := by
  rw [Text.Toggles.member, Text.Toggles.member]
  by_cases ha : n < a <;> by_cases hb : n < b <;> simp [ha, hb] <;> omega

/-- The code points of white space. -/
def blankCodes : List Nat :=
  [0x9, 0xa, 0xb, 0xc, 0xd, 0x20, 0x85, 0xa0, 0x1680, 0x2000, 0x2001, 0x2002, 0x2003, 0x2004,
   0x2005, 0x2006, 0x2007, 0x2008, 0x2009, 0x200a, 0x2028, 0x2029, 0x202f, 0x205f, 0x3000]

/-- There are few blank characters, and their codes can be listed. -/
theorem mem_blankCodes {c : Char} (h : Text.isBlank c = true) : c.toNat ∈ blankCodes := by
  simp only [Text.isBlank, Text.blankToggles, member_cons_cons] at h
  simp only [Text.Toggles.member, Bool.false_eq_true, or_false] at h
  simp only [blankCodes, List.mem_cons, List.not_mem_nil, or_false]
  omega

/-- What holds of the code points holds of white space. -/
theorem forall_of_blankCodes {p : Char → Prop} (h : ∀ n ∈ blankCodes, p (Char.ofNat n)) {c : Char}
    (hc : Text.isBlank c = true) : p c := by
  have hchar := h c.toNat (mem_blankCodes hc)
  rwa [Char.ofNat_toNat] at hchar

theorem not_isWordChar_of_isBlank {c : Char} (h : Text.isBlank c = true) :
    Text.isWordChar c = false :=
  forall_of_blankCodes (p := fun c => Text.isWordChar c = false) (by decide +kernel) h

/-- White space is a gap, a vertical tab, or a letter for the lexer. -/
theorem blank_cases {c : Char} (h : Text.isBlank c = true) :
    isGapSpace c = true ∨ c = '\x0b' ∨ beginsIdent c = true :=
  forall_of_blankCodes (p := fun c => isGapSpace c = true ∨ c = '\x0b' ∨ beginsIdent c = true)
    (by decide) h

/-! ### Leading words -/

/-- The word that a text begins with, behind white space. -/
def leadingWord (t : Text) : Text := t.trimStart.takeWhile Text.isWordChar

/-- What is taken of two texts ends in the first of them if the second does not begin with a
character that would be taken. -/
theorem takeWhile_append_of_head {p : Char → Bool} {t : Text} (ht : ∀ c ∈ t.head?, p c = false)
    (front : Text) : (front ++ t).takeWhile p = front.takeWhile p := by
  have hnone : t.takeWhile p = [] := by
    cases t with
    | nil => rfl
    | cons c t => exact List.takeWhile_cons_of_neg (by simp [ht c rfl])
  rw [List.takeWhile_append, hnone, List.append_nil]
  split
  · rename_i hlength
    exact ((List.takeWhile_prefix p).eq_of_length hlength).symm
  · rfl

/-- Blanks at the end of a text do not change the word that it begins with. -/
theorem leadingWord_append_blanks {blanks : Text} (h : ∀ c ∈ blanks, Text.isBlank c = true)
    (t : Text) : leadingWord (t ++ blanks) = leadingWord t := by
  unfold leadingWord Text.trimStart
  rw [List.dropWhile_append]
  split
  · rename_i hempty
    rw [List.isEmpty_iff.mp hempty, List.dropWhile_eq_nil_iff.mpr h]
  · refine takeWhile_append_of_head (fun c hc => ?_) _
    exact not_isWordChar_of_isBlank (h c (List.mem_of_head? hc))

/-- Neither do blanks around it. -/
theorem leadingWord_trim (t : Text) : leadingWord t.trim = leadingWord t := by
  obtain ⟨blanks, hsplit, hblanks⟩ := exists_blanks_of_trimEnd t.trimStart
  have hidem : leadingWord t.trimStart = leadingWord t := by
    unfold leadingWord Text.trimStart
    rw [List.dropWhile_idempotent]
  rw [Text.trim, ← hidem]
  conv_rhs => rw [hsplit]
  rw [leadingWord_append_blanks hblanks]

/-- **The name of a parameter** is the word that it begins with, behind the rest mark if there is
one, unless that is empty. -/
theorem name?_eq_some_iff {param name : Text} :
    Param.name? param = some name ↔
      leadingWord (if Param.isRest param then param.drop 3 else param) = name ∧ name ≠ [] := by
  unfold Param.name? leadingWord
  dsimp only
  generalize (if Param.isRest param then param.drop 3 else param) = bare
  split
  · rename_i hempty
    rw [List.isEmpty_iff.mp hempty]
    simp only [reduceCtorEq, false_iff]
    rintro ⟨rfl, hne⟩
    exact hne rfl
  · rename_i hne
    rw [List.isEmpty_iff] at hne
    rw [Option.some_inj]
    constructor
    · rintro rfl
      exact ⟨rfl, hne⟩
    · exact And.left

/-! ### Behind white space -/

/-- Behind a gap the text goes on, or in the gap there is something else than white space. Comments
are not trimmed away, and neither is the byte order mark, which is a space in gaps only. -/
theorem trimStart_trivia {gap : Text} (h : Trivia False gap) (rest : Text) :
    Text.trimStart (gap ++ rest) = rest.trimStart ∨
      ∃ c t, Text.trimStart (gap ++ rest) = c :: t ∧ Text.isWordChar c = false ∧ c ≠ '.' := by
  induction h with
  | nil => exact .inl rfl
  | @space c t hspace ht ih =>
    by_cases hblank : Text.isBlank c = true
    · have hdrop : Text.trimStart (c :: t ++ rest) = Text.trimStart (t ++ rest) :=
        List.dropWhile_cons_of_pos hblank
      rwa [hdrop]
    · rw [Bool.not_eq_true] at hblank
      refine .inr ⟨c, t ++ rest, trimStart_cons hblank _, not_isWordChar_of_isGapSpace hspace, ?_⟩
      rintro rfl
      revert hspace
      decide
  | line | block => exact .inr ⟨'/', _, trimStart_cons (by decide) _, rfl, by decide⟩
  | last hfinal => exact hfinal.elim

/-- All characters of a word are such that a word goes on with them, the first one too. -/
theorem continuesIdent_of_ident {previous : Option Token} {text tail : Text}
    (h : Reads previous .ident text tail) : ∀ c ∈ text, continuesIdent c = true := by
  obtain ⟨d, body, rfl, hbegins, _⟩ := exists_head_of_ident h
  obtain ⟨_, _, p, hscan⟩ := reads_cons_iff.mp h
  have hlength := (scanIdent_eq_found_iff.mp hscan).1
  have hall := List.takeWhile_eq_self_iff.mp ((List.takeWhile_prefix _).eq_of_length hlength)
  intro c hc
  rcases List.mem_cons.mp hc with rfl | hc
  · simp [continuesIdent, hbegins]
  · have hboth := hall c hc
    simp only [Bool.and_eq_true] at hboth
    exact hboth.1

/-- Within a token that is no identifier there is white space only behind something else.  Strings
and the like begin with their marks, so the first character decides; a space that is a token by
itself is a punctuator. -/
theorem trimStart_of_reads {previous : Option Token} {kind : TokenKind} {text tail : Text}
    (h : Reads previous kind text tail) (hkind : kind ≠ .ident) :
    text.trimStart = text ∨ kind = .punct ∧ text.trimStart = [] := by
  cases text with
  | nil => exact .inl rfl
  | cons c body =>
    by_cases hblank : Text.isBlank c = true
    · obtain ⟨hstart, hread, p, hscan⟩ := reads_cons_iff.mp h
      right
      rcases blank_cases hblank with hspace | rfl | hbegins
      · simp [startsToken, hspace] at hstart
      · -- A vertical tab is a punctuator of one character.
        have hpunct : kindAt previous '\x0b' (body ++ tail).head? = .punct := by
          simp [kindAt, beginsIdent]
        obtain rfl : .punct = kind := hpunct.symm.trans hread
        have hlong : InNoPunct '\x0b' := by
          unfold InNoPunct
          decide
        have hlength := scanPunct_eq_found_iff.mp hscan
        have hone : punctLength ('\x0b' :: body ++ tail) = 1 :=
          punctLength_append_cons hlong [] (body ++ tail)
        rw [hone, List.length_cons] at hlength
        obtain rfl : body = [] := List.length_eq_zero_iff.mp (by omega)
        exact ⟨rfl, rfl⟩
      · rw [kindAt_of_beginsIdent hbegins] at hread
        exact absurd hread.symm hkind
    · exact .inl (trimStart_cons (by simpa using hblank) _)

/-- **Behind white space** the text that tokens spell begins within one of them, unless it begins in
a comment. -/
theorem exists_token_of_trimStart {ts : List Token} {gap : Text}
    (hgaps : ∀ t ∈ ts, IsGap t.gap) (hgap : IsGap gap) {c : Char} {rest : Text}
    (hstart : Text.trimStart (Token.sourceOf ts ++ gap) = c :: rest)
    (hc : Text.isWordChar c = true ∨ c = '.') :
    ∃ before t after body, ts = before ++ t :: after ∧ (∀ u ∈ before, u.text.trimStart = []) ∧
      t.text.trimStart = c :: body ∧ rest = body ++ (Token.sourceOf after ++ gap) := by
  have hbehind : ∀ {gap text : Text}, IsGap gap → Text.trimStart (gap ++ text) = c :: rest →
      text.trimStart = c :: rest := by
    intro gap text hgap hstart
    rcases trimStart_trivia (isGap_iff_trivia.mp hgap) text with hskip | ⟨d, t, hcomment, hd, hdot⟩
    · rwa [hskip] at hstart
    · obtain ⟨rfl, -⟩ := List.cons.inj (hcomment.symm.trans hstart)
      rcases hc with hword | rfl
      · rw [hd] at hword
        cases hword
      · exact absurd rfl hdot
  induction ts with
  | nil =>
    rw [sourceOf_nil, List.nil_append, ← List.append_nil gap] at hstart
    cases hbehind hgap hstart
  | cons t ts ih =>
    rw [sourceOf_cons, List.append_assoc, List.append_assoc] at hstart
    have htext := hbehind (hgaps t List.mem_cons_self) hstart
    unfold Text.trimStart at htext
    rw [List.dropWhile_append] at htext
    split at htext
    · -- A token that is nothing but white space is passed over.
      rename_i hempty
      obtain ⟨before, u, after, body, rfl, hbefore, hu⟩ :=
        ih (fun t ht => hgaps t (List.mem_cons_of_mem _ ht)) htext
      exact ⟨t :: before, u, after, body, rfl,
        List.forall_mem_cons.mpr ⟨List.isEmpty_iff.mp hempty, hbefore⟩, hu⟩
    · rename_i hne
      rw [List.isEmpty_iff] at hne
      obtain ⟨d, body, hdrop⟩ := List.exists_cons_of_ne_nil hne
      rw [hdrop, List.cons_append, List.cons.injEq] at htext
      obtain ⟨rfl, rfl⟩ := htext
      exact ⟨[], t, ts, body, rfl, by simp, hdrop, rfl⟩

/-! ### Names are leading words -/

/-- The token has no name: it is a punctuator, or an identifier that is white space. -/
def Token.Nameless (t : Token) : Prop := t.kind = .punct ∨ t.kind = .ident ∧ t.text.trimStart = []

/-- The name is the leading word of an identifier, or the beginning of a number. -/
def Token.GivesName (t : Token) (name : Text) : Prop :=
  t.kind = .ident ∧ leadingWord t.text = name ∨
    t.kind = .number ∧ ∀ c ∈ name.head?, beginsIdent c = false

theorem Token.Nameless.kind_ne_number {t : Token} (h : t.Nameless) : t.kind ≠ .number := by
  rcases h with h | ⟨h, -⟩ <;> simp [h]

/-- With a digit a number begins. -/
theorem kindAt_of_isDigit {c : Char} (h : c.isDigit = true) (previous : Option Token)
    (next : Option Char) : kindAt previous c next = .number := by
  have hother : c ∉ ['"', '\'', '`'] := by
    intro hc
    have hnone : ∀ d ∈ ['"', '\'', '`'], d.isDigit = false := by decide
    rw [hnone c hc] at h
    cases h
  simp only [List.mem_cons, List.not_mem_nil, or_false, not_or] at hother
  obtain ⟨hdouble, hsingle, hback⟩ := hother
  simp [kindAt, hdouble, hsingle, hback, h]

/-- The characters of words are letters for the lexer, or digits. -/
theorem isDigit_of_isWordChar {c : Char} (h : Text.isWordChar c = true)
    (hbegins : beginsIdent c = false) : c.isDigit = true := by
  have hcontinues := (continuesIdent_of_isWordChar h).1
  simpa [continuesIdent, hbegins] using hcontinues

section

variable {previous : Option Token} {us : List Token} {gap behind : Text}

/-- Tokens that are white space have no names. -/
theorem Spells.nameless (h : Spells previous us behind) (hblank : ∀ t ∈ us, t.text.trimStart = []) :
    ∀ t ∈ us, t.Nameless := by
  intro t ht
  obtain ⟨before, after, rfl⟩ := List.append_of_mem ht
  obtain ⟨_, _, hreads, _⟩ := spells_append_iff.mp h
  by_cases hkind : t.kind = .ident
  · exact .inr ⟨hkind, hblank t ht⟩
  · rcases trimStart_of_reads hreads hkind with hsame | ⟨hpunct, -⟩
    · exact absurd (hsame.symm.trans (hblank t ht)) hreads.ne_nil
    · exact .inl hpunct

/-- **A leading word belongs to the first token that has a name.**  The tokens in front of it are
white space to trimming, and the induction passes them one by one. -/
theorem exists_token_of_leadingWord (h : Spells previous us (gap ++ behind)) (hgap : IsGap gap)
    {name : Text} (hname : leadingWord (Token.sourceOf us ++ gap) = name) (hne : name ≠ []) :
    ∃ before t after, us = before ++ t :: after ∧ (∀ u ∈ before, u.Nameless) ∧
      t.GivesName name := by
  obtain ⟨c, word, rfl⟩ := List.exists_cons_of_ne_nil hne
  obtain ⟨rest, hstart⟩ : ∃ rest, Text.trimStart (Token.sourceOf us ++ gap) = c :: rest := by
    unfold leadingWord at hname
    cases htrim : Text.trimStart (Token.sourceOf us ++ gap) with
    | nil => simp [htrim] at hname
    | cons d rest =>
      rw [htrim, List.takeWhile_cons] at hname
      split at hname
      · exact ⟨rest, by rw [(List.cons.inj hname).1]⟩
      · cases hname
  have hletter : Text.isWordChar c = true := by
    have hmem : c ∈ leadingWord (Token.sourceOf us ++ gap) := hname ▸ List.mem_cons_self
    exact List.mem_takeWhile_imp hmem
  obtain ⟨before, t, after, body, rfl, hblank, htrim, rfl⟩ :=
    exists_token_of_trimStart h.isGap hgap hstart (.inl hletter)
  obtain ⟨hbefore, _, hreads, _⟩ := spells_append_iff.mp h
  refine ⟨before, t, after, rfl, hbefore.nameless hblank, ?_⟩
  by_cases hkind : t.kind = .ident
  · refine .inl ⟨hkind, ?_⟩
    unfold leadingWord at hname ⊢
    rw [hstart, ← List.cons_append] at hname
    have hbehind : ∀ d ∈ (Token.sourceOf after ++ gap).head?, Text.isWordChar d = false := by
      intro d hd
      refine not_isWordChar_behind_ident (hkind ▸ hreads) d ?_
      rw [← List.append_assoc, List.head?_append, Option.mem_def.mp hd]
      rfl
    rw [htrim, ← hname, takeWhile_append_of_head hbehind]
  · -- No other token but a number begins with a character of a word.
    obtain htext : t.text = c :: body := by
      rcases trimStart_of_reads hreads hkind with hsame | ⟨-, hnil⟩
      · exact hsame.symm.trans htrim
      · rw [hnil] at htrim
        cases htrim
    rw [htext] at hreads
    obtain ⟨_, hkindAt, _⟩ := reads_cons_iff.mp hreads
    have hbegins : beginsIdent c = false := by
      by_contra hbegins
      rw [kindAt_of_beginsIdent (by simpa using hbegins)] at hkindAt
      exact hkind hkindAt.symm
    refine .inr ⟨?_, by simpa using hbegins⟩
    rw [← hkindAt, kindAt_of_isDigit (isDigit_of_isWordChar hletter hbegins)]

/-- Three dots are a token, in front of which there may be white space.  The dots cannot be spread
over several tokens, since the longest punctuator is taken. -/
theorem exists_dots_of_trimStart (h : Spells previous us (gap ++ behind)) (hgap : IsGap gap)
    {rest : Text} (hstart : Text.trimStart (Token.sourceOf us ++ gap) = '.' :: '.' :: '.' :: rest) :
    ∃ before after, us = before ++ after ∧ (∀ u ∈ before, u.Nameless) ∧
      rest = Token.sourceOf after ++ gap := by
  obtain ⟨before, t, after, body, rfl, hblank, htrim, hrest⟩ :=
    exists_token_of_trimStart h.isGap hgap hstart (.inr rfl)
  obtain ⟨hbefore, _, hreads, _⟩ := spells_append_iff.mp h
  have htext : t.text = '.' :: body := by
    by_cases hkind : t.kind = .ident
    · have hmem : '.' ∈ t.text := by
        refine (List.dropWhile_sublist Text.isBlank).subset ?_
        rw [show t.text.dropWhile Text.isBlank = _ from htrim]
        exact List.mem_cons_self
      exact absurd (continuesIdent_of_ident (hkind ▸ hreads) '.' hmem) (by decide)
    · rcases trimStart_of_reads hreads hkind with hsame | ⟨-, hnil⟩
      · exact hsame.symm.trans htrim
      · rw [hnil] at htrim
        cases htrim
  rw [htext] at hreads
  obtain ⟨_, hkind, p, hscan⟩ := reads_cons_iff.mp hreads
  have hbehind : body ++ (Token.sourceOf after ++ (gap ++ behind)) =
      '.' :: '.' :: (rest ++ behind) := by
    rw [← List.append_assoc (Token.sourceOf after), ← List.append_assoc, ← hrest]
    rfl
  have hpunct : kindAt (lastToken previous before) '.' ('.' :: '.' :: (rest ++ behind)).head? =
      .punct := rfl
  rw [hbehind, hpunct] at hkind
  rw [← hkind] at hscan
  have hlength := scanPunct_eq_found_iff.mp hscan
  rw [List.cons_append, hbehind] at hlength
  have hthree : punctLength ('.' :: '.' :: '.' :: (rest ++ behind)) = 3 := rfl
  rw [hthree, List.length_cons] at hlength
  obtain ⟨d, e, rfl⟩ := List.length_eq_two.mp (by omega : body.length = 2)
  obtain ⟨_, hrest⟩ := List.cons.inj hrest
  refine ⟨before ++ [t], after, by simp, ?_, (List.cons.inj hrest).2⟩
  intro u hu
  rcases List.mem_append.mp hu with hu | hu
  · exact hbefore.nameless hblank u hu
  · rw [List.mem_singleton.mp hu]
    exact .inl hkind.symm

/-- **The name of a parameter belongs to the first of its tokens that has a name.**  If there is a
rest mark the name is looked for behind it, and the mark is one of the tokens without a name. -/
theorem exists_token_of_name? (h : Spells previous us (gap ++ behind)) (hgap : IsGap gap)
    {name : Text} (hname : Param.name? (Token.sourceOf us ++ gap).trim = some name) :
    ∃ before t after, us = before ++ t :: after ∧ (∀ u ∈ before, u.Nameless) ∧
      t.GivesName name := by
  obtain ⟨hword, hne⟩ := name?_eq_some_iff.mp hname
  split at hword
  · rename_i hrest
    obtain ⟨param, hparam⟩ := List.isPrefixOf_iff_prefix.mp hrest
    obtain ⟨blanks, hsplit, hblanks⟩ :=
      exists_blanks_of_trimEnd (Text.trimStart (Token.sourceOf us ++ gap))
    have hstart : Text.trimStart (Token.sourceOf us ++ gap) =
        '.' :: '.' :: '.' :: (param ++ blanks) := by
      rw [hsplit, ← Text.trim, ← hparam]
      rfl
    obtain ⟨dots, more, rfl, hdots, hmore⟩ := exists_dots_of_trimStart h hgap hstart
    obtain ⟨-, hspells⟩ := spells_append_iff.mp h
    rw [← hparam, show ("...".toList ++ param).drop 3 = param from rfl,
      ← leadingWord_append_blanks hblanks, hmore] at hword
    obtain ⟨before, t, after, rfl, hbefore, hnamed⟩ :=
      exists_token_of_leadingWord hspells hgap hword hne
    refine ⟨dots ++ before, t, after, (List.append_assoc _ _ _).symm, ?_, hnamed⟩
    exact List.forall_mem_append.mpr ⟨hdots, hbefore⟩
  · rw [leadingWord_trim] at hword
    exact exists_token_of_leadingWord h hgap hword hne

end

/-- **The name of a parameter is the leading word of an identifier**, if it begins with a letter of
the lexer. -/
theorem exists_ident_of_mem_params {source : Text} {options : Options} {d : Declaration}
    (hd : d ∈ (extract source options).declarations) {param : Text} (hparam : param ∈ d.params)
    {c : Char} {word : Text} (hname : Param.name? param = some (c :: word))
    (hbegins : beginsIdent c = true) :
    ∃ t ∈ (lex source).tokens, t.kind = .ident ∧ leadingWord t.text = c :: word := by
  obtain ⟨i, hi⟩ := List.getElem?_of_mem hparam
  obtain ⟨run, -, hmem, previous, gap, behind, hspells, hgap, rfl⟩ := exists_run_of_params hd hi
  obtain ⟨before, t, after, rfl, -, hident | ⟨-, hnumber⟩⟩ := exists_token_of_name? hspells hgap hname
  · exact ⟨t, hmem t (by simp), hident⟩
  · rw [hnumber c rfl] at hbegins
    cases hbegins

end Twinfold
