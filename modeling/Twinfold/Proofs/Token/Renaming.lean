import Twinfold.Proofs.Token.Spelling

/-!
# Names in the place of tokens

Some tokens of a text are replaced by names, byte for byte, and nothing else is touched.  The
new text holds the same tokens, with identifiers in the places of the replaced ones, if no name
runs together with a neighbour (`Token.Apart`), and only then (`spells_renamed_iff`).

A name runs together with what stands directly before it if that goes on as long as letters
come: an identifier, a number, the flags of a regular expression.  It runs together with what
stands directly behind it if that begins with a letter or a digit.  And it turns a division
behind it into a regular expression if it is a word that waits for an operand.
-/

namespace Twinfold

/-! ### Letters -/

/-- A text that is an identifier. -/
def IsName (name : Text) : Prop := Reads none .ident name []

/-- A name is read wherever it stands: it does not begin with a slash, so the token before it does
not matter. -/
theorem IsName.reads {name : Text} (h : IsName name) (previous : Option Token) :
    Reads previous .ident name [] := by
  refine h.behind fun hslash => ?_
  cases name with
  | nil => cases hslash
  | cons c body =>
    cases hslash
    obtain ⟨_, hkind, _⟩ := reads_cons_iff.mp h
    rw [kindAt_slash] at hkind
    split at hkind <;> cases hkind

/-- An identifier does not begin with a digit. -/
theorem isDigit_of_beginsIdent {c : Char} (h : beginsIdent c = true) : c.isDigit = false := by
  by_contra hdigit
  rw [Bool.not_eq_false] at hdigit
  have hsmall : 48 ≤ c.toNat ∧ c.toNat ≤ 57 := by
    simpa [Char.isDigit, UInt32.le_iff_toNat_le] using hdigit
  have hnone : ∀ n : Fin 58, 48 ≤ n.val → beginsIdent (Char.ofNat n) = false := by decide
  have hbegins := hnone ⟨c.toNat, by omega⟩ hsmall.1
  rw [Char.ofNat_toNat, h] at hbegins
  cases hbegins

/-- With a letter an identifier begins. -/
theorem kindAt_of_beginsIdent {c : Char} (h : beginsIdent c = true) (previous : Option Token)
    (next : Option Char) : kindAt previous c next = .ident := by
  have hdigit := isDigit_of_beginsIdent h
  have hother : c ∉ ['"', '\'', '`', '.'] := by
    intro hc
    have hnone : ∀ d ∈ ['"', '\'', '`', '.'], beginsIdent d = false := by decide
    rw [hnone c hc] at h
    cases h
  simp only [List.mem_cons, List.not_mem_nil, or_false, not_or] at hother
  obtain ⟨hdouble, hsingle, hback, hdot⟩ := hother
  simp [kindAt, hdouble, hsingle, hback, hdigit, hdot, h]

/-- Letters and digits behind a letter are an identifier. -/
theorem isName_of_continues {c : Char} {body : Text} (hbegins : beginsIdent c = true)
    (hspace : isGapSpace c = false)
    (hbody : ∀ d ∈ body, continuesIdent d = true ∧ isWideSpace d = false) : IsName (c :: body) := by
  have hslash : c ≠ '/' := by
    rintro rfl
    exact absurd hbegins (by decide)
  refine reads_cons_iff.mpr ⟨?_, kindAt_of_beginsIdent hbegins _ _, .start, ?_⟩
  · simp [startsToken, hspace, hslash]
  · refine scanIdent_eq_found_iff.mpr ⟨?_, rfl⟩
    rw [identLength, List.takeWhile_eq_self_iff.mpr]
    intro d hd
    simp [hbody d hd]

/-- No punctuator of several characters has a letter in it. -/
theorem inNoPunct_of_beginsIdent {c : Char} (h : beginsIdent c = true) : InNoPunct c := by
  have hnone : ∀ s ∈ longPuncts, ∀ c ∈ s.toList, beginsIdent c = false := by decide
  intro s hs hc
  rw [hnone s hs c hc] at h
  cases h

/-- The first character of an identifier. -/
theorem exists_head_of_ident {previous : Option Token} {name tail : Text}
    (h : Reads previous .ident name tail) :
    ∃ c body, name = c :: body ∧ beginsIdent c = true ∧ c.isDigit = false ∧ c ≠ '/' := by
  cases name with
  | nil => exact absurd rfl h.ne_nil
  | cons c body =>
    refine ⟨c, body, rfl, ?_⟩
    obtain ⟨_, hkind, _⟩ := reads_cons_iff.mp h
    unfold kindAt at hkind
    split_ifs at hkind with _ _ hdigit hident
    refine ⟨hident, ?_, ?_⟩
    · simp only [Bool.or_eq_true, not_or, Bool.not_eq_true] at hdigit
      exact hdigit.1
    · rintro rfl
      simp [beginsIdent] at hident

/-- A gap begins with a space or with a comment. -/
theorem IsGap.head {c : Char} {gap : Text} (h : IsGap (c :: gap)) :
    isGapSpace c = true ∨ c = '/' := by
  obtain ⟨q, hread⟩ := h
  rw [List.cons_append, Twinfold.readGap] at hread
  split at hread
  · exact .inl ‹_›
  · split at hread
    · rename_i k hopened
      refine .inr ?_
      by_contra hc
      have hnone : Comment.opened? .start c (gap ++ ['x']).head? = none :=
        opened?_eq_none_iff.mpr fun h => hc h.1
      rw [hnone] at hopened
      cases hopened
    · cases hread

/-- What is behind the last token begins with a space or with a comment. -/
theorem IsClosing.head {c : Char} {gap : Text} (h : IsClosing (c :: gap)) :
    isGapSpace c = true ∨ c = '/' := by
  obtain ⟨q, hread⟩ := h
  rw [Twinfold.readGap] at hread
  split at hread
  · exact .inl ‹_›
  · split at hread
    · rename_i k hopened
      refine .inr ?_
      by_contra hc
      have hnone : Comment.opened? .start c gap.head? = none :=
        opened?_eq_none_iff.mpr fun h => hc h.1
      rw [hnone] at hopened
      cases hopened
    · cases hread

/-- An identifier ends in front of a space and of a comment. -/
theorem endsBefore_of_head {name : Text} {c : Char} (h : isGapSpace c = true ∨ c = '/') (t : Text) :
    endsBefore .ident name (c :: t) = true := by
  simp only [endsBefore, List.head?_cons, Option.all_some]
  rcases h with hspace | rfl
  · by_cases hwide : isWideSpace c
    · simp [hwide]
    · have hascii : isAsciiSpace c := by simpa [isGapSpace, hwide] using hspace
      have hcontinues : continuesIdent c = false := by
        simp only [isAsciiSpace, Bool.or_eq_true, decide_eq_true_eq] at hascii
        rcases hascii with (((rfl | rfl) | rfl) | rfl) | rfl <;> decide
      simp [hcontinues]
  · decide

/-- An identifier ends where a gap begins. -/
theorem endsBefore_gap {name : Text} {c : Char} {gap : Text} (h : IsGap (c :: gap)) (t : Text) :
    endsBefore .ident name ((c :: gap) ++ t) = true := endsBefore_of_head h.head (gap ++ t)

/-- An identifier ends at the end of a text. -/
theorem endsBefore_closing {name closing : Text} (h : IsClosing closing) :
    endsBefore .ident name closing = true := by
  cases closing with
  | nil => rfl
  | cons c gap => exact endsBefore_of_head h.head gap

/-! ### Replacing tokens -/

/-- The token with a name in its place. -/
def Token.named (t : Token) (name : Text) : Token := { t with kind := .ident, text := name }

/-- The token with the name it is given, if it is given one. -/
def Token.renamed (names : Token → Option Text) (t : Token) : Token :=
  (names t).elim t t.named

/-- The neighbours `t` and `u` do not run together if one of them gets a name. -/
def Token.ApartFrom (names : Token → Option Text) (t u : Token) : Prop :=
  ((names t).isSome ∨ (names u).isSome) → u.gap = [] →
    endsBefore (t.renamed names).kind (t.renamed names).text (u.renamed names).text = true

/-- The name of `t`, if it gets one, does not turn a division behind it into a regular
expression. -/
def Token.LeavesSlash (names : Token → Option Text) (t u : Token) : Prop :=
  (names t).isSome → u.text.head? = some '/' → slashBeginsRegex (some (t.renamed names)) = false

/-- No name runs together with a neighbour. -/
def Token.Apart (names : Token → Option Text) : List Token → Prop
  | t :: u :: ts => (t.ApartFrom names u ∧ t.LeavesSlash names u) ∧ Apart names (u :: ts)
  | _ => True

/-- Names are given to tokens behind which a slash divides. -/
structure Token.Nameable (names : Token → Option Text) (t : Token) : Prop where
  isName : ∀ name, names t = some name → IsName name
  slash : (names t).isSome → slashBeginsRegex (some t) = false ∧ t.text.head? ≠ some '/'

section

variable {names : Token → Option Text}

@[simp] theorem gap_renamed (t : Token) : (t.renamed names).gap = t.gap := by
  unfold Token.renamed
  cases names t <;> rfl

theorem renamed_of_none {t : Token} (h : names t = none) : t.renamed names = t := by
  rw [Token.renamed, h]
  rfl

/-- A token that gets a name has it. -/
theorem renamed_of_some {t : Token} {name : Text} (h : names t = some name) :
    t.renamed names = t.named name := by
  rw [Token.renamed, h]
  rfl

/-- **The first name.**  Up to its first name the new text is the old one.  So there is one place
to look at: the first letter of the first name. -/
theorem sourceOf_renamed_cases (ts : List Token) (hnames : ∀ t ∈ ts, t.Nameable names)
    (hne : ∀ t ∈ ts, t.text ≠ []) :
    Token.sourceOf (ts.map (Token.renamed names)) = Token.sourceOf ts ∨
      ∃ common old c new, Token.sourceOf ts = common ++ old ∧
        Token.sourceOf (ts.map (Token.renamed names)) = common ++ c :: new ∧ beginsIdent c = true ∧
        (common = [] → ∃ u us, ts = u :: us ∧ (names u).isSome ∧ u.gap = []) := by
  induction ts with
  | nil => exact .inl rfl
  | cons t ts ih =>
    rcases hname : names t with _ | name
    · rw [List.map_cons, renamed_of_none hname, sourceOf_cons, sourceOf_cons]
      rcases ih (fun u hu => hnames u (List.mem_cons_of_mem _ hu))
        (fun u hu => hne u (List.mem_cons_of_mem _ hu)) with
        hsame | ⟨common, old, c, new, hold, hnew, hc, _⟩
      · exact .inl (by rw [hsame])
      · refine .inr ⟨t.gap ++ (t.text ++ common), old, c, new, ?_, ?_, hc, ?_⟩
        · rw [hold, List.append_assoc, List.append_assoc]
        · rw [hnew, List.append_assoc, List.append_assoc]
        · intro hnil
          simp only [List.append_eq_nil_iff] at hnil
          exact absurd hnil.2.1 (hne t List.mem_cons_self)
    · obtain ⟨c, body, rfl, hc, _⟩ :=
        exists_head_of_ident ((hnames t List.mem_cons_self).isName name hname)
      rw [List.map_cons, renamed_of_some hname, sourceOf_cons, sourceOf_cons]
      refine .inr ⟨t.gap, _, c, _, rfl, rfl, hc, fun hgap => ?_⟩
      exact ⟨t, ts, rfl, by rw [hname]; rfl, hgap⟩

/-- A token that is kept ends where it did, if it does not run together with a name.  Up to the
first name it stands in front of what it stood in front of, and the first letter of that name is
all that it sees of the rest. -/
theorem endsBefore_renamed {t : Token} {ts : List Token} (hkept : names t = none)
    (hnames : ∀ u ∈ ts, u.Nameable names) (hne : ∀ u ∈ ts, u.text ≠ [])
    {tail : Text} (hends : endsBefore t.kind t.text (Token.sourceOf ts ++ tail))
    (hapart : ∀ u ∈ ts.head?, t.ApartFrom names u) :
    endsBefore t.kind t.text (Token.sourceOf (ts.map (Token.renamed names)) ++ tail) := by
  rcases sourceOf_renamed_cases ts hnames hne with
    hsame | ⟨common, old, c, new, hold, hnew, hc, hcommon⟩
  · rwa [hsame]
  · by_cases hnil : common = []
    · obtain ⟨u, us, rfl, hname, hgap⟩ := hcommon hnil
      obtain ⟨name, hname⟩ := Option.isSome_iff_exists.mp hname
      have hfused := hapart u rfl (.inr (by rw [hname]; rfl)) hgap
      obtain ⟨d, body, rfl, hd, _⟩ :=
        exists_head_of_ident ((hnames u List.mem_cons_self).isName name hname)
      rw [renamed_of_none hkept, renamed_of_some hname] at hfused
      rw [List.map_cons, renamed_of_some hname, sourceOf_cons]
      have hgap' : (u.named (d :: body)).gap = [] := hgap
      rw [hgap', List.nil_append, List.append_assoc]
      -- What comes behind the first letter of the name does not count.
      exact (endsBefore_congr (u := []) (inNoPunct_of_beginsIdent hd) body _) ▸ hfused
    · rw [hold, List.append_assoc] at hends
      rw [hnew, List.append_assoc]
      exact endsBefore_of_agree hends hnil (inNoPunct_of_beginsIdent hc) (new ++ tail)

/-- A name ends where its token did, if it does not run together with what follows.  Behind it
there is the tail, a gap, or a token directly, and in the last case the first letter of that one
counts. -/
theorem endsBefore_name {t : Token} {name : Text} {ts : List Token} (hname : names t = some name)
    (hgap : ∀ u ∈ ts.head?, IsGap u.gap) (hne : ∀ u ∈ ts, (u.renamed names).text ≠ [])
    {tail : Text} (htail : endsBefore .ident name tail)
    (hapart : ∀ u ∈ ts.head?, t.ApartFrom names u) :
    endsBefore .ident name (Token.sourceOf (ts.map (Token.renamed names)) ++ tail) := by
  cases ts with
  | nil => exact htail
  | cons u us =>
    rw [List.map_cons, sourceOf_cons, gap_renamed, List.append_assoc, List.append_assoc]
    have hisGap := hgap u rfl
    cases hcase : u.gap with
    | nil =>
      have hfused := hapart u rfl (.inl (by rw [hname]; rfl)) hcase
      rw [renamed_of_some hname] at hfused
      have hhead := head?_append_of_ne_nil (hne u List.mem_cons_self)
        (Token.sourceOf (us.map (Token.renamed names)) ++ tail) []
      rw [List.append_nil] at hhead
      rw [List.nil_append, endsBefore, hhead]
      exact hfused
    | cons c gap =>
      rw [hcase] at hisGap
      exact endsBefore_gap hisGap _

/-- With names in their places tokens are not empty either. -/
theorem renamed_text_ne_nil {t : Token} (h : t.Nameable names) (hne : t.text ≠ []) :
    (t.renamed names).text ≠ [] := by
  rcases hname : names t with _ | name
  · rwa [renamed_of_none hname]
  · rw [renamed_of_some hname]
    exact (h.isName name hname).ne_nil

/-- Where no name of a list runs together with a neighbour, that of the first token does not, and
neither do the others. -/
theorem Token.Apart.head {t : Token} {ts : List Token} (h : Token.Apart names (t :: ts)) :
    (∀ u ∈ ts.head?, t.ApartFrom names u ∧ t.LeavesSlash names u) ∧ Token.Apart names ts := by
  cases ts with
  | nil => exact ⟨by simp, trivial⟩
  | cons u us =>
    refine ⟨?_, h.2⟩
    intro v hv
    cases hv
    exact h.1

/-- Where no name runs together with a neighbour or with the tail, the new tokens spell the new
text. -/
theorem spells_renamed {previous previous' : Option Token} {ts : List Token} {tail : Text}
    (h : Spells previous ts tail) (htail : ∀ name, endsBefore .ident name tail)
    (hnames : ∀ t ∈ ts, t.Nameable names)
    (hslash : ∀ t ∈ ts.head?, t.text.head? = some '/' →
      slashBeginsRegex previous = slashBeginsRegex previous')
    (hapart : Token.Apart names ts) : Spells previous' (ts.map (Token.renamed names)) tail := by
  induction ts generalizing previous previous' with
  | nil => trivial
  | cons t ts ih =>
    obtain ⟨hgap, hreads, hspells⟩ := h
    obtain ⟨hhead, hrest⟩ := hapart.head
    have hnames' : ∀ u ∈ ts, u.Nameable names := fun u hu => hnames u (List.mem_cons_of_mem _ hu)
    have hne := hspells.text_ne_nil
    refine ⟨(gap_renamed t).symm ▸ hgap, ?_, ih hspells hnames' ?_ hrest⟩
    · rcases hname : names t with _ | name
      · rw [renamed_of_none hname]
        exact (hreads.behind (hslash t rfl)).retail
          (endsBefore_renamed hname hnames' hne hreads.endsBefore fun u hu => (hhead u hu).1)
      · have hisName := (hnames t List.mem_cons_self).isName name hname
        rw [renamed_of_some hname]
        refine (hisName.reads previous').retail
          (endsBefore_name hname ?_ ?_ (htail name) fun u hu => (hhead u hu).1)
        · exact fun u hu => hspells.isGap u (List.mem_of_mem_head? hu)
        · exact fun u hu => renamed_text_ne_nil (hnames' u hu) (hne u hu)
    · intro u hu huslash
      rcases hname : names t with _ | name
      · rw [renamed_of_none hname]
      · have hsome : (names t).isSome := by rw [hname]; rfl
        rw [((hnames t List.mem_cons_self).slash hsome).1, (hhead u hu).2 hsome huslash]

/-- A token that is read in front of a text ends before the front of it.  Only tokens without a gap
between them can run together. -/
theorem apartFrom_of_endsBefore {t u : Token} (hnames : u.Nameable names) (hne : u.text ≠ [])
    {rest : Text}
    (hends : endsBefore (t.renamed names).kind (t.renamed names).text
      ((u.renamed names).gap ++ ((u.renamed names).text ++ rest))) : t.ApartFrom names u := by
  intro hname hgap
  rw [gap_renamed, hgap, List.nil_append] at hends
  rcases hu : names u with _ | name
  · have ht : (names t).isSome := by simpa [hu] using hname
    obtain ⟨name, ht⟩ := Option.isSome_iff_exists.mp ht
    have hhead := head?_append_of_ne_nil (renamed_text_ne_nil hnames hne) rest []
    rw [List.append_nil] at hhead
    rw [renamed_of_some ht] at hends ⊢
    have hkind : (t.named name).kind = .ident := rfl
    rw [hkind, endsBefore] at hends ⊢
    rwa [← hhead]
  · obtain ⟨d, body, rfl, hd, _⟩ := exists_head_of_ident (hnames.isName name hu)
    rw [renamed_of_some hu] at hends ⊢
    exact (endsBefore_congr (u := []) (inNoPunct_of_beginsIdent hd) (body ++ rest) body) ▸ hends

/-- What a slash is behind a token can be seen from what is read. -/
theorem slashBeginsRegex_of_reads {previous previous' : Option Token} {kind : TokenKind}
    {text tail tail' : Text} (h : Reads previous kind text tail)
    (h' : Reads previous' kind text tail') (hslash : text.head? = some '/') :
    slashBeginsRegex previous = slashBeginsRegex previous' := by
  cases text with
  | nil => cases hslash
  | cons c body =>
    cases hslash
    obtain ⟨_, hkind, _⟩ := reads_cons_iff.mp h
    obtain ⟨_, hkind', _⟩ := reads_cons_iff.mp h'
    have hsame := hkind.trans hkind'.symm
    rw [kindAt_slash, kindAt_slash] at hsame
    cases hp : slashBeginsRegex previous <;> cases hp' : slashBeginsRegex previous' <;>
      simp [hp, hp'] at hsame ⊢

/-- If the new tokens spell the new text, no name runs together with a neighbour.  A token that is
read where it stands ends there, and a name that went on would end elsewhere. -/
theorem apart_of_spells_renamed {previous previous' : Option Token} {ts : List Token}
    (h : Spells previous ts []) (hnames : ∀ t ∈ ts, t.Nameable names)
    (h' : Spells previous' (ts.map (Token.renamed names)) []) : Token.Apart names ts := by
  induction ts generalizing previous previous' with
  | nil => trivial
  | cons t ts ih =>
    have hrest := ih h.2.2 (fun u hu => hnames u (List.mem_cons_of_mem _ hu)) h'.2.2
    cases ts with
    | nil => trivial
    | cons u us =>
      have hu := hnames u (by simp)
      refine ⟨⟨?_, ?_⟩, hrest⟩
      · have hends := h'.2.1.endsBefore
        rw [List.map_cons, sourceOf_cons, List.append_assoc, List.append_assoc] at hends
        exact apartFrom_of_endsBefore hu (h.2.2.text_ne_nil u List.mem_cons_self) hends
      · intro hsome huslash
        have hkept : names u = none := by
          by_contra hname
          exact (hu.slash (Option.isSome_iff_ne_none.mpr hname)).2 huslash
        have hread := h'.2.2.2.1
        rw [renamed_of_none hkept] at hread
        rw [slashBeginsRegex_of_reads hread h.2.2.2.1 huslash]
        exact ((hnames t List.mem_cons_self).slash hsome).1

/-- **Names among tokens.**  The new tokens spell the new text if and only if no name runs
together with a neighbour. -/
theorem spells_renamed_iff {previous : Option Token} {ts : List Token}
    (h : Spells previous ts []) (hnames : ∀ t ∈ ts, t.Nameable names) :
    Spells previous (ts.map (Token.renamed names)) [] ↔ Token.Apart names ts :=
  ⟨apart_of_spells_renamed h hnames, spells_renamed h (fun _ => rfl) hnames fun _ _ _ => rfl⟩

/-! ### Lexing the new text -/

/-- A token of the new text begins where it stands.  Neither a space nor a comment begins there: a
name begins with a letter, and a slash that is kept is followed by what followed it, or by a
letter. -/
theorem startsToken_renamed {previous : Option Token} {t : Token} {ts : List Token}
    (h : Spells previous (t :: ts) []) (hnames : ∀ u ∈ t :: ts, u.Nameable names) :
    startsToken ((t.renamed names).text ++ Token.sourceOf (ts.map (Token.renamed names))) := by
  obtain ⟨_, hreads, hspells⟩ := h
  rcases hname : names t with _ | name
  · rw [renamed_of_none hname]
    have hstart := hreads.1
    rw [List.append_nil] at hstart
    cases htext : t.text with
    | nil => exact absurd htext hreads.ne_nil
    | cons c body =>
      rw [htext] at hstart
      rw [List.cons_append, startsToken_append_iff] at hstart ⊢
      refine ⟨hstart.1, ?_⟩
      rcases sourceOf_renamed_cases ts (fun u hu => hnames u (List.mem_cons_of_mem _ hu))
        hspells.text_ne_nil with hsame | ⟨common, old, d, new, hold, hnew, hd, _⟩
      · rw [hsame]
        exact hstart.2
      · rw [hnew]
        cases common with
        | nil =>
          rintro ⟨_, hslash⟩
          rcases hslash with hslash | hslash <;> cases hslash <;> simp [beginsIdent] at hd
        | cons e common =>
          rw [hold] at hstart
          exact hstart.2
  · have hisName := (hnames t List.mem_cons_self).isName name hname
    obtain ⟨c, body, rfl, _, _, hc⟩ := exists_head_of_ident hisName
    rw [renamed_of_some hname]
    have hstart := hisName.1
    rw [List.cons_append, startsToken_append_iff] at hstart
    exact startsToken_append_iff.mpr ⟨hstart.1, fun h => hc (List.cons.inj h.1).1⟩

/-- Tokens with the same words that spell the same text have the same gaps.  Both first gaps end
where the first token begins, and the words behind them are the same, so the induction goes on
behind these. -/
theorem sameTokens_of_words {previous previous' : Option Token} {ts us : List Token}
    {closing : Text} (h : Spells previous ts []) (hnames : ∀ t ∈ ts, t.Nameable names)
    (hus : Spells previous' us closing)
    (htext : Token.sourceOf us ++ closing = Token.sourceOf (ts.map (Token.renamed names)))
    (hwords : us.map Token.word = (ts.map (Token.renamed names)).map Token.word) :
    SameTokens us (ts.map (Token.renamed names)) ∧ closing = [] := by
  induction ts generalizing previous previous' us with
  | nil =>
    obtain rfl : us = [] := by simpa using hwords
    exact ⟨rfl, htext⟩
  | cons t ts ih =>
    cases us with
    | nil => cases hwords
    | cons u us =>
      obtain ⟨hword, hwords⟩ := List.cons.inj hwords
      obtain ⟨hkind, hutext⟩ := Prod.mk.inj hword
      rw [List.map_cons, sourceOf_cons, sourceOf_cons, List.append_assoc, List.append_assoc] at htext
      -- Both gaps end where the first token begins.
      obtain ⟨_, hread⟩ := hus.1.readGap hus.2.1.1 .start
      obtain ⟨_, hread'⟩ := ((gap_renamed t).symm ▸ h.1 : IsGap (t.renamed names).gap).readGap
        (startsToken_renamed h hnames) .start
      rw [htext, hread'] at hread
      injection hread with hgap hrest _
      change u.text = _ at hutext
      rw [hutext, List.append_cancel_left_eq] at hrest
      obtain ⟨hsame, hclosing⟩ := ih h.2.2 (fun v hv => hnames v (List.mem_cons_of_mem _ hv))
        hus.2.2 hrest.symm hwords
      refine ⟨?_, hclosing⟩
      exact List.cons_eq_cons.mpr ⟨bare_eq_iff.mpr ⟨hkind, hgap.symm, hutext⟩, hsame⟩

/-- **Lexing the new text.**  It holds the old tokens with the names in their places if and only
if no name runs together with a neighbour. -/
theorem tokenize_renamed_iff {ts : List Token} (h : Spells none ts [])
    (hnames : ∀ t ∈ ts, t.Nameable names)
    (hbang : hashBang (Token.sourceOf (ts.map (Token.renamed names))) = []) :
    (∃ us, tokenize (Token.sourceOf (ts.map (Token.renamed names))) = .ok us ∧
      us.map Token.word = (ts.map (Token.renamed names)).map Token.word) ↔
      Token.Apart names ts := by
  rw [← spells_renamed_iff h hnames]
  constructor
  · rintro ⟨us, hus, hwords⟩
    obtain ⟨vs, closing, rfl, hsource, hspells, _⟩ := spells_of_tokenize hus
    rw [hbang, List.nil_append] at hsource
    rw [hbang, prependGap_nil] at hwords
    obtain ⟨hsame, rfl⟩ := sameTokens_of_words h hnames hspells hsource.symm hwords
    exact hspells.congr hsame
  · intro hspells
    have hsource : Token.sourceOf (ts.map (Token.renamed names)) =
        hashBang (Token.sourceOf (ts.map (Token.renamed names))) ++
          (Token.sourceOf (ts.map (Token.renamed names)) ++ []) := by
      rw [hbang, List.nil_append, List.append_nil]
    obtain ⟨us, hus, hsame⟩ := tokenize_of_spells hsource hspells isClosing_nil
    rw [hbang, prependGap_nil] at hus
    exact ⟨us, hus, map_word_of_sameTokens hsame⟩

end

end Twinfold
