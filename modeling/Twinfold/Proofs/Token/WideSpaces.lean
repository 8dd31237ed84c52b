import Twinfold.Proofs.Text.Splice
import Twinfold.Proofs.Token.Tiling

/-!
# Wide spaces

Between tokens the byte order mark, the no-break space and the line and paragraph separators are
spaces like those of ASCII.  So a space in a gap can be replaced by any of them, also within a
comment, and the text still holds the same tokens: every scanner stops where a wide space begins.
Only the flags of a regular expression do not, since they take every character beyond ASCII.

* `widened_iff` — a wide space in the place of a space leaves the tokens as they are, if and only if
  it does not stand directly behind a regular expression;
* `flags_take_wide_space` — a no-break space that becomes a flag, together with the word behind it.
-/

namespace Twinfold

/-! ### The four characters -/

/-- The wide spaces. -/
def wideSpaces : List Char := ['\uFEFF', '\u00A0', '\u2028', '\u2029']

theorem mem_wideSpaces {w : Char} (h : isWideSpace w = true) : w ∈ wideSpaces := by
  simpa [isWideSpace, wideSpaces, or_assoc] using h

theorem isWideSpace_of_mem {w : Char} (h : w ∈ wideSpaces) : isWideSpace w = true := by
  revert w
  decide

theorem inNoPunct_of_wideSpace : ∀ w ∈ wideSpaces, InNoPunct w := by
  unfold InNoPunct
  decide

theorem isGapSpace_of_wideSpace : ∀ w ∈ wideSpaces, isGapSpace w = true := by
  decide

theorem wideSpace_ne : ∀ w ∈ wideSpaces, w ∉ ['/', '*', '\n', '!', ' '] := by
  decide

/-- A wide space lies beyond ASCII: it continues identifiers and nothing else. -/
theorem wideSpace_continues : ∀ w ∈ wideSpaces,
    continuesIdent w = true ∧ w.isDigit = false ∧
      ∀ hex last, continuesNumber hex last w = false := by
  have hplain : ∀ w ∈ wideSpaces, continuesIdent w = true ∧ w.isAlphanum = false ∧
      w.isDigit = false ∧ w ∉ ['.', '_', '+', '-'] := by
    decide
  intro w hw
  obtain ⟨hident, halnum, hdigit, hother⟩ := hplain w hw
  simp only [List.mem_cons, List.not_mem_nil, or_false, not_or] at hother
  exact ⟨hident, hdigit, fun hex last => by simp [continuesNumber, halnum, hother]⟩

/-! ### Gaps -/

section

variable {w : Char} {final : Prop}

/-- Where a block comment is closed does not depend on its spaces. -/
theorem closesBehind_widened {star : Bool} {left right : Text} (hw : w ∈ wideSpaces) :
    ClosesBehind star (left ++ w :: right) ↔ ClosesBehind star (left ++ ' ' :: right) := by
  have hne := wideSpace_ne w hw
  simp only [List.mem_cons, List.not_mem_nil, or_false, not_or] at hne
  induction left generalizing star with
  | nil => simp [ClosesBehind, hne]
  | cons c left ih => simp only [List.cons_append, ClosesBehind, ih]

/-- A comment ends at the first star and slash. -/
theorem closesBehind_comment_iff {comment : Text} :
    ClosesBehind false (comment ++ ['*']) ↔ ¬['*', '/'] <:+: comment ++ ['*'] := by
  rw [closesBehind_iff]
  simp

/-- Two characters of one text stand one behind the other. -/
theorem cases_of_append_cons {c d : Char} (hne : c ≠ d) {left right left' right' : Text}
    (h : left ++ c :: right = left' ++ d :: right') :
    (∃ between, left' = left ++ c :: between ∧ right = between ++ d :: right') ∨
      ∃ between, left = left' ++ d :: between ∧ right' = between ++ c :: right := by
  rcases List.append_eq_append_iff.mp h with ⟨more, rfl, hmore⟩ | ⟨more, rfl, hmore⟩ <;>
    rcases more with _ | ⟨e, more⟩
  · exact absurd (List.cons.inj hmore).1 hne
  · obtain ⟨rfl, rfl⟩ := List.cons.inj hmore
    exact .inl ⟨more, rfl, rfl⟩
  · exact absurd (List.cons.inj hmore).1.symm hne
  · obtain ⟨rfl, rfl⟩ := List.cons.inj hmore
    exact .inr ⟨more, rfl, rfl⟩

/-- A text that goes on with a space behind a mark of two characters. -/
theorem exists_behind_mark {c d : Char} (hc : c ≠ ' ') (hd : d ≠ ' ') {left right t : Text}
    (h : left ++ ' ' :: right = c :: d :: t) :
    ∃ left', left = c :: d :: left' ∧ left' ++ ' ' :: right = t := by
  rcases left with _ | ⟨c', _ | ⟨d', left⟩⟩
  · exact absurd (List.cons.inj h).1.symm hc
  · exact absurd (List.cons.inj (List.cons.inj h).2).1.symm hd
  · simp only [List.cons_append, List.cons.injEq] at h
    obtain ⟨rfl, rfl, hrest⟩ := h
    exact ⟨left, rfl, hrest⟩

/-- **A space of a gap may be any other.**  Also within a comment.  The induction is on the gap, up
to the space or into the comment that holds it. -/
theorem Trivia.widen {left right : Text} (h : Trivia final (left ++ ' ' :: right))
    (hw : w ∈ wideSpaces) : Trivia final (left ++ w :: right) := by
  have hspace := isGapSpace_of_wideSpace w hw
  have hne := wideSpace_ne w hw
  simp only [List.mem_cons, List.not_mem_nil, or_false, not_or] at hne
  obtain ⟨-, -, hbreak, -⟩ := hne
  generalize htext : left ++ ' ' :: right = text at h
  induction h generalizing left with
  | nil => simp at htext
  | @space c t hc ht ih =>
    cases left with
    | nil =>
      obtain ⟨-, rfl⟩ := List.cons.inj htext
      exact .space hspace ht
    | cons d left =>
      rw [List.cons_append, List.cons.injEq] at htext
      obtain ⟨rfl, htext⟩ := htext
      exact .space hc (ih htext)
  | @line comment t hline ht ih =>
    obtain ⟨left, rfl, hrest⟩ := exists_behind_mark (by decide) (by decide) htext
    have hspaceNe : ' ' ≠ '\n' := by decide
    rcases cases_of_append_cons hspaceNe hrest with ⟨between, rfl, rfl⟩ | ⟨between, rfl, rfl⟩
    · have hline' : '\n' ∉ left ++ w :: between := by simpa [Ne.symm hbreak] using hline
      simpa using Trivia.line hline' ht
    · simpa using Trivia.line hline (ih rfl)
  | @block comment t hblock ht ih =>
    obtain ⟨left, rfl, hrest⟩ := exists_behind_mark (by decide) (by decide) htext
    have hspaceNe : ' ' ≠ '*' := by decide
    rcases cases_of_append_cons hspaceNe hrest with ⟨between, rfl, rfl⟩ | ⟨between, rfl, hmark⟩
    · have hblock' : ¬['*', '/'] <:+: (left ++ w :: between) ++ ['*'] := by
        rw [← closesBehind_comment_iff, List.append_assoc, List.cons_append] at hblock ⊢
        exact (closesBehind_widened hw).mpr hblock
      simpa using Trivia.block hblock' ht
    · rcases between with _ | ⟨c, between⟩
      · cases hmark
      · obtain ⟨rfl, rfl⟩ := List.cons.inj hmark
        simpa using Trivia.block hblock (ih rfl)
  | @last comment hfinal hline =>
    obtain ⟨left, rfl, rfl⟩ := exists_behind_mark (by decide) (by decide) htext
    exact .last hfinal (by simpa [Ne.symm hbreak] using hline)

/-! ### Tokens -/

/-- **Every token but a regular expression ends before a wide space.**  The flags of a regular
expression go on with every character beyond ASCII. -/
theorem endsBefore_wideSpace_iff {previous : Option Token} {kind : TokenKind} {text : Text}
    (h : Reads previous kind text []) (hw : w ∈ wideSpaces) (t : Text) :
    endsBefore kind text (w :: t) ↔ kind ≠ .regex := by
  obtain ⟨hident, hdigit, hnumber⟩ := wideSpace_continues w hw
  have hne := wideSpace_ne w hw
  simp only [List.mem_cons, List.not_mem_nil, or_false, not_or] at hne
  cases kind with
  | string => simp [endsBefore]
  | template => simp [endsBefore]
  | regex => simp [endsBefore, hident]
  | ident => simp [endsBefore, isWideSpace_of_mem hw]
  | number => simp [endsBefore, hnumber]
  | punct =>
    have hends := h.endsBefore
    simp only [endsBefore, List.append_nil, Bool.and_eq_true, decide_eq_true_eq] at hends
    simp [endsBefore, punctLength_append_cons (inNoPunct_of_wideSpace w hw), hends.1.1, hdigit, hne]

/-- Tokens in front of a text are read where it goes on otherwise, if something of it stays. -/
theorem Spells.retail_behind {previous : Option Token} {ts : List Token} {front tail : Text}
    (h : Spells previous ts (front ++ tail)) (hne : front ≠ []) {c : Char} (hc : InNoPunct c)
    (tail' : Text) : Spells previous ts (front ++ c :: tail') := by
  induction ts generalizing previous with
  | nil => trivial
  | cons t ts ih =>
    obtain ⟨hgap, hreads, hspells⟩ := h
    refine ⟨hgap, hreads.retail ?_, ih hspells⟩
    have hends := hreads.endsBefore
    rw [← List.append_assoc] at hends ⊢
    exact endsBefore_of_agree hends (by simp [hne]) hc tail'

/-- A token that begins in front of a space begins in front of a wide one. -/
theorem startsToken_widened {text tail : Text} (hne : text ≠ []) (h : startsToken (text ++ tail))
    (hw : w ∈ wideSpaces) (right : Text) : startsToken (text ++ w :: right) := by
  have hother := wideSpace_ne w hw
  simp only [List.mem_cons, List.not_mem_nil, or_false, not_or] at hother
  obtain ⟨c, body, rfl⟩ := List.exists_cons_of_ne_nil hne
  rw [List.cons_append, startsToken_append_iff] at h ⊢
  exact ⟨h.1, by simp [hother]⟩

/-- A text begins with `#!` whatever space stands in it behind its first character. -/
theorem isPrefixOf_hashBang_widened {front : Text} (hne : front ≠ []) (hw : w ∈ wideSpaces)
    (behind : Text) : ['#', '!'].isPrefixOf (front ++ w :: behind) =
      ['#', '!'].isPrefixOf (front ++ ' ' :: behind) := by
  have hother := wideSpace_ne w hw
  simp only [List.mem_cons, List.not_mem_nil, or_false, not_or] at hother
  rcases front with _ | ⟨c, _ | ⟨d, front⟩⟩
  · exact absurd rfl hne
  · simp [List.isPrefixOf, Ne.symm hother.2.2.2.1]
  · simp [List.isPrefixOf]

/-! ### Texts -/

variable {source left right closing : Text} {ts us : List Token} {t u : Token}

/-- The text of tokens in front of a gap, and what stands behind a character of the gap. -/
theorem sourceOf_around (ts us : List Token) (t u : Token) (left right closing : Text) (c : Char) :
    Token.sourceOf (ts ++ t :: { u with gap := left ++ c :: right } :: us) ++ closing =
      (Token.sourceOf (ts ++ [t]) ++ left) ++
        c :: (right ++ (u.text ++ (Token.sourceOf us ++ closing))) := by
  simp

/-- Tokens are read with a wide space in the place of a space, unless it stands directly behind a
regular expression. -/
theorem Spells.widen (h : Spells none (ts ++ t :: { u with gap := left ++ ' ' :: right } :: us) closing)
    (hw : w ∈ wideSpaces) (hregex : t.kind = .regex → left ≠ []) :
    Spells none (ts ++ t :: { u with gap := left ++ w :: right } :: us) closing := by
  have hlong := inNoPunct_of_wideSpace w hw
  rw [spells_append_iff] at h ⊢
  obtain ⟨hts, htGap, htReads, huGap, huReads, hus⟩ := h
  refine ⟨?_, htGap, ?_, ?_, huReads, hus.behind (slashBeginsRegex_congr rfl rfl)⟩
  · have hfront : t.gap ++ (t.text ++ left) ≠ [] := by simp [htReads.ne_nil]
    simp only [sourceOf_cons, List.append_assoc, List.cons_append] at hts ⊢
    simpa using Spells.retail_behind (by simpa using hts) hfront hlong _
  · refine htReads.retail ?_
    simp only [sourceOf_cons, List.append_assoc, List.cons_append]
    by_cases hleft : left = []
    · subst hleft
      exact (endsBefore_wideSpace_iff htReads.alone hw _).mpr fun hkind => hregex hkind rfl
    · have hends := htReads.endsBefore
      simp only [sourceOf_cons, List.append_assoc, List.cons_append] at hends
      exact endsBefore_of_agree hends hleft hlong _
  · rw [isGap_iff_trivia] at huGap ⊢
    exact huGap.widen hw

/-- The first line of a text stays when a space behind a token becomes a wide one. -/
theorem hashBang_widened {first front behind : Text} (hne : front ≠ [])
    (h : hashBang (first ++ (front ++ ' ' :: behind)) = first) (hw : w ∈ wideSpaces) :
    hashBang (first ++ (front ++ w :: behind)) = first := by
  refine hashBang_retail h ?_ (head?_append_of_ne_nil hne _ _)
  rw [← List.append_assoc, ← List.append_assoc]
  exact isPrefixOf_hashBang_widened (List.append_ne_nil_of_right_ne_nil first hne) hw behind

/-- **Behind a regular expression a wide space is none.**  No tokens that spell the new text begin
with those in front of the space. -/
theorem not_spells_widened {us' : List Token} {closing' : Text}
    (h : Spells none (ts ++ [t]) (' ' :: right)) (hw : w ∈ wideSpaces) (hregex : t.kind = .regex)
    (hspells : Spells none us' closing') (hclosing : IsClosing closing')
    (htext : Token.sourceOf us' ++ closing' = Token.sourceOf (ts ++ [t]) ++ w :: right) :
    ¬(ts ++ [t]).map Token.word <+: us'.map Token.word := by
  rintro ⟨more, hwords⟩
  rw [spells_append_iff] at h
  obtain ⟨hts, hgap, hreads, -⟩ := h
  have hfront : t.gap ++ t.text ≠ [] := by simp [hreads.ne_nil]
  -- The tokens in front of the regular expression are found again.
  have hts' : Spells none ts (t.gap ++ t.text ++ ' ' :: right) := by simpa using hts
  replace hts' := hts'.retail_behind hfront (inNoPunct_of_wideSpace w hw) right
  obtain ⟨front, rest, rfl, hsame⟩ := hts'.exists_front hspells hclosing rfl (by simp [htext])
  rw [List.map_append, List.map_append, map_word_of_sameTokens hsame, List.append_assoc,
    List.append_cancel_left_eq] at hwords
  obtain ⟨v, rest, rfl, hword, -⟩ := List.map_eq_cons_iff.mp hwords.symm
  obtain ⟨hkind, hvText⟩ := word_eq_iff.mp hword
  -- So it comes next, behind the same gap, and the wide space follows on it.
  rw [spells_append_iff] at hspells
  obtain ⟨-, hvGap, hvReads, -⟩ := hspells
  rw [sourceOf_append, sourceOf_append, hsame.sourceOf, List.append_assoc, List.append_assoc,
    List.append_cancel_left_eq] at htext
  simp only [sourceOf_cons, sourceOf_nil, List.append_nil, List.append_assoc] at htext
  have hstart := startsToken_widened hreads.ne_nil hreads.1 hw right
  have hgaps := hvGap.unique hgap hvReads.1 hstart (by simpa using htext)
  rw [hgaps, List.append_cancel_left_eq, hvText, List.append_cancel_left_eq] at htext
  have hends := hvReads.endsBefore
  rw [htext] at hends
  exact (endsBefore_wideSpace_iff hvReads.alone hw _).mp hends (hkind.trans hregex)

/-- A character that stands between two offsets of a text stands in what lies between them. -/
theorem exists_around_of_size {front gap rest left' right' : Text} {c : Char}
    (h : front ++ (gap ++ rest) = left' ++ c :: right') (hlow : front.size ≤ left'.size)
    (hhigh : left'.size < front.size + gap.size) :
    ∃ left right, gap = left ++ c :: right ∧ left' = front ++ left ∧ right' = right ++ rest := by
  obtain ⟨left, rfl, hgap⟩ := exists_behind_of_size h hlow
  rw [Text.size_append] at hhigh
  rcases List.append_eq_append_iff.mp hgap with ⟨more, rfl, hmore⟩ | ⟨more, rfl, hmore⟩
  · rw [Text.size_append] at hhigh
    omega
  · rcases more with _ | ⟨d, more⟩
    · simp at hhigh
    · obtain ⟨rfl, rfl⟩ := List.cons.inj hmore
      exact ⟨left, more, rfl, rfl, rfl⟩

/-- The tokens of a text around a gap, without what the first line puts in front of them.  If the
first line is a part of the first gap, the first token is only moved by it. -/
theorem exists_spells_around (hts : tokenize source = .ok (ts ++ t :: u :: us)) :
    ∃ vs v closing, source = hashBang source ++ (Token.sourceOf (vs ++ v :: u :: us) ++ closing) ∧
      Spells none (vs ++ v :: u :: us) closing ∧ IsClosing closing ∧
      v.word = t.word ∧ vs.map Token.word = ts.map Token.word ∧
      t.stop = (hashBang source ++ Token.sourceOf (vs ++ [v])).size ∧
      u.start = t.stop + u.gap.size := by
  obtain ⟨all, closing, hprepend, hsource, hspells, hclosing, hplaced⟩ := spells_of_tokenize hts
  -- Only the first token has another gap, and it is not the one behind the space.
  obtain ⟨vs, v, rfl, hv, hvStop, hvs⟩ : ∃ vs v, all = vs ++ v :: u :: us ∧ v.word = t.word ∧
      v.stop = t.stop ∧ vs.map Token.word = ts.map Token.word := by
    cases all with
    | nil => simp [prependGap] at hprepend
    | cons first all =>
      cases ts with
      | nil =>
        obtain ⟨rfl, rfl⟩ := List.cons.inj hprepend
        exact ⟨[], first, rfl, rfl, rfl, rfl⟩
      | cons x ts =>
        obtain ⟨rfl, rfl⟩ := List.cons.inj hprepend
        exact ⟨first :: ts, t, rfl, rfl, rfl, rfl⟩
  rw [placed_append_iff] at hplaced
  obtain ⟨-, hvStart, huStart, -⟩ := hplaced
  have hstop : v.stop = v.start + v.text.size := rfl
  refine ⟨vs, v, closing, hsource, hspells, hclosing, hv, hvs, ?_, hvStop ▸ huStart⟩
  simp only [sourceOf_append, sourceOf_cons, sourceOf_nil, List.append_nil, Text.size_append]
  omega

/-- The tokens of a text around a space between two of them.  The space is in the gap of the second
one, and falls apart into what is left and right of it. -/
theorem exists_spells_around_space {front behind : Text}
    (hts : tokenize (front ++ ' ' :: behind) = .ok (ts ++ t :: u :: us))
    (hbetween : t.stop ≤ front.size ∧ front.size < u.start) :
    ∃ vs v left right closing, u.gap = left ++ ' ' :: right ∧
      front = hashBang (front ++ ' ' :: behind) ++ (Token.sourceOf (vs ++ [v]) ++ left) ∧
      behind = right ++ (u.text ++ (Token.sourceOf us ++ closing)) ∧
      Spells none (vs ++ v :: u :: us) closing ∧ IsClosing closing ∧
      v.word = t.word ∧ vs.map Token.word = ts.map Token.word ∧
      (left = [] ↔ front.size = t.stop) := by
  obtain ⟨vs, v, closing, hsource, hspells, hclosing, hv, hvs, hstop, hstart⟩ :=
    exists_spells_around hts
  generalize hashBang (front ++ ' ' :: behind) = first at *
  have hcut : (first ++ Token.sourceOf (vs ++ [v])) ++
      (u.gap ++ (u.text ++ (Token.sourceOf us ++ closing))) = front ++ ' ' :: behind := by
    simp [hsource]
  obtain ⟨left, right, hgap, rfl, rfl⟩ := exists_around_of_size hcut (by omega) (by omega)
  refine ⟨vs, v, left, right, closing, hgap, List.append_assoc _ _ _, rfl, hspells, hclosing, hv, hvs,
    ?_⟩
  rw [hstop, Text.size_append, Nat.add_eq_left]
  exact ⟨fun hnil => hnil ▸ rfl, fun hsize => by_contra fun hne => (Text.size_pos hne).ne' hsize⟩

/-- A space between two tokens is not in the first line of a script. -/
theorem hashBang_widened_between {front behind : Text}
    (hts : tokenize (front ++ ' ' :: behind) = .ok (ts ++ t :: u :: us))
    (hbetween : t.stop ≤ front.size ∧ front.size < u.start) (hw : w ∈ wideSpaces) :
    hashBang (front ++ w :: behind) = hashBang (front ++ ' ' :: behind) := by
  obtain ⟨vs, v, left, _, _, -, hfront, -, hspells, -⟩ := exists_spells_around_space hts hbetween
  generalize hfirst : hashBang (front ++ ' ' :: behind) = first at hfront ⊢
  have hne : Token.sourceOf (vs ++ [v]) ++ left ≠ [] := by
    rw [spells_append_iff] at hspells
    simp [hspells.2.2.1.ne_nil]
  rw [hfront, List.append_assoc] at hfirst ⊢
  exact hashBang_widened hne hfirst hw

/-- **Wide spaces are spaces**, but for one place.  A space in the gap between two tokens is
replaced by a wide one; then the text holds the same tokens if and only if the space does not
stand directly behind a regular expression. -/
theorem widened_iff {front behind : Text}
    (hts : tokenize (front ++ ' ' :: behind) = .ok (ts ++ t :: u :: us))
    (hbetween : t.stop ≤ front.size ∧ front.size < u.start) (hw : isWideSpace w = true) :
    (∃ vs, tokenize (front ++ w :: behind) = .ok vs ∧
      vs.map Token.word = (ts ++ t :: u :: us).map Token.word) ↔
      ¬(t.kind = .regex ∧ front.size = t.stop) := by
  have hwide := mem_wideSpaces hw
  obtain ⟨vs, v, left, right, closing, hgap, hfront, hbehind, hspells, hclosing, hv, hvs, hleft⟩ :=
    exists_spells_around_space hts hbetween
  have hbang := hashBang_widened_between hts hbetween hwide
  generalize hashBang (front ++ ' ' :: behind) = first at hfront hbang
  obtain ⟨hkind, -⟩ := word_eq_iff.mp hv
  constructor
  · rintro ⟨us', hus', hwords⟩ ⟨hregex, hsize⟩
    obtain rfl := hleft.mpr hsize
    rw [List.append_nil] at hfront
    obtain ⟨all, closing', rfl, hnew, hspells', hclosing', -⟩ := spells_of_tokenize hus'
    rw [hbang, hfront, List.append_assoc, List.append_cancel_left_eq] at hnew
    -- What stands in front of the wide space would be read as it was.
    have hold : Spells none (vs ++ [v]) (' ' :: behind) := by
      rw [← List.singleton_append, ← List.append_assoc, spells_append_iff] at hspells
      simpa [hgap, hbehind] using hspells.1
    refine not_spells_widened hold hwide (hkind.trans hregex) hspells' hclosing' hnew.symm ?_
    rw [map_word_prependGap] at hwords
    rw [hwords, List.map_append, List.map_append, hvs, List.map_singleton, hv]
    exact ⟨(u :: us).map Token.word, by simp⟩
  · intro hregex
    have hgapped : { u with gap := left ++ ' ' :: right } = u := by rw [← hgap]
    rw [← hgapped] at hspells
    have hwidened := hspells.widen hwide fun hvRegex hnil =>
      hregex ⟨hkind ▸ hvRegex, hleft.mp hnil⟩
    have htext : front ++ w :: behind = hashBang (front ++ w :: behind) ++
        (Token.sourceOf (vs ++ v :: { u with gap := left ++ w :: right } :: us) ++ closing) := by
      rw [hbang, hfront, hbehind, sourceOf_around, List.append_assoc]
    obtain ⟨us', hus', hsame⟩ := tokenize_of_spells htext hwidened hclosing
    refine ⟨_, hus', ?_⟩
    rw [map_word_prependGap, map_word_of_sameTokens hsame, List.map_append, List.map_append, hvs,
      List.map_cons, List.map_cons, hv]
    rfl

/-- The line separator between two words is a space. -/
theorem widened_between_words :
    ∃ vs, tokenize "/a/ in\u2028b".toList = .ok vs ∧ vs.map Token.word =
      [(.regex, "/a/".toList), (.ident, "in".toList), (.ident, "b".toList)] := by
  have hts : tokenize ("/a/ in".toList ++ ' ' :: "b".toList) =
      .ok ([⟨.regex, [], "/a/".toList, ⟨0, 1⟩⟩] ++ ⟨.ident, [' '], "in".toList, ⟨4, 1⟩⟩ ::
        ⟨.ident, [' '], "b".toList, ⟨7, 1⟩⟩ :: []) := by
    decide +kernel
  exact (widened_iff hts (by decide) rfl).mpr (by decide)

/-- **Flags take a wide space.**  Behind `/a/` the no-break space and the word `in` are read as
flags. -/
theorem flags_take_wide_space :
    ¬∀ (front behind : Text) (ts : List Token) (t u : Token) (us : List Token),
      tokenize (front ++ ' ' :: behind) = .ok (ts ++ t :: u :: us) →
      t.stop ≤ front.size ∧ front.size < u.start →
      ∀ w, isWideSpace w = true → ∃ vs, tokenize (front ++ w :: behind) = .ok vs ∧
        vs.map Token.word = (ts ++ t :: u :: us).map Token.word := by
  intro hall
  obtain ⟨vs, hvs, hwords⟩ := hall "/a/".toList "in b".toList [] ⟨.regex, [], "/a/".toList, ⟨0, 1⟩⟩
    ⟨.ident, [' '], "in".toList, ⟨4, 1⟩⟩ [⟨.ident, [' '], "b".toList, ⟨7, 1⟩⟩]
    (by decide +kernel) (by decide) '\u00A0' rfl
  have htwo : (tokenize "/a/\u00A0in b".toList).toOption.map (List.map Token.word) =
      some [(.regex, "/a/\u00A0in".toList), (.ident, "b".toList)] := by
    decide +kernel
  rw [show "/a/\u00A0in b".toList = "/a/".toList ++ '\u00A0' :: "in b".toList from rfl, hvs] at htwo
  exact absurd (hwords.symm.trans (Option.some_inj.mp htwo)) (by decide)

end

end Twinfold
