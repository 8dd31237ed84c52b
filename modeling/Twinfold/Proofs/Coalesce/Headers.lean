import Twinfold.Proofs.Coalesce.Calls
import Twinfold.Proofs.Declaration.Rewriting

/-!
# Headers without the blanks at their end

The header of a function is copied without the blanks at its end, and an opening brace is put
behind it.  That is all right unless a line comment stands at the end of the header: without the
end of its line it takes in the brace and whatever follows.

* `headerCloses_iff` — the brace is read as such if and only if what is left of the gap in
  front of the body is a gap.
-/

namespace Twinfold

/-! ### Gaps without the blanks at their end -/

/-- Blanks do not end a block comment.  A comment that begins in a header can therefore not end in
the white space behind it. -/
theorem readGap_block_ne {p q : Place} {w : Text} (hw : ∀ c ∈ w, Text.isBlank c = true)
    (opened : Place) (star : Bool) :
    readGap (some (.block opened star)) p (w ++ ['x']) ≠ .found w ['x'] q := by
  induction w generalizing p star with
  | nil =>
    intro h
    obtain ⟨taken, hnil, _⟩ := Scan.cons_eq_found_iff.mp h
    cases hnil
  | cons c w ih =>
    intro h
    have hslash : c ≠ '/' := by
      rintro rfl
      have hblank := hw '/' List.mem_cons_self
      revert hblank
      decide
    obtain ⟨taken, htaken, hinner⟩ := Scan.cons_eq_found_iff.mp h
    obtain rfl := (List.cons.inj htaken).2
    rw [Comment.read] at hinner
    simp only [hslash, decide_false, Bool.and_false, Bool.false_and, Bool.false_eq_true, if_false]
      at hinner
    exact ih (fun c hc => hw c (List.mem_cons_of_mem _ hc)) _ hinner

/-- A comment does not open with a blank. -/
theorem opened?_before_blanks {p : Place} {c : Char} {w : Text}
    (hw : ∀ c ∈ w, Text.isBlank c = true) : Comment.opened? p c (w ++ ['x']).head? = none := by
  refine opened?_eq_none_iff.mpr fun hc => ?_
  cases w with
  | nil => simp at hc
  | cons d w =>
    have hnone : ∀ d ∈ ['/', '*'], Text.isBlank d = false := by decide
    have hd : d ∈ ['/', '*'] := by simpa using hc.2
    have hblank := hw d List.mem_cons_self
    rw [hnone d hd] at hblank
    cases hblank

/-- **Trimming.**  Without the blanks at its end a gap is still one, or it takes in the brace
that is put behind it. -/
theorem readGap_trimmed {k : Option Comment} {p q : Place} {g w : Text}
    (h : readGap k p (g ++ (w ++ ['x'])) = .found (g ++ w) ['x'] q)
    (hw : ∀ c ∈ w, Text.isBlank c = true) (l : Layout) :
    (∃ q, readGap k p (g ++ (l.blank ++ ['x'])) = .found (g ++ l.blank) ['x'] q) ∨
      ∃ q, readGap k p (g ++ (l.blank ++ ['\x7b'])) = .found (g ++ (l.blank ++ ['\x7b'])) [] q := by
  induction g generalizing k p with
  | nil =>
    unfold Layout.blank
    rcases k with _ | _ | ⟨opened, star⟩
    · left
      cases l.compact <;> exact ⟨_, rfl⟩
    · right
      cases l.compact <;> exact ⟨_, rfl⟩
    · exact absurd h (readGap_block_ne hw opened star)
  | cons c g ih =>
    -- One character further, in whatever state.
    have hstep : ∀ k', (readGap k' (p.after c) (g ++ (w ++ ['x']))).cons c =
        .found (c :: (g ++ w)) ['x'] q →
        (∃ q, (readGap k' (p.after c) (g ++ (l.blank ++ ['x']))).cons c =
          .found (c :: (g ++ l.blank)) ['x'] q) ∨
        ∃ q, (readGap k' (p.after c) (g ++ (l.blank ++ ['\x7b']))).cons c =
          .found (c :: (g ++ (l.blank ++ ['\x7b']))) [] q := by
      intro k' hfound
      obtain ⟨taken, htaken, hinner⟩ := Scan.cons_eq_found_iff.mp hfound
      obtain rfl := (List.cons.inj htaken).2
      refine (ih hinner).imp ?_ ?_
      · rintro ⟨q, hq⟩
        exact ⟨q, Scan.cons_eq_found_iff.mpr ⟨_, rfl, hq⟩⟩
      · rintro ⟨q, hq⟩
        exact ⟨q, Scan.cons_eq_found_iff.mpr ⟨_, rfl, hq⟩⟩
    simp only [List.cons_append] at h ⊢
    cases k with
    | some k => exact hstep _ h
    | none =>
      rw [readGap] at h
      split at h
      · rename_i hspace
        simp only [readGap, hspace, if_true]
        exact hstep _ h
      · rename_i hspace
        split at h
        · rename_i k hopened
          cases g with
          | nil =>
            rw [List.nil_append, opened?_before_blanks hw] at hopened
            cases hopened
          | cons d g =>
            have hopened : Comment.opened? p c (some d) = some k := hopened
            simp only [readGap, hspace, List.cons_append, List.head?_cons, hopened]
            exact hstep _ h
        · cases h

/-- What trimming leaves, and what it takes away. -/
theorem exists_blanks_of_trimEnd (t : Text) :
    ∃ w, t = t.trimEnd ++ w ∧ ∀ c ∈ w, Text.isBlank c = true := by
  refine ⟨(t.reverse.takeWhile Text.isBlank).reverse, ?_, ?_⟩
  · rw [Text.trimEnd, ← List.reverse_append, List.takeWhile_append_dropWhile, List.reverse_reverse]
  · intro c hc
    exact List.mem_takeWhile_imp (List.mem_reverse.mp hc)

/-- Trimming the end stops at a character that is not blank. -/
theorem trimEnd_append {front : Text} {c : Char} (hc : Text.isBlank c = false) (t : Text) :
    Text.trimEnd (front ++ c :: t) = front ++ c :: Text.trimEnd t := by
  unfold Text.trimEnd
  rw [List.reverse_append, List.reverse_cons, List.append_assoc, List.dropWhile_append]
  split
  · rename_i hnone
    rw [List.isEmpty_iff.mp hnone]
    simp [hc]
  · simp

/-- What is left of the gap in front of a body, with the blank that the layout adds, is a gap
again, unless it ends in a line comment: then it goes on to the end of the line and the brace is a
part of it. -/
theorem isGap_trimmed {gap : Text} (h : IsGap gap) (l : Layout) :
    IsGap (gap.trimEnd ++ l.blank) ∨ IsClosing (gap.trimEnd ++ (l.blank ++ ['\x7b'])) := by
  obtain ⟨w, hgap, hw⟩ := exists_blanks_of_trimEnd gap
  obtain ⟨q, hread⟩ := h
  generalize gap.trimEnd = g at hgap ⊢
  rw [hgap, List.append_assoc] at hread
  refine (readGap_trimmed hread hw l).imp ?_ id
  rintro ⟨q, hq⟩
  exact ⟨q, by rw [List.append_assoc]; exact hq⟩

/-! ### Headers -/

/-- The tokens in front of the body, from the word `function` on. -/
def Parts.head (p : Parts) : List Token := { p.keyword with gap := [] } :: p.signature

section

variable {p : Parts}

theorem Parts.header_eq (h : p.async = none) (normalize : Bool) (index : Nat) (scope : Option Nat) :
    (p.read normalize index scope).header = Token.sourceOf p.head ++ p.brace.gap := by
  simp [read, head, first, h]

end

/-! ### Closing headers -/

/-- The brace that is put behind the trimmed header is read as such. -/
def HeaderCloses (l : Layout) (d : Declaration) : Prop :=
  ∃ ts t, tokenize (d.header.trimEnd ++ (l.blank ++ ['\x7b'])) = .ok (ts ++ [t]) ∧
    t.punctIs "\x7b" = true

section

variable {p : Parts} {afterDefault : Bool}

/-- A text that begins with a header has no first line of its own. -/
theorem hashBang_head (hfunction : p.keyword.identIs "function" = true) (t : Text) :
    hashBang (Token.sourceOf p.head ++ t) = [] := by
  obtain ⟨body, htext⟩ := exists_text_of_function hfunction
  refine hashBang_of_head? ?_
  simp [Parts.head, htext]

/-- The tokens of a header are read in front of everything. -/
theorem Parts.WellFormed.spells_head (h : p.WellFormed afterDefault)
    (halone : Spells none p.alone []) (tail : Text) : Spells none p.head tail := by
  rw [Parts.alone, ← List.cons_append, Parts.signature, ← List.cons_append, spells_append_iff]
    at halone
  rw [Parts.head, Parts.signature, ← List.cons_append]
  exact halone.1.before_all h.parenClose (by decide) tail

/-- A header with a gap and a brace behind it holds its tokens and the brace.  So the brace is read
if nothing but a gap is put between it and the header. -/
theorem Parts.WellFormed.tokenize_head (h : p.WellFormed afterDefault)
    (halone : Spells none p.alone []) (hfunction : p.keyword.identIs "function" = true)
    {gap : Text} (hgap : IsGap gap) :
    ∃ ts t, tokenize (Token.sourceOf p.head ++ (gap ++ ['\x7b'])) = .ok (ts ++ [t]) ∧
      t.punctIs "\x7b" = true := by
  have hwhole : Spells none (p.head ++ [.written .punct gap ['\x7b']]) [] :=
    spells_append_iff.mpr ⟨h.spells_head halone _, hgap, reads_delimiter (by decide) _ _, trivial⟩
  have hsource : Token.sourceOf p.head ++ (gap ++ ['\x7b']) =
      hashBang (Token.sourceOf p.head ++ (gap ++ ['\x7b'])) ++
        (Token.sourceOf (p.head ++ [.written .punct gap ['\x7b']]) ++ []) := by
    rw [hashBang_head hfunction]
    simp [Token.written]
  obtain ⟨us, hus, hsame⟩ := tokenize_of_spells hsource hwhole isClosing_nil
  rw [hashBang_head hfunction, prependGap_nil] at hus
  rw [SameTokens, List.map_append, List.map_eq_append_iff] at hsame
  obtain ⟨ts, _, rfl, _, hlast⟩ := hsame
  obtain ⟨t, rfl, hbare⟩ := List.map_eq_singleton_iff.mp hlast
  exact ⟨ts, t, hus, (punctIs_congr (word_eq_of_bare hbare) _).trans (punctIs_iff.mpr rfl)⟩

/-- The header without the blanks at its end. -/
theorem Parts.WellFormed.trimEnd_header (h : p.WellFormed afterDefault) (hasync : p.async = none)
    (normalize : Bool) (index : Nat) (scope : Option Nat) :
    (p.read normalize index scope).header.trimEnd =
      Token.sourceOf p.head ++ p.brace.gap.trimEnd := by
  have hsplit : ∃ front, Token.sourceOf p.head = front ++ [')'] := by
    refine ⟨Token.sourceOf ({ p.keyword with gap := [] } ::
      (p.star.toList ++ p.ident.toList ++ (p.paren :: p.params))) ++ p.parenClose.gap, ?_⟩
    rw [Parts.head, Parts.signature, ← List.cons_append, sourceOf_append]
    simp [text_of_punctIs h.parenClose]
  obtain ⟨front, hfront⟩ := hsplit
  rw [Parts.header_eq hasync, hfront, List.append_assoc, List.append_assoc]
  exact trimEnd_append (by decide) p.brace.gap

/-- **Closing headers.**  The brace is read as such if and only if what trimming leaves in front
of it is a gap. -/
theorem Parts.WellFormed.headerCloses_iff (h : p.WellFormed afterDefault)
    (halone : Spells none p.alone []) (hfunction : p.keyword.identIs "function" = true)
    (hasync : p.async = none) (l : Layout) (normalize : Bool) (index : Nat) (scope : Option Nat) :
    HeaderCloses l (p.read normalize index scope) ↔ IsGap (p.brace.gap.trimEnd ++ l.blank) := by
  have hgap : IsGap p.brace.gap := halone.isGap _ (by simp [Parts.alone, Parts.block])
  unfold HeaderCloses
  rw [h.trimEnd_header hasync, List.append_assoc]
  constructor
  · rintro ⟨ts, t, hts, ht⟩
    refine (isGap_trimmed hgap l).resolve_right fun hclosing => ?_
    -- Then the last token of the text is the parenthesis in front of the gap.
    have hsource : Token.sourceOf p.head ++ (p.brace.gap.trimEnd ++ (l.blank ++ ['\x7b'])) =
        hashBang (Token.sourceOf p.head ++ (p.brace.gap.trimEnd ++ (l.blank ++ ['\x7b']))) ++
          (Token.sourceOf p.head ++ (p.brace.gap.trimEnd ++ (l.blank ++ ['\x7b']))) := by
      rw [hashBang_head hfunction, List.nil_append]
    obtain ⟨us, hus, hsame⟩ := tokenize_of_spells hsource (h.spells_head halone _) hclosing
    rw [hashBang_head hfunction, prependGap_nil, hts] at hus
    obtain rfl := Except.ok.inj hus
    rw [Parts.head, Parts.signature, ← List.cons_append, SameTokens, List.map_append,
      List.map_append] at hsame
    have hlast := (List.append_inj' hsame rfl).2
    have hword := word_eq_of_bare (List.singleton_inj.mp hlast)
    rw [punctIs_congr hword, punctIs_eq_false h.parenClose (by decide)] at ht
    cases ht
  · intro htrim
    rw [← List.append_assoc p.brace.gap.trimEnd]
    exact h.tokenize_head halone hfunction htrim

end

/-! ### Adapters -/

/-- The parts of an adapter. -/
def Parts.calling (p : Parts) (l : Layout) (target : Text) (args : List Token) : Parts :=
  { p with
    brace := .written .punct (p.brace.gap.trimEnd ++ l.blank) ['\x7b']
    inner := l.callFront target ++ args ++ l.callEnd
    braceClose := l.callClose }

/-- What is expected of the adapter of a function. -/
def Layout.adapted (l : Layout) (d : Declaration) (target : Text) (arguments : List Text) :
    Expected :=
  ⟨d.name, d.params, d.header.trimEnd ++ l.blank, l.callBody target arguments,
    some [l.call target arguments]⟩

section

variable {p : Parts} {afterDefault : Bool} {l : Layout} {target : Text} {arguments : List Text}
  {args : List Token}

/-- The body of an adapter from its brace on. -/
theorem Parts.sourceOf_block_calling (hargs : SpellArguments l arguments args) (p : Parts)
    (target : Text) : Token.sourceOf (p.calling l target args).block =
      p.brace.gap.trimEnd ++ (l.blank ++ l.callBody target arguments) := by
  rw [← hargs.callBody_eq target]
  simp [Parts.block, Parts.calling, Token.written]

/-- **Adapters stand where the functions stood**, if their headers close.  The parts of the header
are kept, and a block with a call takes the place of the body. -/
theorem Parts.Found.replaces_calling (h : p.Found) (halone : Spells none p.alone [])
    (hgap : IsGap (p.brace.gap.trimEnd ++ l.blank)) (hargs : SpellArguments l arguments args)
    (htarget : IsName target) : p.Replaces (p.calling l target args) := by
  obtain ⟨afterDefault, hwell⟩ := h.wellFormed
  have hbrace : (Token.written .punct (p.brace.gap.trimEnd ++ l.blank) ['\x7b']).punctIs "\x7b" =
      true := punctIs_iff.mpr rfl
  refine ⟨rfl, rfl, rfl, h.function, hwell.braceClose, fun _ hwell => ?_, punctIs_iff.mpr rfl, ?_⟩
  · exact ⟨hwell.star, hwell.ident, hwell.named, hwell.paren, hwell.params, hbrace,
      hargs.enclose_call target hbrace⟩
  · have hhead := hwell.spells_head halone (Token.sourceOf (p.calling l target args).block ++ [])
    have hblock : Spells (lastToken none p.head) (p.calling l target args).block [] :=
      ⟨hgap, reads_delimiter (by decide) _ _, hargs.spells_call htarget _ _⟩
    exact spells_append_iff.mpr ⟨hhead, hblock⟩

/-- **Adapters are read** as a call with the header of the function.  The body has one line, which
is the call. -/
theorem Parts.WellFormed.is_adapted (h : p.WellFormed afterDefault) (hasync : p.async = none)
    (hargs : SpellArguments l arguments args) (target : Text) (normalize : Bool) (index index' : Nat)
    (scope scope' : Option Nat) :
    (l.adapted (p.read normalize index scope) target arguments).Is
      ((p.calling l target args).read true index' scope') := by
  refine ⟨rfl, rfl, ?_, ?_, ?_⟩
  · rw [Parts.header_eq (p := p.calling l target args) hasync, Layout.adapted,
      h.trimEnd_header hasync, List.append_assoc]
    rfl
  · rw [Layout.adapted, ← hargs.callBody_eq target]
    rfl
  · rintro texts ⟨⟩
    exact hargs.lines_call target _ l.callClose.gap

/-- **Headers of adapters close.**  If an adapter is read with the header that it was given, the
brace behind that header was read as such. -/
theorem Parts.Found.headerCloses_of_is {q : Parts} (h : q.Found) (halone : Spells none q.alone [])
    (hwell : p.WellFormed afterDefault) (hfunction : p.keyword.identIs "function" = true)
    (hasync : p.async = none) {normalize normalize' : Bool} {index index' : Nat}
    {scope scope' : Option Nat}
    (his : (l.adapted (p.read normalize index scope) target arguments).Is
      (q.read normalize' index' scope')) : HeaderCloses l (p.read normalize index scope) := by
  obtain ⟨afterDefault', hwell'⟩ := h.wellFormed
  have hheader : (q.read normalize' index' scope').header =
      (p.read normalize index scope).header.trimEnd ++ l.blank := his.header
  have hasync' : q.async = none := by
    obtain ⟨body, htext⟩ := exists_text_of_function hfunction
    have hbegin := hheader
    rw [hwell.trimEnd_header hasync, Parts.head, sourceOf_cons, htext] at hbegin
    exact h.async_eq_none hbegin
  rw [Parts.header_eq hasync'] at hheader
  have hgap : IsGap q.brace.gap := halone.isGap _ (by simp [Parts.alone, Parts.block])
  unfold HeaderCloses
  rw [← List.append_assoc, ← hheader, List.append_assoc]
  exact hwell'.tokenize_head halone h.function hgap

end

end Twinfold
