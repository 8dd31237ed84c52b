import Twinfold.Proofs.Text.Splice
import Twinfold.Proofs.Token.Tiling

/-!
# Line numbers

The line of a place is one more than the number of line ends in front of it, as long as every
scanner counts the line ends it passes over.  All of them do but for one case: behind a backslash
in a template or a regular expression a line end is taken uncounted.  Such a line end is
**hidden**, and every place behind it is said to stand on a line too early.

* `Crosses` — what lies between two places of a text, and the hidden line ends in it;
* `Reaches` — a scan that gives up says a place it has been at, or one it was told before;
* `line_of_lex` — the line of every token and of every lexical error is right but for the hidden
  line ends in front of it;
* `template_hides_line` — a template with an escaped line end, and the word behind it.

The count of lines stops at `Place.lastLine`, so a text must not have more of them (`Room`).
-/

namespace Twinfold

/-! ### Hidden line ends -/

/-- Whether the last character was a backslash in a template or in a regular expression. -/
def Frame.escapes : Frame → Bool
  | .template escaped _ => escaped
  | .regex escaped _ _ => escaped
  | _ => false

/-- The offsets of the line ends that are taken uncounted while frames are read. -/
def hiddenIn : List Frame → Place → Text → List Nat
  | [], _, _ => []
  | _ :: _, _, [] => []
  | frame :: outer, p, c :: rest =>
    match frame.read p c rest.head? with
    | .error _ => []
    | .ok frames =>
      (if frame.escapes && c = '\n' then [p.offset] else []) ++
        hiddenIn (frames ++ outer) (frame.advance p c) rest

@[simp] theorem hiddenIn_nil (p : Place) (t : Text) : hiddenIn [] p t = [] := by
  cases t <;> rfl

/-- The frames in which a token at a place is read behind its first character. -/
def TokenKind.frames (p : Place) (c : Char) : TokenKind → List Frame
  | .string => [.quoted c false p]
  | .template => [.template false p]
  | .regex => [.regex false false p]
  | .ident | .number | .punct => []

namespace Lexer

/-- The hidden line ends of the next token, whether or not it can be read to its end. -/
def hiddenNext (l : Lexer) : List Nat :=
  match readGap none l.place l.rest with
  | .found _ (c :: rest) place =>
    hiddenIn ((scanToken l.previous place c rest).1.frames place c) (place.past c) rest
  | _ => []

/-- The hidden line ends of all tokens that are left. -/
def hidden (l : Lexer) : List Nat :=
  match _h : l.next with
  | .token _ after => l.hiddenNext ++ after.hidden
  | .finished _ | .failed _ _ => l.hiddenNext
termination_by l.rest.length
decreasing_by exact rest_lt_of_next (by assumption)

end Lexer

/-- How many hidden line ends stand in front of an offset. -/
def hiddenBefore (source : Text) (offset : Nat) : Nat :=
  (Lexer.start source).hidden.countP (· < offset)

/-- How many line ends stand in front of an offset, counted in bytes. -/
def breaksBefore (source : Text) (offset : Nat) : Nat := (source.utf8.take offset).count 10

/-! ### From one place to another -/

/-- Whether the lines of a text can be counted from a place on. -/
def Room (p : Place) (t : Text) : Prop := p.line + t.count '\n' ≤ Place.lastLine

/-- Between two places lies the text `front`, with the line ends at the offsets `hidden` left
uncounted. -/
structure Crosses (p : Place) (front : Text) (hidden : List Nat) (q : Place) : Prop where
  offset : q.offset = p.offset + front.size
  line : q.line + hidden.length = p.line + front.count '\n'
  within : ∀ h ∈ hidden, p.offset ≤ h ∧ h < q.offset

namespace Crosses

variable {p q r : Place} {front front' rest : Text} {hidden hidden' : List Nat}

theorem refl (p : Place) : Crosses p [] [] p := ⟨rfl, rfl, by simp⟩

/-- Two texts that are crossed one after the other: the hidden line ends are those of the one and
those of the other, and only the others are counted. -/
theorem trans (h : Crosses p front hidden q) (h' : Crosses q front' hidden' r) :
    Crosses p (front ++ front') (hidden ++ hidden') r where
  offset := by
    rw [h'.offset, h.offset, Text.size_append]
    omega
  line := by
    have := h.line
    have := h'.line
    rw [List.length_append, List.count_append]
    omega
  within := by
    have := h.offset
    have := h'.offset
    intro n hn
    rcases List.mem_append.mp hn with hn | hn
    · have := h.within n hn
      omega
    · have := h'.within n hn
      omega

/-- Behind what was crossed there is room for the lines of the rest. -/
theorem room (h : Crosses p front hidden q) (hroom : Room p (front ++ rest)) : Room q rest := by
  have := h.line
  unfold Room at hroom ⊢
  rw [List.count_append] at hroom
  omega

/-- Text without a line end. -/
theorem pastText (h : '\n' ∉ front) : Crosses p front [] (p.pastText front) where
  offset := rfl
  line := by
    rw [List.count_eq_zero.mpr h]
    rfl
  within := by simp

theorem past {c : Char} (h : c ≠ '\n') : Crosses p [c] [] (p.past c) := by
  have hplain : '\n' ∉ [c] := by simpa using h.symm
  exact pastText hplain

/-- One character that is read as it is: its line end is counted. -/
theorem after {c : Char} (hroom : Room p (c :: rest)) : Crosses p [c] [] (p.after c) where
  offset := rfl
  line := by
    unfold Room at hroom
    by_cases hc : c = '\n'
    · subst hc
      rw [List.count_cons_self] at hroom
      have : min (p.line + 1) Place.lastLine = p.line + 1 := by omega
      simp [Place.after, this]
    · simp [Place.after, hc]
  within := by simp

/-- One character of a literal. -/
theorem advance {f : Frame} {c : Char} (hroom : Room p (c :: rest)) :
    Crosses p [c] (if f.escapes && c = '\n' then [p.offset] else []) (f.advance p c) := by
  have hplace : f.advance p c = if f.escapes then p.past c else p.after c := by
    rcases f with ⟨_, _, _⟩ | ⟨_ | _, _⟩ | ⟨_, _, _⟩ | ⟨_ | _, _, _⟩ <;> rfl
  rw [hplace]
  cases hescapes : f.escapes with
  | false => exact after hroom
  | true =>
    rw [if_pos rfl]
    by_cases hc : c = '\n'
    · subst hc
      exact ⟨rfl, rfl, by simp [Char.utf8Size_pos]⟩
    · simpa [hc] using past hc

end Crosses

/-! ### Where hidden line ends stand -/

/-- Behind the character `last` only the innermost frame can be in the middle of an escape. -/
def Settled (last : Char) : List Frame → Prop
  | [] => True
  | f :: outer => (f.escapes → last = '\\') ∧ ∀ g ∈ outer, g.escapes = false

/-- Frames that do not wait behind a backslash may lie outside settled ones. -/
theorem Settled.append {last : Char} {frames outer : List Frame} (h : Settled last frames)
    (houter : ∀ f ∈ outer, f.escapes = false) : Settled last (frames ++ outer) := by
  rcases frames with _ | ⟨f, frames⟩
  · rcases outer with _ | ⟨g, outer⟩
    · trivial
    · rw [List.forall_mem_cons] at houter
      exact ⟨by simp [houter.1], houter.2⟩
  · exact ⟨h.1, List.forall_mem_append.mpr ⟨h.2, houter⟩⟩

/-- Only the innermost frame can wait behind a backslash, and only if that was the character read.
-/
theorem settled_of_read {f : Frame} {p : Place} {c : Char} {next : Option Char}
    {frames : List Frame} (h : f.read p c next = .ok frames) : Settled c frames := by
  rcases f with ⟨_, _ | _, _⟩ | ⟨_ | _, _⟩ | ⟨depth, _ | _, _⟩ | ⟨_ | _, _, _⟩ <;>
    simp only [Frame.read] at h
  case code.none =>
    cases h
    unfold Frame.readCode
    split
    · simp [Settled, Frame.escapes]
    · split_ifs <;> simp [Settled, Frame.escapes]
  all_goals (try split_ifs at h) <;> cases h <;> simp_all [Settled, Frame.escapes]

/-- A hidden line end stands behind a backslash.  The backslash may be the character in front of
the text. -/
theorem exists_backslash_of_mem_hiddenIn {fs : List Frame} {p : Place} {last : Char} {t : Text}
    (hfs : Settled last fs) : ∀ h ∈ hiddenIn fs p t,
      ∃ front behind, last :: t = front ++ '\\' :: '\n' :: behind ∧
        h + last.utf8Size = p.offset + Text.size (front ++ ['\\']) := by
  induction t generalizing fs p last with
  | nil => cases fs <;> simp [hiddenIn]
  | cons c t ih =>
    rcases fs with _ | ⟨f, outer⟩
    · simp [hiddenIn]
    simp only [hiddenIn]
    split
    · simp
    · rename_i frames hread
      intro h hh
      rcases List.mem_append.mp hh with hh | hh
      · obtain ⟨⟨hescapes, rfl⟩, rfl⟩ : (f.escapes = true ∧ c = '\n') ∧ h = p.offset := by
          split at hh <;> simp_all
        obtain rfl := hfs.1 hescapes
        exact ⟨[], t, rfl, by simp⟩
      · obtain ⟨front, behind, htext, hoffset⟩ := ih ((settled_of_read hread).append hfs.2) h hh
        refine ⟨last :: front, behind, by rw [htext]; rfl, ?_⟩
        rw [Frame.offset_advance] at hoffset
        rw [List.cons_append, Text.size_cons]
        omega

/-- A hidden line end stands behind every front of the text without a line end.  It is itself a
line end, so it is in no such front. -/
theorem le_of_mem_hiddenIn {fs : List Frame} {p : Place} {last : Char} {plain t : Text}
    (hfs : Settled last fs) (hplain : '\n' ∉ plain) :
    ∀ h ∈ hiddenIn fs p (plain ++ t), (p.pastText plain).offset ≤ h := by
  intro h hh
  obtain ⟨front, behind, htext, hoffset⟩ := exists_backslash_of_mem_hiddenIn hfs h hh
  have hsplit : (last :: plain) ++ t = (front ++ ['\\']) ++ '\n' :: behind := by simpa using htext
  rcases List.append_eq_append_iff.mp hsplit with ⟨more, hmore, -⟩ | ⟨more, hmore, htail⟩
  · rw [hmore, List.cons_append, Text.size_cons, Text.size_append] at hoffset
    rw [Place.offset_pastText]
    omega
  · rcases more with _ | ⟨c, more⟩
    · rw [List.append_nil] at hmore
      rw [← hmore, Text.size_cons] at hoffset
      rw [Place.offset_pastText]
      omega
    · obtain ⟨rfl, -⟩ := List.cons.inj htail
      -- The line end would stand in `plain`, since a backslash stands in front of it.
      have hmem : '\n' ∈ (last :: plain).tail := by
        rw [hmore]
        cases front <;> simp
      exact absurd hmem hplain

/-! ### Scans that give up -/

/-- From a place in front of a text a scan has come to another one, with the hidden line ends of
the whole text on both sides of it. -/
def Reaches (p : Place) (t : Text) (hidden : List Nat) (x : Place) : Prop :=
  ∃ front behind before after, t = front ++ behind ∧ hidden = before ++ after ∧
    Crosses p front before x ∧ ∀ h ∈ after, x.offset ≤ h

section

variable {p q x : Place} {front t taken rest : Text} {hidden hidden' : List Nat} {e : ParseError}
  {n : Nat}

/-- A place that is reached from where a text ends is reached through the text. -/
theorem Crosses.reaches (h : Crosses p front hidden q) (h' : Reaches q t hidden' x) :
    Reaches p (front ++ t) (hidden ++ hidden') x := by
  obtain ⟨front', behind, before, after, rfl, rfl, hcrosses, hafter⟩ := h'
  exact ⟨front ++ front', behind, hidden ++ before, after, (List.append_assoc ..).symm,
    (List.append_assoc ..).symm, h.trans hcrosses, hafter⟩

/-- A place behind which the hidden line ends stand. -/
theorem Crosses.reaches_end (h : Crosses p front [] x) (hidden_le : ∀ h ∈ hidden, x.offset ≤ h) :
    Reaches p (front ++ t) hidden x :=
  ⟨front, t, [], hidden, rfl, rfl, h, hidden_le⟩

/-- The place where a comment was opened that must be closed. -/
def Comment.places : Option Comment → List Place
  | some (.block opened _) => [opened]
  | _ => []

/-- The places that a frame names when the text ends in it. -/
def Frame.places : Frame → List Place
  | .quoted _ _ opened | .template _ opened | .regex _ _ opened => [opened]
  | .code _ comment opened => opened :: Comment.places comment

/-- One character of a gap, if it is not the first one of a token. -/
theorem readGap_cons (k : Option Comment) (p : Place) (c : Char) (t : Text) :
    (∃ l, readGap k p (c :: t) = (readGap l (p.after c) t).cons c ∧
        ∀ x ∈ Comment.places l, x ∈ Comment.places k ∨ x = p) ∨
      readGap k p (c :: t) = .found [] (c :: t) p := by
  rcases k with _ | k
  · by_cases hspace : isGapSpace c
    · exact .inl ⟨none, by simp [readGap, hspace], by simp [Comment.places]⟩
    · cases hopened : Comment.opened? p c t.head? with
      | none => exact .inr (by simp [readGap, hspace, hopened])
      | some l =>
        refine .inl ⟨some l, by simp [readGap, hspace, hopened], ?_⟩
        rcases (opened?_eq_some_iff.mp hopened).2 with ⟨-, rfl⟩ | ⟨-, rfl⟩ <;> simp [Comment.places]
  · refine .inl ⟨k.read p c, rfl, ?_⟩
    cases k <;> simp only [Comment.read] <;> split <;> simp [Comment.places]

/-- In gaps every line end is counted, in comments too.  None of them is hidden, since a backslash
means nothing in a gap. -/
theorem crosses_of_readGap {k : Option Comment} (hroom : Room p t)
    (h : readGap k p t = .found taken rest q) : Crosses p taken [] q := by
  induction t generalizing k p taken with
  | nil =>
    obtain ⟨rfl, rfl⟩ : [] = taken ∧ p = q := by
      rcases k with _ | _ | _ <;> simp_all [readGap, Comment.atEnd]
    exact .refl _
  | cons c t ih =>
    have hafter : Crosses p [c] [] (p.after c) := .after hroom
    rcases readGap_cons k p c t with ⟨l, hstep, -⟩ | hfound
    · rw [hstep] at h
      obtain ⟨taken, rfl, hinner⟩ := Scan.cons_eq_found_iff.mp h
      exact hafter.trans (ih (hafter.room hroom) hinner)
    · rw [hfound] at h
      cases h
      exact .refl _

/-- **A gap that is not closed** is given up on at the place where its comment was opened.  That
place is in the gap itself, or is one that the scan began with. -/
theorem reaches_of_readGap {k : Option Comment} (hroom : Room p t)
    (h : readGap k p t = .failed e n) : e.place ∈ Comment.places k ∨ Reaches p t [] e.place := by
  induction t generalizing k p with
  | nil =>
    left
    rcases k with _ | _ | _ <;> simp [readGap, Comment.atEnd] at h
    simp [Comment.places, ← h.1]
  | cons c t ih =>
    have hafter : Crosses p [c] [] (p.after c) := .after hroom
    rcases readGap_cons k p c t with ⟨l, hstep, hplaces⟩ | hfound
    · rw [hstep, Scan.cons_eq_failed_iff] at h
      rcases ih (hafter.room hroom) h with hplace | hreaches
      · rcases hplaces _ hplace with hplace | hplace
        · exact .inl hplace
        · rw [hplace]
          exact .inr ((Crosses.refl p).reaches_end (by simp))
      · exact .inr (hafter.reaches hreaches)
    · rw [hfound] at h
      cases h

/-! ### Literals -/

/-- Behind a literal all line ends are counted but for the hidden ones, those that a backslash
takes with it in a template or a regular expression.  The induction is along the characters, over
all open frames at once. -/
theorem crosses_of_scanFrames {fs : List Frame} (hroom : Room p t)
    (h : scanFrames fs p t = .found taken rest q) : Crosses p taken (hiddenIn fs p t) q := by
  induction t generalizing fs p taken with
  | nil =>
    rcases fs with _ | ⟨f, outer⟩
    · cases h
      exact .refl _
    · exact absurd h Frame.atEnd_ne_found
  | cons c t ih =>
    rcases fs with _ | ⟨f, outer⟩
    · cases h
      exact .refl _
    simp only [scanFrames] at h
    split at h
    · cases h
    · rename_i frames hread
      obtain ⟨taken, rfl, hinner⟩ := Scan.cons_eq_found_iff.mp h
      have hadvance := Crosses.advance (f := f) hroom
      simp only [hiddenIn, hread]
      exact hadvance.trans (ih (hadvance.room hroom) hinner)

/-- The place behind the mark that opens a substitution. -/
theorem past_substitution (p : Place) : (p.past '$').past '\x7b' = p.pastText ['$', '\x7b'] := by
  simp [Place.past, Place.pastText, Nat.add_assoc]

/-- The places that the frames name behind a character.  They are the places where something was
opened: before, at the character, or behind a substitution's opening. -/
theorem places_of_read {f : Frame} {c : Char} {next : Option Char} {frames : List Frame}
    (h : f.read p c next = .ok frames) :
    ∀ x ∈ frames.flatMap Frame.places, x ∈ f.places ∨ x = p ∨
      (x = p.pastText ['$', '\x7b'] ∧ c = '$' ∧ next = some '\x7b') := by
  rcases f with ⟨_, _ | _, _⟩ | ⟨_ | _, _⟩ | ⟨depth, _ | k, _⟩ | ⟨_ | _, _, _⟩ <;>
    simp only [Frame.read] at h
  case code.none =>
    cases h
    unfold Frame.readCode
    split
    · rename_i k hopened
      rcases (opened?_eq_some_iff.mp hopened).2 with ⟨-, rfl⟩ | ⟨-, rfl⟩ <;>
        simp [Frame.places, Comment.places]
    · split_ifs <;> simp [Frame.places, Comment.places]
  case code.some =>
    cases h
    cases k <;> simp only [Comment.read] <;> split <;> simp [Frame.places, Comment.places]
  all_goals (try split_ifs at h) <;> cases h <;> simp_all [Frame.places, Comment.places, past_substitution]

/-- A frame that fails blames the place where it was opened, -/
theorem place_of_read {f : Frame} {c : Char} {next : Option Char}
    (h : f.read p c next = .error e) : e.place ∈ f.places := by
  rcases f with ⟨_, _ | _, _⟩ | ⟨_ | _, _⟩ | ⟨depth, _ | k, _⟩ | ⟨_ | _, _, _⟩ <;>
    simp only [Frame.read] at h <;> (try split_ifs at h) <;> cases h <;> simp [Frame.places]

/-- also at the end of the text. -/
theorem place_of_atEnd {f : Frame} (h : f.atEnd p = .failed e n) : e.place ∈ f.places := by
  unfold Frame.atEnd at h
  split at h <;> simp only [Comment.atEnd, Scan.failed.injEq] at h <;>
    simp [Frame.places, Comment.places, ← h.1]

/-- **A literal that is not closed** is given up on at a place where one of its frames was opened.
Frames that were open before the scan were opened at places of their own; the others were opened on
the way, at places that the scan has come to. -/
theorem reaches_of_scanFrames {fs : List Frame} {last : Char} (hroom : Room p t)
    (hfs : Settled last fs) (h : scanFrames fs p t = .failed e n) :
    e.place ∈ fs.flatMap Frame.places ∨ Reaches p t (hiddenIn fs p t) e.place := by
  induction t generalizing fs p last with
  | nil =>
    rcases fs with _ | ⟨f, outer⟩
    · cases h
    · exact .inl (by simp [place_of_atEnd h])
  | cons c t ih =>
    rcases fs with _ | ⟨f, outer⟩
    · cases h
    have hbehind : ∀ plain t', '\n' ∉ plain →
        ∀ h ∈ hiddenIn (f :: outer) p (plain ++ t'), (p.pastText plain).offset ≤ h :=
      fun plain t' => le_of_mem_hiddenIn hfs
    simp only [scanFrames] at h
    split at h
    · rename_i hread
      cases h
      exact .inl (by simp [place_of_read hread])
    · rename_i frames hread
      rw [Scan.cons_eq_failed_iff] at h
      have hadvance := Crosses.advance (f := f) hroom
      rcases ih (hadvance.room hroom) ((settled_of_read hread).append hfs.2) h with hplace | hreaches
      · rw [List.flatMap_append, List.mem_append] at hplace
        rcases hplace with hplace | hplace
        · rcases places_of_read hread _ hplace with hplace | hplace | ⟨hplace, rfl, hnext⟩
          · exact .inl (by simp [hplace])
          · rw [hplace]
            exact .inr ((Crosses.refl p).reaches_end (hbehind [] _ (by simp)))
          · obtain ⟨t, rfl⟩ : ∃ t', t = '\x7b' :: t' := by
              cases t <;> simp_all
            rw [hplace]
            exact .inr ((Crosses.pastText (by decide)).reaches_end (hbehind ['$', '\x7b'] t (by decide)))
        · exact .inl (by simp [hplace])
      · right
        simp only [hiddenIn, hread]
        exact hadvance.reaches hreaches

/-! ### Tokens -/

/-- A number goes over no line end. -/
theorem lineEnd_not_mem_number (hex : Bool) (last : Char) (t : Text) :
    '\n' ∉ t.take (numberLength hex last t) := by
  induction t generalizing last with
  | nil => simp
  | cons c t ih =>
    rw [numberLength_cons]
    split
    · rename_i hc
      have hne : '\n' ≠ c := by
        rintro rfl
        simp [continuesNumber] at hc
      simpa [hne] using ih c
    · simp

theorem lineEnd_not_mem_flags (t : Text) : '\n' ∉ t.takeWhile continuesIdent :=
  fun h => absurd (List.mem_takeWhile_imp h) (by decide)

theorem lineEnd_not_mem_ident (t : Text) : '\n' ∉ t.take (identLength t) := by
  rw [identLength, ← List.prefix_iff_eq_take.mp (List.takeWhile_prefix _)]
  exact fun h => absurd (List.mem_takeWhile_imp h) (by decide)

/-- A punctuator goes over no line end.  None of the long ones has a line end, and a short one is
the character itself. -/
theorem lineEnd_not_mem_punct (c : Char) (t : Text) :
    '\n' ∉ t.take (punctLength (c :: t) - 1) := by
  unfold punctLength
  split
  · rename_i s hs
    have hprefix := List.find?_some hs
    have hnone : '\n' ∉ s.toList :=
      inNoPunct_of_separator '\n' (by decide) s (List.mem_of_find?_eq_some hs)
    have htake : s.toList = (c :: t).take s.length := by
      rw [List.isPrefixOf_iff_prefix] at hprefix
      exact List.prefix_iff_eq_take.mp hprefix
    rw [htake] at hnone
    cases hlength : s.length with
    | zero => simp
    | succ m => exact fun hmem => hnone (hlength ▸ List.mem_cons_of_mem c hmem)
  · simp

theorem settled_frames (kind : TokenKind) (p : Place) (c : Char) : Settled c (kind.frames p c) := by
  cases kind <;> simp [TokenKind.frames, Settled, Frame.escapes]

/-- A token that is read to its end.  Strings, templates and regular expressions are scanned
through their frames, and the other kinds have no line end in them. -/
theorem crosses_of_scanOf {kind : TokenKind} {c : Char} {text : Text} (hc : c ≠ '\n')
    (hroom : Room p (c :: rest)) (h : scanOf kind p c rest = .found text t q) :
    Crosses p text (hiddenIn (kind.frames p c) (p.past c) rest) q := by
  have hpast := Crosses.past (p := p) hc
  have hroom' : Room (p.past c) rest := hpast.room hroom
  have htake : ∀ {m : Nat}, '\n' ∉ rest.take m →
      (takeChars m (p.past c) rest).cons c = .found text t q → Crosses p text [] q := by
    intro m hplain hfound
    obtain ⟨body, rfl, hinner⟩ := Scan.cons_eq_found_iff.mp hfound
    cases hinner
    exact hpast.trans (.pastText hplain)
  have hframes : ∀ {fs : List Frame} {text t : Text} {q : Place},
      (scanFrames fs (p.past c) rest).cons c = .found text t q →
      Crosses p text (hiddenIn fs (p.past c) rest) q := by
    intro fs text t q hfound
    obtain ⟨body, rfl, hinner⟩ := Scan.cons_eq_found_iff.mp hfound
    exact hpast.trans (crosses_of_scanFrames hroom' hinner)
  cases kind with
  | string => exact hframes h
  | template => exact hframes h
  | number => simpa [TokenKind.frames] using htake (lineEnd_not_mem_number _ _ _) h
  | ident => simpa [TokenKind.frames] using htake (lineEnd_not_mem_ident _) h
  | punct => simpa [TokenKind.frames] using htake (lineEnd_not_mem_punct c _) h
  | regex =>
    unfold scanOf at h
    dsimp only at h
    rcases hscan : (scanFrames [.regex false false p] (p.past c) rest).cons c with
      ⟨taken, left, q'⟩ | ⟨e, o⟩ <;> rw [hscan] at h
    · cases h
      simpa [TokenKind.frames] using (hframes hscan).trans (.pastText (lineEnd_not_mem_flags left))
    · cases h

/-- A token that is not closed.  Only what has frames can fail to be closed.  The error names the
place where the innermost of them was opened. -/
theorem reaches_of_scanOf {kind : TokenKind} {c : Char} (hc : c ≠ '\n') (hroom : Room p (c :: t))
    (h : scanOf kind p c t = .failed e n) :
    Reaches p (c :: t) (hiddenIn (kind.frames p c) (p.past c) t) e.place := by
  have hpast := Crosses.past (p := p) hc
  have hfs := settled_frames kind p c
  have hscan : scanFrames (kind.frames p c) (p.past c) t = .failed e n := by
    cases kind with
    | string => exact Scan.cons_eq_failed_iff.mp h
    | template => exact Scan.cons_eq_failed_iff.mp h
    | regex =>
      unfold scanOf at h
      dsimp only at h
      rcases hscan : (scanFrames [.regex false false p] (p.past c) t).cons c with _ | ⟨e, o⟩ <;>
        rw [hscan] at h <;> cases h
      exact Scan.cons_eq_failed_iff.mp hscan
    | number => cases h
    | ident => cases h
    | punct => cases h
  rcases reaches_of_scanFrames (hpast.room hroom) hfs hscan with hplace | hreaches
  · have hp : e.place = p := by
      cases kind <;> simp_all [TokenKind.frames, Frame.places]
    rw [hp]
    refine (Crosses.refl p).reaches_end fun k hk => ?_
    have hbehind : (p.past c).offset ≤ k := le_of_mem_hiddenIn hfs List.not_mem_nil k hk
    exact (Nat.le_add_right _ _).trans hbehind
  · exact hpast.reaches hreaches

end

namespace Lexer

variable {l after : Lexer} {t : Token} {e : ParseError}

/-- What the next token hides is what is hidden in the frames that it opens. -/
theorem hiddenNext_eq {gap rest : Text} {c : Char} {place : Place}
    (h : readGap none l.place l.rest = .found gap (c :: rest) place) :
    l.hiddenNext =
      hiddenIn ((kindAt l.previous c rest.head?).frames place c) (place.past c) rest := by
  simp [hiddenNext, h, scanToken_eq]

/-- No token begins with a line end. -/
theorem ne_lineEnd_of_readGap {gap rest : Text} {c : Char} {p place : Place} {t : Text}
    (h : readGap none p t = .found gap (c :: rest) place) : c ≠ '\n' := by
  have hstart := startsToken_of_readGap h (List.cons_ne_nil _ _)
  rintro rfl
  exact absurd (startsToken_cons_iff.mp hstart).1 (by decide)

/-- **One token.**  Between a lexer and the next token no line end is hidden; those of the token
are. -/
theorem crosses_of_next (hroom : Room l.place l.rest) (h : l.next = .token t after) :
    ∃ gap, l.rest = gap ++ (t.text ++ after.rest) ∧ Crosses l.place gap [] t.place ∧
      Crosses t.place t.text l.hiddenNext after.place := by
  obtain ⟨gap', -, -, hsplit, -⟩ := reads_of_next h
  unfold Lexer.next at h
  split at h
  · cases h
  · rename_i gap rest place hgap
    split at h
    · cases h
    · rename_i c rest
      split at h
      · cases h
      · rename_i kind text rest' after' hscan
        cases h
        have hcrosses := crosses_of_readGap hroom hgap
        obtain ⟨htext, -⟩ := eq_append_of_readGap hgap
        rw [htext] at hroom
        rw [scanToken_eq, Prod.mk.injEq] at hscan
        obtain ⟨body, rfl, rfl, -⟩ := eq_append_of_scanOf hscan.2
        refine ⟨gap, htext, hcrosses, ?_⟩
        rw [hiddenNext_eq hgap]
        exact crosses_of_scanOf (ne_lineEnd_of_readGap hgap) (hcrosses.room hroom) hscan.2

/-- **The last place** of a lexer that gives up.  It gives up in a comment of the gap or in the
token behind it. -/
theorem reaches_of_next (hroom : Room l.place l.rest) (h : l.next = .failed e after) :
    Reaches l.place l.rest l.hiddenNext e.place := by
  unfold Lexer.next at h
  split at h
  · rename_i hgap
    cases h
    rcases reaches_of_readGap hroom hgap with hplace | hreaches
    · cases hplace
    · simpa [hiddenNext, hgap] using hreaches
  · rename_i gap rest place hgap
    split at h
    · cases h
    · rename_i c rest
      split at h
      · rename_i hscan
        cases h
        have hcrosses := crosses_of_readGap hroom hgap
        obtain ⟨htext, -⟩ := eq_append_of_readGap hgap
        rw [htext] at hroom
        rw [scanToken_eq, Prod.mk.injEq] at hscan
        rw [htext, hiddenNext_eq hgap]
        exact hcrosses.reaches
          (reaches_of_scanOf (ne_lineEnd_of_readGap hgap) (hcrosses.room hroom) hscan.2)
      · cases h

/-- The line ends that are hidden from a token on are those of the token and those behind it. -/
theorem hidden_of_token (h : l.next = .token t after) :
    l.hidden = l.hiddenNext ++ after.hidden := by
  rw [hidden]
  split <;> rename_i hnext <;> rw [h] at hnext <;> cases hnext
  rfl

theorem hidden_of_finished (h : l.next = .finished after) : l.hidden = l.hiddenNext := by
  rw [hidden]
  split <;> first | rfl | simp_all

theorem hidden_of_failed (h : l.next = .failed e after) : l.hidden = l.hiddenNext := by
  rw [hidden]
  split <;> first | rfl | simp_all

/-- Every line end that the next token hides stands behind a backslash. -/
theorem exists_backslash_of_mem_hiddenNext : ∀ h ∈ l.hiddenNext,
    ∃ front behind, l.rest = front ++ '\\' :: '\n' :: behind ∧
      h = l.place.offset + Text.size (front ++ ['\\']) := by
  intro h hh
  unfold hiddenNext at hh
  split at hh
  · rename_i gap c rest place hgap
    obtain ⟨front, behind, htext, hoffset⟩ :=
      exists_backslash_of_mem_hiddenIn (settled_frames _ place c) h hh
    obtain ⟨hsplit, hplace⟩ := eq_append_of_readGap hgap
    refine ⟨gap ++ front, behind, by rw [hsplit, htext, List.append_assoc], ?_⟩
    rw [Place.offset_past] at hoffset
    rw [List.append_assoc, Text.size_append]
    omega
  · cases hh

/-- **Hidden line ends** stand behind a backslash.  They are in tokens, since gaps hide none. -/
theorem exists_backslash_of_mem_hidden (l : Lexer) : ∀ h ∈ l.hidden,
    ∃ front behind, l.rest = front ++ '\\' :: '\n' :: behind ∧
      h = l.place.offset + Text.size (front ++ ['\\']) := by
  induction l using Lexer.run.induct with
  | case1 l t after hnext ih =>
    rw [hidden_of_token hnext]
    obtain ⟨gap, -, -, hsplit, -, -, -, hstart, hstop⟩ := reads_of_next hnext
    intro h hh
    rcases List.mem_append.mp hh with hh | hh
    · exact exists_backslash_of_mem_hiddenNext h hh
    · obtain ⟨front, behind, htext, hoffset⟩ := ih h hh
      refine ⟨gap ++ (t.text ++ front), behind, by rw [hsplit, htext]; simp, ?_⟩
      rw [hoffset, hstop, hstart]
      simp [Nat.add_assoc]
  | case2 l after hnext =>
    rw [hidden_of_finished hnext]
    exact exists_backslash_of_mem_hiddenNext
  | case3 l e after hnext =>
    rw [hidden_of_failed hnext]
    exact exists_backslash_of_mem_hiddenNext

/-- **All tokens.**  The place of every token, and that of the error, is one the lexer comes to.
The induction is on the run: behind a token the lexer goes on from where the token ends, and the
line ends that it hid stay hidden. -/
theorem reaches_of_run (l : Lexer) (hroom : Room l.place l.rest) :
    (∀ t ∈ l.run.tokens, Reaches l.place l.rest l.hidden t.place) ∧
      ∀ e, l.run.failure = some e → Reaches l.place l.rest l.hidden e.place := by
  induction l using Lexer.run.induct with
  | case1 l t after hnext ih =>
    obtain ⟨gap, hsplit, hgap, htext⟩ := crosses_of_next hroom hnext
    rw [hsplit] at hroom
    have hcrosses := hgap.trans htext
    have hroom' : Room after.place after.rest := hcrosses.room (by simpa using hroom)
    obtain ⟨htokens, hfailure⟩ := ih hroom'
    have hlater : ∀ {x}, Reaches after.place after.rest after.hidden x →
        Reaches l.place l.rest (l.hiddenNext ++ after.hidden) x := by
      intro x hx
      simpa [hsplit] using hcrosses.reaches hx
    rw [run_of_token hnext, hidden_of_token hnext]
    refine ⟨List.forall_mem_cons.mpr ⟨?_, fun u hu => hlater (htokens u hu)⟩,
      fun e he => hlater (hfailure e he)⟩
    rw [hsplit]
    refine hgap.reaches_end (List.forall_mem_append.mpr ⟨fun h hh => (htext.within h hh).1, ?_⟩)
    intro h hh
    obtain ⟨front, -, -, hoffset⟩ := after.exists_backslash_of_mem_hidden h hh
    have := htext.offset
    omega
  | case2 l after hnext =>
    rw [run_of_finished hnext]
    simp
  | case3 l e after hnext =>
    rw [run_of_failed hnext, hidden_of_failed hnext]
    refine ⟨by simp, fun e' he => ?_⟩
    obtain rfl := Option.some_inj.mp he
    exact reaches_of_next hroom hnext

end Lexer

/-! ### Whole texts -/

/-- Only a line end is encoded with the byte of a line end. -/
theorem count_utf8EncodeChar (c : Char) :
    (String.utf8EncodeChar c).count 10 = [c].count '\n' := by
  by_cases hc : c = '\n'
  · subst hc
    rfl
  · have hval : c.val.toNat ≠ 10 := fun h => hc (Char.ext (UInt32.toNat_inj.mp h))
    rw [List.count_eq_zero.mpr, List.count_eq_zero.mpr (by simpa using Ne.symm hc)]
    unfold String.utf8EncodeChar
    dsimp only
    split_ifs <;> simp only [List.mem_cons, List.not_mem_nil, or_false, ← UInt8.toNat_inj,
      UInt8.toNat_ofNat, UInt8.toNat_ofNat']
    all_goals omega

/-- Line ends are the bytes 10 and no others, since the bytes of wider characters are all beyond
ASCII. -/
theorem count_utf8 (t : Text) : t.utf8.count 10 = t.count '\n' := by
  induction t with
  | nil => rfl
  | cons c t ih =>
    rw [Text.utf8_cons, List.count_append, count_utf8EncodeChar, ih, ← List.count_append,
      List.singleton_append]

/-- The line ends in front of an offset are those in front of the text that begins there. -/
theorem breaksBefore_append (front behind : Text) :
    breaksBefore (front ++ behind) front.size = front.count '\n' := by
  rw [breaksBefore, Text.utf8_append, ← Text.length_utf8, List.take_left, count_utf8]

/-- The first line of a text is taken without its end. -/
theorem lineEnd_not_mem_hashBang (source : Text) : '\n' ∉ hashBang source := by
  unfold hashBang
  split
  · exact fun h => by simpa using List.mem_takeWhile_imp h
  · simp

/-- The line of a place that lexing comes to. -/
theorem Reaches.line_add {source : Text} {x : Place}
    (h : Reaches .start source (Lexer.start source).hidden x) :
    x.line + hiddenBefore source x.offset = 1 + breaksBefore source x.offset := by
  obtain ⟨front, behind, before, after, rfl, hhidden, hcrosses, hafter⟩ := h
  have hoffset : x.offset = front.size := by simpa [Place.start] using hcrosses.offset
  have hbefore : before.countP (· < x.offset) = before.length :=
    List.countP_eq_length.mpr fun k hk => by simpa using (hcrosses.within k hk).2
  have hnone : after.countP (· < x.offset) = 0 :=
    List.countP_eq_zero.mpr fun k hk => by simpa using hafter k hk
  rw [hiddenBefore, hhidden, List.countP_append, hbefore, hnone, hoffset, breaksBefore_append]
  exact hcrosses.line

/-- What stands between the start of a text and its first gap. -/
theorem crosses_hashBang (source : Text) :
    Crosses .start (hashBang source) [] (Lexer.start source).place ∧
      hashBang source ++ (Lexer.start source).rest = source := by
  rw [start_eq]
  exact ⟨.pastText (lineEnd_not_mem_hashBang source), hashBang_append_drop source⟩

/-- Every hidden line end of a text stands in it, behind a backslash.  The first line of a text
that begins with `#!` is passed over and has none. -/
theorem standsAt_of_mem_hidden (source : Text) :
    ∀ h ∈ (Lexer.start source).hidden, StandsAt source (h - 1) (h + 1) "\\\n".toList := by
  intro h hh
  obtain ⟨hcrosses, hrest⟩ := crosses_hashBang source
  obtain ⟨front, behind, htext, hoffset⟩ := (Lexer.start source).exists_backslash_of_mem_hidden h hh
  have hone : '\\'.utf8Size = 1 ∧ Text.size "\\\n".toList = 2 := ⟨rfl, rfl⟩
  have hstart : Place.start.offset = 0 := rfl
  have hplace := hcrosses.offset
  rw [Text.size_append, Text.size_cons, Text.size_nil] at hoffset
  refine ⟨hashBang source ++ front, behind, ?_, ?_, ?_⟩
  · conv_lhs => rw [← hrest, htext]
    simp
  · rw [Text.size_append]
    omega
  · rw [Text.size_append, Text.size_append]
    omega

/-- **Line numbers are right but for hidden line ends.**  The line of a token or of a lexical error
and the hidden line ends in front of it make one more than the line ends in front of it.  Hidden
line ends stand behind a backslash. -/
theorem line_of_lex (source : Text) (hroom : source.count '\n' < Place.lastLine) :
    (∀ t ∈ (lex source).tokens,
      t.place.line + hiddenBefore source t.start = 1 + breaksBefore source t.start) ∧
    (∀ e, (lex source).failure = some e →
      e.place.line + hiddenBefore source e.place.offset = 1 + breaksBefore source e.place.offset) ∧
    ∀ h ∈ (Lexer.start source).hidden, StandsAt source (h - 1) (h + 1) "\\\n".toList := by
  obtain ⟨hcrosses, hrest⟩ := crosses_hashBang source
  have hall : Room .start (hashBang source ++ (Lexer.start source).rest) := by
    rw [hrest]
    change 1 + source.count '\n' ≤ Place.lastLine
    omega
  obtain ⟨htokens, hfailure⟩ := (Lexer.start source).reaches_of_run (hcrosses.room hall)
  have hline : ∀ {x}, Reaches (Lexer.start source).place (Lexer.start source).rest
      (Lexer.start source).hidden x →
        x.line + hiddenBefore source x.offset = 1 + breaksBefore source x.offset := by
    intro x hx
    have hreaches := hcrosses.reaches hx
    rw [hrest, List.nil_append] at hreaches
    exact hreaches.line_add
  exact ⟨fun t ht => hline (htokens t ht), fun e he => hline (hfailure e he),
    standsAt_of_mem_hidden source⟩

/-- Both line ends in front of `x` are counted: the one in the string and the one in the comment. -/
theorem line_behind_string :
    ∃ t ∈ (lex "'\\\n'/*\n*/x".toList).tokens, t.text = ['x'] ∧ t.place.line = 3 := by
  have hword : ∃ t ∈ (lex "'\\\n'/*\n*/x".toList).tokens, t.text = ['x'] ∧ t.start = 9 := by
    decide +kernel
  obtain ⟨t, ht, htext, hstart⟩ := hword
  have hline := (line_of_lex _ (by decide)).1 t ht
  have hhidden : hiddenBefore "'\\\n'/*\n*/x".toList 9 = 0 := by decide +kernel
  have hbreaks : breaksBefore "'\\\n'/*\n*/x".toList 9 = 2 := by decide +kernel
  rw [hstart, hhidden, hbreaks] at hline
  exact ⟨t, ht, htext, hline⟩

/-- **A template hides its escaped line end.**  The word behind it stands on the second line and is
said to stand on the first. -/
theorem template_hides_line :
    ¬∀ source : Text, source.count '\n' < Place.lastLine →
      ∀ t ∈ (lex source).tokens, t.place.line = 1 + breaksBefore source t.start := by
  intro hall
  have hword : ∃ t ∈ (lex "`\\\n` x".toList).tokens, t.start = 5 ∧ t.place.line = 1 := by
    decide +kernel
  obtain ⟨t, ht, hstart, hone⟩ := hword
  have hline := hall _ (by decide) t ht
  have hbreaks : breaksBefore "`\\\n` x".toList 5 = 1 := by decide +kernel
  rw [hstart, hbreaks] at hline
  omega

end Twinfold
