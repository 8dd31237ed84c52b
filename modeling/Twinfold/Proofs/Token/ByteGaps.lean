import Twinfold.Proofs.Token.Bytes
import Twinfold.Proofs.Token.Progress
import Twinfold.Proofs.Token.Spelling

/-!
# Gaps in bytes

A scanner of bytes that stands between characters comes to the same end as the scanner of
characters that is given the text from there on.  This is said of a scan of bytes by saying that it
is the outcome of the scan of characters (`Scan.outcome`).  Here it is shown for what lies between
tokens.

* `Stands.walks`, `Stands.walks_rest` — a scanner that has no use for the bytes of a character walks
  over them, and over what is left of it when it stands inside;
* `Stands.walks_escape` — one that jumps over two bytes at a backslash comes to the end of the
  character behind it;
* `skipLine_eq`, `skipBlock_bind` — comments;
* `skipTrivia_eq` — gaps.
-/

namespace Twinfold

/-! ### Outcomes -/

/-- Goes on from where a scan of characters ends. -/
def Scan.followedBy {α : Type} (s : Scan) (f : Text → Place → ByteScan α) : ByteScan α :=
  match s with
  | .found _ rest q => f rest q
  | .failed e stopped => throw ⟨e, stopped⟩

/-- What a scan of characters comes to, without the text that it takes. -/
def Scan.outcome (s : Scan) : ByteScan Place := s.followedBy fun _ q => pure q

section

variable {α : Type} {s : Scan}

@[simp] theorem Scan.followedBy_cons (c : Char) (f : Text → Place → ByteScan α) :
    (s.cons c).followedBy f = s.followedBy f := by
  cases s <;> rfl

@[simp] theorem Scan.outcome_cons (c : Char) : (s.cons c).outcome = s.outcome :=
  Scan.followedBy_cons c _

theorem Scan.outcome_bind (f : Place → ByteScan α) :
    s.outcome >>= f = s.followedBy fun _ q => f q := by
  cases s <;> rfl

theorem Scan.followedBy_bind {β : Type} (f : Text → Place → ByteScan α) (g : α → ByteScan β) :
    s.followedBy f >>= g = s.followedBy fun rest q => f rest q >>= g := by
  cases s <;> rfl

/-- What is done behind a scan is only asked about what the scan has found. -/
theorem Scan.followedBy_congr {f g : Text → Place → ByteScan α}
    (h : ∀ taken rest q, s = .found taken rest q → f rest q = g rest q) :
    s.followedBy f = s.followedBy g := by
  cases s with
  | found taken rest q => exact h taken rest q rfl
  | failed e stopped => rfl

/-- The flags of a regular expression are read behind it. -/
theorem Scan.outcome_withFlags :
    s.withFlags.outcome =
      s.followedBy fun rest q => pure (q.pastText (rest.takeWhile continuesIdent)) := by
  cases s <;> rfl

theorem Scan.followedBy_withFlags_cons (c : Char) (f : Text → Place → ByteScan α) :
    (s.cons c).withFlags.followedBy f = s.withFlags.followedBy f := by
  cases s <;> rfl

end

/-! ### Places -/

theorem Place.after_eq_skip (p : Place) {c : Char} (hc : c ≠ '\n') :
    p.after c = p.skip c.utf8Size := by
  simp [after, skip, hc]

namespace Bytes

variable {src : Bytes} {p : Place} {c : Char} {t : Text}

/-! ### Walking over a character -/

/-- A function of places that takes one step at a time gets as far as one likes. -/
theorem walk {α : Type} {f : Place → α} {n : Nat}
    (hstep : ∀ i < n, f (p.skip i) = f (p.skip (i + 1))) : f p = f (p.skip n) := by
  induction n with
  | zero => rfl
  | succ n ih =>
    rw [ih fun i hi => hstep i (Nat.lt_succ_of_lt hi)]
    exact hstep n (Nat.lt_succ_self n)

namespace Stands

variable {α : Type} {f : Place → α}

/-- A function of places that does not stop at bytes beyond ASCII does not stop inside a character.
A scanner that goes on byte by byte is therefore behind the whole character in the end. -/
theorem walks_rest (h : src.Stands p.offset (c :: t))
    (hstep : ∀ (q : Place) (b : UInt8), src[q.offset]? = some b → 0x80 ≤ b →
      src.wideSpace? q.offset = none → f q = f (q.skip 1)) :
    f (p.skip 1) = f (p.skip c.utf8Size) := by
  obtain ⟨n, hn⟩ := Nat.exists_eq_succ_of_ne_zero (Nat.ne_of_gt (Char.utf8Size_pos c))
  have hrest : f (p.skip 1) = f ((p.skip 1).skip n) := by
    refine walk fun i hi => ?_
    have hinside : i + 1 < c.utf8Size := by omega
    have hc : 128 ≤ c.toNat := by
      by_contra hlt
      rw [utf8Size_of_ascii (Nat.not_le.mp hlt)] at hinside
      omega
    obtain ⟨b, hb, hle⟩ := h.exists_byte hc hinside
    have hoffset : ((p.skip 1).skip i).offset = p.offset + (i + 1) := by
      rw [Place.offset_skip, Place.offset_skip]
      omega
    refine hstep ((p.skip 1).skip i) b (hoffset ▸ hb) hle ?_
    rw [hoffset]
    exact h.wideSpace?_inside (Nat.succ_pos i) hinside
  rw [hrest, hn]
  simp only [Place.skip, Nat.add_assoc, Nat.add_comm 1 n]

/-- A function of places that jumps two bytes at a backslash comes to the end of the character behind
it: it may land within this character, and does not stop there. -/
theorem walks_escape {d : Char} (h : src.Stands p.offset ('\\' :: d :: t)) (hjump : f p = f (p.skip 2))
    (hstep : ∀ (q : Place) (b : UInt8), src[q.offset]? = some b → 0x80 ≤ b →
      src.wideSpace? q.offset = none → f q = f (q.skip 1)) :
    f p = f ((p.skip 1).skip d.utf8Size) := by
  have htail : src.Stands (p.skip 1).offset (d :: t) := h.tail_ascii (by decide)
  rw [hjump, show p.skip 2 = (p.skip 1).skip 1 from rfl, htail.walks_rest hstep]

/-- A function of places that stops at none of the bytes of a character passes over it. -/
theorem walks (h : src.Stands p.offset (c :: t))
    (hstep : ∀ (q : Place) (b : UInt8), src[q.offset]? = some b →
      (∀ d : Char, d.toNat < 128 → d ≠ c → b ≠ ascii d) → f q = f (q.skip 1)) :
    f p = f (p.skip c.utf8Size) := by
  rw [← walks_rest h fun q b hb hle _ => hstep q b hb fun d hd _ => ne_ascii hle hd]
  by_cases hc : c.toNat < 128
  · exact hstep p _ (h.getElem?_ascii hc) fun d hd hne => mt (ascii_eq_iff hc hd).mp hne.symm
  · obtain ⟨b, hb, hle⟩ := h.exists_first_byte (Nat.not_lt.mp hc)
    exact hstep p b hb fun d hd _ => ne_ascii hle hd

end Stands

/-! ### Spaces and comments -/

/-- The end of a line is found where the characters have it.  No byte of a longer character is a
line feed. -/
theorem skipLine_eq (h : src.Stands p.offset t) :
    src.skipLine p = p.pastText (t.takeWhile (· ≠ '\n')) := by
  induction t generalizing p with
  | nil =>
    rw [skipLine_unfold, h.getElem?_end (Nat.le_refl _)]
    rfl
  | cons c t ih =>
    by_cases hc : c = '\n'
    · subst hc
      rw [skipLine_unfold, h.getElem?_ascii (by decide)]
      simp [Place.pastText]
    · rw [h.walks (f := src.skipLine), ih h.tail]
      · simp [hc, Place.pastText, Place.skip, Nat.add_assoc]
      · intro q b hb hne
        rw [skipLine_unfold, hb]
        exact if_neg (hne '\n' (by decide) (Ne.symm hc))

/-- A line comment goes on up to the end of its line, where the gap is read again. -/
theorem outcome_lineComment (p : Place) (t : Text) :
    (readGap (some .line) p t).outcome =
      (readGap none (p.pastText (t.takeWhile (· ≠ '\n'))) (t.dropWhile (· ≠ '\n'))).outcome := by
  induction t generalizing p with
  | nil => rfl
  | cons c t ih =>
    by_cases hc : c = '\n'
    · subst hc
      rfl
    · rw [readGap, Scan.outcome_cons, List.takeWhile_cons_of_pos (by simpa using hc),
        List.dropWhile_cons_of_pos (by simpa using hc), show Comment.read p c .line = some .line by
          simp [Comment.read, hc], ih, Place.after_eq_skip p hc]
      simp only [Place.pastText, Place.skip, Text.size_cons, Nat.add_assoc]

/-- A star in a block comment counts only if a slash is behind it that may close the comment. -/
theorem readGap_star {opened : Place} (star : Bool)
    (h : star = true → t.head? = some '/' → ¬opened.offset + 2 < p.offset) :
    readGap (some (.block opened star)) p t = readGap (some (.block opened false)) p t := by
  cases star with
  | false => rfl
  | true =>
    cases t with
    | nil => rfl
    | cons d t =>
      rw [List.head?_cons, Option.some_inj] at h
      by_cases hd : d = '/'
      · simp [readGap, Comment.read, h rfl hd]
      · simp [readGap, Comment.read, hd]

/-- Inside a block comment a byte is passed over, if it does not close the comment and is not the
last one. -/
theorem skipBlock_step {opened q : Place} {b next : UInt8} (hb : src[q.offset]? = some b)
    (hnext : src[q.offset + 1]? = some next) (hopen : ¬(b = ascii '*' ∧ next = ascii '/')) :
    src.skipBlock opened q =
      src.skipBlock opened ((if b = ascii '\n' then q.nextLine else q).skip 1) := by
  rw [skipBlock_unfold, hb, hnext]
  dsimp only
  rw [if_neg (by simpa using hopen)]

/-- Inside a block comment the bytes of a character beyond ASCII are passed over, up to the one in
front of position `n`. -/
theorem skipBlock_walk {opened : Place} (h : src.Stands p.offset (c :: t)) (hc : 128 ≤ c.toNat)
    {n : Nat} (hn : n ≤ c.utf8Size) (hbehind : ∃ b, src[p.offset + n]? = some b) :
    src.skipBlock opened p = src.skipBlock opened (p.skip n) := by
  refine walk fun i hi => ?_
  obtain ⟨b, hb, hle⟩ := h.exists_byte hc (i := i) (by omega)
  have hnext : ∃ next, src[(p.skip i).offset + 1]? = some next := by
    by_cases hlast : i + 1 = n
    · rwa [Place.offset_skip, Nat.add_assoc, hlast]
    · obtain ⟨next, hnext, -⟩ := h.exists_byte hc (i := i + 1) (by omega)
      exact ⟨next, hnext⟩
  obtain ⟨next, hnext⟩ := hnext
  rw [skipBlock_step hb hnext fun hmark => ne_ascii hle (by decide) hmark.1,
    if_neg (ne_ascii hle (by decide))]
  rfl

section

variable {d : Char} {opened : Place}

/-- The last character of a text is passed over up to its last byte, behind which nothing can be
found that closes the comment. -/
theorem skipBlock_last (h : src.Stands p.offset [c]) :
    src.skipBlock opened p =
      giveUp .unterminatedComment opened (p.offset + (c.utf8Size - 1)) := by
  have hsize := Char.utf8Size_pos c
  have hlast : src.skipBlock opened p = src.skipBlock opened (p.skip (c.utf8Size - 1)) := by
    by_cases hc : c.toNat < 128
    · rw [utf8Size_of_ascii hc]
      rfl
    · obtain ⟨b, hb, -⟩ := h.exists_byte (Nat.not_lt.mp hc) (Nat.sub_one_lt_of_lt hsize)
      exact skipBlock_walk h (Nat.not_lt.mp hc) (Nat.sub_le _ _) ⟨b, hb⟩
  have hend : src[(p.skip (c.utf8Size - 1)).offset + 1]? = none := by
    refine h.tail.getElem?_end ?_
    rw [Place.offset_skip]
    omega
  rw [hlast, skipBlock_unfold, hend]
  cases src[(p.skip (c.utf8Size - 1)).offset]? <;> rfl

/-- A star with a slash behind it closes a block comment. -/
theorem skipBlock_closed (h : src.Stands p.offset ('*' :: '/' :: t)) :
    src.skipBlock opened p = pure (p.skip 2) := by
  have htail : src.Stands (p.offset + 1) ('/' :: t) := h.tail_ascii (by decide)
  rw [skipBlock_unfold, h.getElem?_ascii (by decide), htail.getElem?_ascii (by decide)]
  rfl

/-- A character with another one behind it is passed over, unless the two close the comment.  The
next byte is looked at as well, and no byte of a longer character is an asterisk or a slash. -/
theorem skipBlock_after (h : src.Stands p.offset (c :: d :: t)) (hopen : ¬(c = '*' ∧ d = '/')) :
    src.skipBlock opened p = src.skipBlock opened (p.after c) := by
  obtain ⟨next, hnext⟩ := h.tail.exists_getElem?
  by_cases hc : c.toNat < 128
  · have hmark : ¬(ascii c = ascii '*' ∧ next = ascii '/') := by
      rw [ascii_eq_iff hc (by decide), h.tail.byte_eq_ascii_iff hnext (by decide)]
      exact hopen
    rw [utf8Size_of_ascii hc] at hnext
    rw [skipBlock_step (h.getElem?_ascii hc) hnext hmark]
    simp only [ascii_eq_iff hc (d := '\n') (by decide)]
    by_cases hline : c = '\n'
    · subst hline
      rfl
    · rw [if_neg hline, Place.after_eq_skip p hline, utf8Size_of_ascii hc]
  · have hline : c ≠ '\n' := by
      rintro rfl
      exact hc (by decide)
    rw [Place.after_eq_skip p hline]
    exact skipBlock_walk h (Nat.not_lt.mp hc) (Nat.le_refl _) ⟨next, hnext⟩

/-- A block comment, from behind the mark that opens it on: the scan of the gap goes on behind the
mark that closes it.  The bytes of this mark are seen at once, the characters one after the other;
if the text ends inside, both give up in front of its last byte. -/
theorem skipBlock_bind (hopened : opened.offset + 2 ≤ p.offset)
    (hnil : t = [] → p.offset = opened.offset + 2) (h : src.Stands p.offset t)
    (hgap : ∀ {q : Place} {u : Text}, u.length < t.length → src.Stands q.offset u →
      src.skipTrivia q = (readGap none q u).outcome) :
    (src.skipBlock opened p >>= src.skipTrivia) =
      (readGap (some (.block opened false)) p t).outcome := by
  induction t generalizing p with
  | nil =>
    rw [skipBlock_unfold, h.getElem?_end (Nat.le_refl _), readGap, Comment.atEnd, hnil rfl,
      Nat.max_eq_left (by omega)]
    rfl
  | cons c t ih =>
    have hread : Comment.read p c (.block opened false) = some (.block opened (c = '*')) := by
      simp [Comment.read]
    rw [readGap, Scan.outcome_cons, hread]
    cases t with
    | nil =>
      have hsize := Char.utf8Size_pos c
      have hmax : max (opened.offset + 2) (p.offset + c.utf8Size - 1) =
          p.offset + (c.utf8Size - 1) := by omega
      rw [skipBlock_last h, readGap, Comment.atEnd, Place.offset_after, hmax]
      rfl
    | cons d t =>
      by_cases hclose : c = '*' ∧ d = '/'
      · obtain ⟨rfl, rfl⟩ := hclose
        have hbehind : src.Stands (p.skip 2).offset t :=
          (h.tail_ascii (by decide)).tail_ascii (by decide)
        have hlt : opened.offset + 2 < p.offset + 1 := Nat.lt_succ_of_le hopened
        rw [skipBlock_closed h, pure_bind, hgap (by simp only [List.length_cons]; omega) hbehind,
          readGap, Scan.outcome_cons]
        simp only [Comment.read, Place.offset_after, show '*'.utf8Size = 1 from rfl, hlt, decide_true,
          Bool.and_self, if_true]
        rfl
      · -- A star counts only if a slash is behind it.
        rw [skipBlock_after h hclose, readGap_star _ fun hstar hslash =>
          absurd ⟨by simpa using hstar, by simpa using hslash⟩ hclose]
        refine ih (Nat.le_trans hopened (Nat.le_add_right _ _)) (fun hnil => by cases hnil) h.tail ?_
        exact fun hlt => hgap (Nat.lt_succ_of_lt hlt)

end

/-- In ASCII the characters that separate tokens are the five of the source's table; -/
theorem isGapSpace_of_ascii (hc : c.toNat < 128) : isGapSpace c = isAsciiSpace c := by
  have hwide : isWideSpace c = false := by
    simp only [isWideSpace, Bool.or_eq_false_iff, decide_eq_false_iff_not]
    refine ⟨⟨⟨?_, ?_⟩, ?_⟩, ?_⟩ <;> rintro rfl <;> exact absurd hc (by decide)
  rw [isGapSpace, hwide, Bool.or_false]

/-- beyond ASCII they are the wide spaces. -/
theorem isGapSpace_of_wide (hc : 128 ≤ c.toNat) : isGapSpace c = isWideSpace c := by
  have hascii : isAsciiSpace c = false := by
    simp only [isAsciiSpace, Bool.or_eq_false_iff, decide_eq_false_iff_not]
    refine ⟨⟨⟨⟨?_, ?_⟩, ?_⟩, ?_⟩, ?_⟩ <;> rintro rfl <;> exact absurd hc (by decide)
  rw [isGapSpace, hascii, Bool.false_or]

/-- At a byte beyond ASCII a gap goes on only if a space is found there. -/
theorem skipTrivia_of_le {b : UInt8} (hb : src[p.offset]? = some b) (hle : 0x80 ≤ b)
    (hspace : src.wideSpace? p.offset = none) : src.skipTrivia p = pure p := by
  rw [skipTrivia_unfold, hb]
  dsimp only
  rw [if_neg (ne_ascii hle (by decide)), not_isSpaceByte_of_le hle, if_neg Bool.false_ne_true,
    if_pos hle, hspace]
  have hslash : b ≠ ascii '/' := ne_ascii hle (by decide)
  simp [hslash]

/-- A space is passed over, one beyond ASCII with all of its bytes at once.  If it is a line end it
is counted. -/
theorem skipTrivia_space (h : src.Stands p.offset (c :: t)) (hspace : isGapSpace c = true) :
    src.skipTrivia p = src.skipTrivia (p.after c) := by
  by_cases hc : c.toNat < 128
  · rw [isGapSpace_of_ascii hc] at hspace
    rw [skipTrivia_unfold, h.getElem?_ascii hc]
    dsimp only
    by_cases hline : c = '\n'
    · subst hline
      exact if_pos rfl
    · rw [if_neg (mt (ascii_eq_iff hc (by decide)).mp hline), isSpaceByte_ascii hc, if_pos hspace,
        Place.after_eq_skip p hline, utf8Size_of_ascii hc]
  · have hc := Nat.not_lt.mp hc
    rw [isGapSpace_of_wide hc] at hspace
    have hline : c ≠ '\n' := by
      rintro rfl
      exact absurd hc (by decide)
    obtain ⟨b, hb, hle⟩ := h.exists_first_byte hc
    rw [skipTrivia_unfold, hb]
    dsimp only
    rw [if_neg (ne_ascii hle (by decide)), not_isSpaceByte_of_le hle, if_neg Bool.false_ne_true,
      if_pos hle, h.wideSpace?_eq, if_pos hspace, Place.after_eq_skip p hline]

/-- At a character that is no space a gap goes on if a comment begins there.  Otherwise it ends
there. -/
theorem skipTrivia_of_not_space (h : src.Stands p.offset (c :: t)) (hspace : isGapSpace c = false) :
    src.skipTrivia p =
      if c = '/' ∧ t.head? = some '/' then src.skipTrivia (src.skipLine p)
      else if c = '/' ∧ t.head? = some '*' then src.skipBlock p (p.skip 2) >>= src.skipTrivia
      else pure p := by
  by_cases hc : c.toNat < 128
  · rw [isGapSpace_of_ascii hc] at hspace
    have hline : c ≠ '\n' := by
      rintro rfl
      cases hspace
    have hnext (d : Char) (hd : d.toNat < 128) :
        src[p.offset + 1]? = some (ascii d) ↔ t.head? = some d :=
      (h.tail_ascii hc).getElem?_eq_ascii_iff hd
    rw [skipTrivia_unfold, h.getElem?_ascii hc]
    dsimp only
    rw [if_neg (mt (ascii_eq_iff hc (by decide)).mp hline), isSpaceByte_ascii hc, hspace,
      if_neg Bool.false_ne_true, if_neg (UInt8.not_le.mpr (ascii_lt hc))]
    simp only [ascii_eq_iff hc (d := '/') (by decide), hnext '/' (by decide), hnext '*' (by decide),
      Bool.and_eq_true, decide_eq_true_eq]
  · have hc := Nat.not_lt.mp hc
    rw [isGapSpace_of_wide hc] at hspace
    have hslash : c ≠ '/' := by
      rintro rfl
      exact absurd hc (by decide)
    obtain ⟨b, hb, hle⟩ := h.exists_first_byte hc
    rw [skipTrivia_of_le hb hle (by rw [h.wideSpace?_eq, hspace]; rfl), if_neg (hslash ·.1),
      if_neg (hslash ·.1)]

section

variable (hgap : ∀ {q : Place} {u : Text}, u.length ≤ t.length → src.Stands q.offset u →
  src.skipTrivia q = (readGap none q u).outcome)

include hgap

/-- Behind the line of a line comment the gap goes on as in characters, if shorter gaps do. -/
theorem skipTrivia_line (h : src.Stands p.offset ('/' :: t)) :
    src.skipTrivia (src.skipLine p) = (readGap (some .line) (p.after '/') t).outcome := by
  have hend := h
  rw [← List.takeWhile_append_dropWhile (p := (· ≠ '\n')) (l := '/' :: t),
    List.dropWhile_cons_of_pos (by decide)] at hend
  rw [skipLine_eq h, outcome_lineComment, hgap (List.dropWhile_sublist _).length_le hend.behind,
    List.takeWhile_cons_of_pos (by decide)]
  simp only [Place.pastText, Place.after_eq_skip p (c := '/') (by decide), Place.skip, Text.size_cons,
    Nat.add_assoc]

/-- Behind a block comment, too.  The star that opens the comment does not count towards closing it.
-/
theorem skipTrivia_block (h : src.Stands p.offset ('/' :: t)) (hstar : t.head? = some '*') :
    src.skipBlock p (p.skip 2) >>= src.skipTrivia =
      (readGap (some (.block p false)) (p.after '/') t).outcome := by
  obtain ⟨t, rfl⟩ := List.head?_eq_some_iff.mp hstar
  have hbehind : src.Stands (p.skip 2).offset t := (h.tail_ascii (by decide)).tail_ascii (by decide)
  rw [skipBlock_bind (Nat.le_refl _) (fun _ => rfl) hbehind fun hlt => hgap (Nat.le_succ_of_le hlt.le)]
  refine (congrArg Scan.outcome (readGap_star true fun _ _ => Nat.lt_irrefl _)).symm.trans ?_
  rw [readGap, Scan.outcome_cons]
  simp [Comment.read]
  rfl

end

/-- **A gap in bytes is a gap in characters.**  The induction is on the length of the text.  Spaces
beyond ASCII are found by their first bytes; within comments the bytes of a character are passed
one by one, and none of them is a star, a slash or a line feed. -/
theorem skipTrivia_eq (h : src.Stands p.offset t) :
    src.skipTrivia p = (readGap none p t).outcome := by
  induction hn : t.length using Nat.strong_induction_on generalizing p t with
  | _ n ih =>
    subst hn
    cases t with
    | nil =>
      rw [skipTrivia_unfold, h.getElem?_end (Nat.le_refl _)]
      rfl
    | cons c t =>
      have hgap {q : Place} {u : Text} (hle : u.length ≤ t.length) (hq : src.Stands q.offset u) :
          src.skipTrivia q = (readGap none q u).outcome := ih _ (Nat.lt_succ_of_le hle) hq rfl
      by_cases hspace : isGapSpace c = true
      · rw [skipTrivia_space h hspace, readGap, if_pos hspace, Scan.outcome_cons]
        exact hgap (Nat.le_refl _) h.tail
      rw [skipTrivia_of_not_space h (Bool.eq_false_of_not_eq_true hspace), readGap, if_neg hspace]
      by_cases hline : c = '/' ∧ t.head? = some '/'
      · rw [if_pos hline, skipTrivia_line hgap (hline.1 ▸ h),
          opened?_eq_some_iff.mpr ⟨hline.1, .inl ⟨hline.2, rfl⟩⟩, hline.1]
        exact (Scan.outcome_cons _).symm
      rw [if_neg hline]
      by_cases hblock : c = '/' ∧ t.head? = some '*'
      · rw [if_pos hblock, skipTrivia_block hgap (hblock.1 ▸ h) hblock.2,
          opened?_eq_some_iff.mpr ⟨hblock.1, .inr ⟨hblock.2, rfl⟩⟩, hblock.1]
        exact (Scan.outcome_cons _).symm
      · rw [if_neg hblock, opened?_eq_none_iff.mpr (by tauto)]
        rfl

end Bytes

end Twinfold
