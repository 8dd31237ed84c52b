import Twinfold.Proofs.Token.ByteGaps

/-!
# Literals in bytes

Strings, templates and regular expressions come to the same end in bytes and in characters.  A
backslash jumps two bytes there and may land within a character, but nothing is cut out of the text
before the scan has left this character behind it.

The scanners of characters read the code of a substitution with a stack of frames, the scanners of
bytes call each other.  What connects them is that a stack is read frame by frame
(`followedBy_scanFrames_append`).

* `scanString_eq` — strings;
* `readAlike` — templates and the code in them, by induction on the length of what is left;
* `scanRegex_eq` — regular expressions with their flags.
-/

namespace Twinfold

/-! ### Frames -/

section

variable {α : Type}

/-- One character of a scan through frames, in front of whatever is done with what was found. -/
theorem followedBy_scanFrames_cons (f : Frame) (outer : List Frame) (p : Place) (c : Char) (t : Text)
    (g : Text → Place → ByteScan α) :
    (scanFrames (f :: outer) p (c :: t)).followedBy g =
      match f.read p c t.head? with
      | .error e => throw ⟨e, p.offset⟩
      | .ok frames => (scanFrames (frames ++ outer) (f.advance p c) t).followedBy g := by
  rw [scanFrames]
  cases f.read p c t.head? with
  | error e => rfl
  | ok frames => exact Scan.followedBy_cons c g

/-- One character of a scan through frames, seen from the bytes. -/
theorem outcome_scanFrames_cons (f : Frame) (outer : List Frame) (p : Place) (c : Char) (t : Text) :
    (scanFrames (f :: outer) p (c :: t)).outcome =
      match f.read p c t.head? with
      | .error e => throw ⟨e, p.offset⟩
      | .ok frames => (scanFrames (frames ++ outer) (f.advance p c) t).outcome :=
  followedBy_scanFrames_cons f outer p c t _

/-- **A stack of frames is read frame by frame.**  So what reads one construct in bytes can be
compared with its frames alone, and what comes behind with the others. -/
theorem followedBy_scanFrames_append (fs gs : List Frame) (p : Place) (t : Text)
    (g : Text → Place → ByteScan α) :
    (scanFrames (fs ++ gs) p t).followedBy g =
      (scanFrames fs p t).followedBy fun rest q => (scanFrames gs q rest).followedBy g := by
  induction t generalizing fs p with
  | nil =>
    cases fs with
    | nil => rfl
    | cons f fs =>
      rw [List.cons_append, scanFrames, scanFrames]
      cases hend : f.atEnd p with
      | found => exact absurd hend Frame.atEnd_ne_found
      | failed => rfl
  | cons c t ih =>
    cases fs with
    | nil => rfl
    | cons f fs =>
      rw [List.cons_append, followedBy_scanFrames_cons, followedBy_scanFrames_cons]
      cases f.read p c t.head? with
      | error e => rfl
      | ok frames =>
        dsimp only
        rw [← List.append_assoc, ih]

end

theorem Frame.advance_quoted (p : Place) (c quote : Char) (escaped : Bool) (opened : Place) :
    (Frame.quoted quote escaped opened).advance p c = p.after c := rfl

theorem Frame.advance_template (p : Place) (c : Char) (opened : Place) :
    (Frame.template false opened).advance p c = p.after c := rfl

theorem Frame.advance_code (p : Place) (c : Char) (depth : Nat) (comment : Option Comment)
    (opened : Place) : (Frame.code depth comment opened).advance p c = p.after c := rfl

theorem Frame.advance_regex (p : Place) (c : Char) (inClass : Bool) (opened : Place) :
    (Frame.regex false inClass opened).advance p c = p.after c := rfl

namespace Bytes

variable {src : Bytes} {p : Place} {c : Char} {t : Text}

/-! ### Strings -/

section

variable {d quote : Char} {opened : Place}

/-- In a string a byte is passed over that is no backslash, no line end and no quote. -/
theorem scanString_step {b close : UInt8} (hb : src[p.offset]? = some b) (hslash : b ≠ ascii '\\')
    (hline : b ≠ ascii '\n') (hend : b ≠ close) :
    src.scanString close opened p = src.scanString close opened (p.skip 1) := by
  rw [scanString_unfold, hb]
  simp only [hslash, hline, hend, if_false]

/-- A backslash takes the next character with it, and a line end that is this character is counted.
Of a longer character it takes the first byte, and the others are passed over one by one. -/
theorem scanString_escape (hquote : quote.toNat < 128)
    (h : src.Stands p.offset ('\\' :: d :: t)) :
    src.scanString (ascii quote) opened p =
      src.scanString (ascii quote) opened ((p.after '\\').after d) := by
  have htail : src.Stands (p.skip 1).offset (d :: t) := h.tail_ascii (by decide)
  obtain ⟨next, hnext⟩ := htail.exists_getElem?
  rw [scanString_unfold, h.getElem?_ascii (by decide)]
  simp only [show src[p.offset + 1]? = some next from hnext, if_true]
  by_cases hd : d = '\n'
  · subst hd
    rw [htail.getElem?_ascii (by decide), Option.some_inj] at hnext
    rw [if_pos hnext.symm]
    rfl
  · have hline : next ≠ ascii '\n' := by
      rintro rfl
      exact hd (by simpa using (htail.getElem?_eq_ascii_iff (by decide)).mp hnext)
    rw [if_neg hline, Place.after_eq_skip _ hd]
    exact htail.walks_rest (p := p.skip 1) fun q b hb hle _ => scanString_step hb
      (ne_ascii hle (by decide)) (ne_ascii hle (by decide)) (ne_ascii hle hquote)

/-- A backslash with nothing behind it is a character like any other. -/
theorem scanString_trailing (hquote : quote.toNat < 128) (hne : quote ≠ '\\')
    (h : src.Stands p.offset ['\\']) :
    src.scanString (ascii quote) opened p = giveUp .unterminatedString opened (p.offset + 1) := by
  have hend : src[p.offset + 1]? = none := (h.tail_ascii (by decide)).getElem?_end (Nat.le_refl _)
  have hq : ¬ascii '\\' = ascii quote := mt (ascii_eq_iff (by decide) hquote).mp hne.symm
  rw [scanString_unfold, h.getElem?_ascii (by decide), hend]
  simp only [ite_self]
  rw [if_neg (by decide), if_neg hq, scanString_unfold, Place.offset_skip, hend]

/-- Any other character of a string is passed over. -/
theorem scanString_char (hquote : quote.toNat < 128) (h : src.Stands p.offset (c :: t))
    (hslash : c ≠ '\\') (hline : c ≠ '\n') (hend : c ≠ quote) :
    src.scanString (ascii quote) opened p = src.scanString (ascii quote) opened (p.after c) := by
  rw [Place.after_eq_skip p hline]
  exact h.walks fun q b hb hother => scanString_step hb (hother _ (by decide) hslash.symm)
    (hother _ (by decide) hline.symm) (hother _ hquote hend.symm)

/-- **A string**, from behind its quote on.  A backslash jumps two bytes and may so land within a
character; its other bytes are beyond ASCII, so they neither close the string nor end the line, and
the scan comes to the next character. -/
theorem scanString_eq (hquote : quote.toNat < 128) (hne : quote ≠ '\\') (opened : Place)
    (h : src.Stands p.offset t) :
    src.scanString (ascii quote) opened p = (scanFrames [.quoted quote false opened] p t).outcome := by
  induction hn : t.length using Nat.strong_induction_on generalizing p t with
  | _ n ih =>
    subst hn
    cases t with
    | nil =>
      rw [scanString_unfold, h.getElem?_end (Nat.le_refl _)]
      rfl
    | cons c t =>
      rw [outcome_scanFrames_cons]
      by_cases hslash : c = '\\'
      · subst hslash
        cases t with
        | nil =>
          rw [scanString_trailing hquote hne h]
          rfl
        | cons d t =>
          have hbehind : src.Stands ((p.after '\\').after d).offset t :=
            Stands.tail (h.tail_ascii (by decide))
          rw [scanString_escape hquote h, ih _ (by simp only [List.length_cons]; omega) hbehind rfl]
          exact (outcome_scanFrames_cons (.quoted quote true opened) [] (p.after '\\') d t).symm
      by_cases hline : c = '\n'
      · subst hline
        rw [scanString_unfold, h.getElem?_ascii (by decide)]
        rfl
      simp only [Frame.read, hslash, hline, if_false, Frame.advance_quoted]
      by_cases hend : c = quote
      · subst hend
        rw [scanString_unfold, h.getElem?_ascii hquote, Place.after_eq_skip p hline]
        simp only [ascii_eq_iff hquote (d := '\\') (by decide),
          ascii_eq_iff hquote (d := '\n') (by decide), hslash, hline, if_false, if_true,
          utf8Size_of_ascii hquote]
        rw [List.append_nil, scanFrames]
        rfl
      · rw [if_neg hend, scanString_char hquote h hslash hline hend,
          ih _ (Nat.lt_succ_self _) (h := h.tail) rfl]
        rfl

end

/-! ### Templates -/

/-- The code of a substitution goes on behind a gap; a comment that is not closed is an error.  So
a comment in the code can be passed like one between tokens. -/
theorem outcome_code_gap (depth : Nat) (opened : Place) (k : Option Comment) (p : Place) (t : Text) :
    (scanFrames [.code depth k opened] p t).outcome =
      (readGap k p t).followedBy fun rest q =>
        (scanFrames [.code depth none opened] q rest).outcome := by
  induction t generalizing k p with
  | nil => rcases k with _ | _ | _ <;> rfl
  | cons c t ih =>
    rw [outcome_scanFrames_cons]
    cases k with
    | some k =>
      rw [readGap, Scan.followedBy_cons, ← ih]
      rfl
    | none =>
      simp only [Frame.read, Frame.readCode, Frame.advance_code]
      rw [readGap]
      by_cases hspace : isGapSpace c = true
      · have hnot : ∀ d : Char, isGapSpace d = false → c ≠ d := by
          rintro d hd rfl
          rw [hspace] at hd
          cases hd
        rw [if_pos hspace, Scan.followedBy_cons, ← ih,
          opened?_eq_none_iff.mpr fun hslash => hnot '/' (by decide) hslash.1]
        simp only [hnot '"' (by decide), hnot '\'' (by decide), hnot '`' (by decide),
          hnot '{' (by decide), hnot '}' (by decide), if_false]
        rfl
      · rw [if_neg hspace]
        cases hopened : Comment.opened? p c t.head? with
        | some k =>
          dsimp only
          rw [Scan.followedBy_cons, ← ih]
          rfl
        | none =>
          rw [show (Scan.found [] (c :: t) p).followedBy (fun rest q =>
            (scanFrames [.code depth none opened] q rest).outcome) =
              (scanFrames [.code depth none opened] p (c :: t)).outcome from rfl,
            outcome_scanFrames_cons]
          simp only [Frame.read, Frame.readCode, Frame.advance_code, hopened]

/-- Templates and substitutions of a length are read alike in bytes and in characters. -/
structure ReadAlike (src : Bytes) (n : Nat) : Prop where
  template : ∀ {p : Place} {t : Text}, t.length = n → src.Stands p.offset t → ∀ opened,
    src.scanTemplate opened p = (scanFrames [.template false opened] p t).outcome
  substitution : ∀ {p : Place} {t : Text}, t.length = n → src.Stands p.offset t → ∀ opened depth,
    src.scanSubstitution opened depth p =
      (scanFrames [.code (depth + 1) none opened] p t).outcome

/-- What was read with one frame is gone on with by another one. -/
theorem bind_eq_of_readAlike {f : Frame} {g : Frame} {scan : ByteScan Place}
    {more : Place → ByteScan Place} (h : src.Stands p.offset t)
    (hscan : scan = (scanFrames [f] p t).outcome)
    (hmore : ∀ {q : Place} {rest : Text}, rest.length ≤ t.length → src.Stands q.offset rest →
      more q = (scanFrames [g] q rest).outcome) :
    scan >>= more = (scanFrames [f, g] p t).outcome := by
  rw [hscan, Scan.outcome_bind, Scan.outcome, show [f, g] = [f] ++ [g] from rfl,
    followedBy_scanFrames_append]
  refine Scan.followedBy_congr fun taken rest q hfound => ?_
  obtain ⟨rfl, hoffset⟩ := eq_append_of_scanFrames hfound
  refine hmore ?_ (hoffset ▸ h.behind)
  rw [List.length_append]
  exact Nat.le_add_left _ _

section

variable {d : Char} {opened : Place} {depth : Nat}

/-- In a template a byte is passed over that is no backslash, no backtick and no line end, and does
not open a substitution. -/
theorem scanTemplate_step {b : UInt8} (hb : src[p.offset]? = some b) (hslash : b ≠ ascii '\\')
    (hend : b ≠ ascii '`') (hline : b ≠ ascii '\n')
    (hdollar : b = ascii '$' → src[p.offset + 1]? ≠ some (ascii '{')) :
    src.scanTemplate opened p = src.scanTemplate opened (p.skip 1) := by
  rw [scanTemplate_unfold, hb]
  simp only [hslash, hend, hline, if_false]
  rw [if_neg (by simpa using hdollar)]

/-- So no scan of a template stops inside a character. -/
theorem scanTemplate_step_of_le {b : UInt8} (hb : src[p.offset]? = some b) (hle : 0x80 ≤ b) :
    src.scanTemplate opened p = src.scanTemplate opened (p.skip 1) :=
  scanTemplate_step hb (ne_ascii hle (by decide)) (ne_ascii hle (by decide))
    (ne_ascii hle (by decide)) fun hdollar => absurd hdollar (ne_ascii hle (by decide))

/-- A backslash jumps two bytes. -/
theorem scanTemplate_jump (h : src.Stands p.offset ('\\' :: t)) :
    src.scanTemplate opened p = src.scanTemplate opened (p.skip 2) := by
  rw [scanTemplate_unfold, h.getElem?_ascii (by decide)]
  rfl

/-- Behind a dollar sign and a brace there is code. -/
theorem scanTemplate_dollar (h : src.Stands p.offset ('$' :: '{' :: t)) :
    src.scanTemplate opened p =
      src.scanSubstitution (p.skip 2) 0 (p.skip 2) >>= src.scanTemplate opened := by
  have htail : src.Stands (p.offset + 1) ('{' :: t) := h.tail_ascii (by decide)
  rw [scanTemplate_unfold, h.getElem?_ascii (by decide), htail.getElem?_ascii (by decide)]
  rfl

/-- Any other character of a template is passed over.  A dollar sign is such a character if no
brace follows it. -/
theorem scanTemplate_char (h : src.Stands p.offset (c :: t)) (hslash : c ≠ '\\') (hend : c ≠ '`')
    (hdollar : ¬(c = '$' ∧ t.head? = some '{')) :
    src.scanTemplate opened p = src.scanTemplate opened (p.after c) := by
  by_cases hline : c = '\n'
  · subst hline
    rw [scanTemplate_unfold, h.getElem?_ascii (by decide)]
    rfl
  rw [Place.after_eq_skip p hline]
  by_cases hc : c = '$'
  · subst hc
    have hbrace := (h.tail_ascii (by decide)).getElem?_eq_ascii_iff (d := '{') (by decide)
    exact scanTemplate_step (h.getElem?_ascii (by decide)) (by decide) (by decide) (by decide)
      fun _ hnext => hdollar ⟨rfl, hbrace.mp hnext⟩
  · exact h.walks fun q b hb hother => scanTemplate_step hb (hother _ (by decide) hslash.symm)
      (hother _ (by decide) hend.symm) (hother _ (by decide) (Ne.symm hline))
      fun hb' => absurd hb' (hother _ (by decide) (Ne.symm hc))

/-- **A template**, from behind its backtick on, if shorter ones are read alike.  A substitution is
left to the other scanner, on a text that is shorter. -/
theorem scanTemplate_eq_of_readAlike (ih : ∀ m < t.length, src.ReadAlike m)
    (h : src.Stands p.offset t) (opened : Place) :
    src.scanTemplate opened p = (scanFrames [.template false opened] p t).outcome := by
  cases t with
  | nil =>
    rw [scanTemplate_unfold, h.getElem?_end (Nat.le_refl _)]
    rfl
  | cons c t =>
    have hrest {q : Place} {u : Text} (hle : u.length ≤ t.length) (hq : src.Stands q.offset u) :
        src.scanTemplate opened q = (scanFrames [.template false opened] q u).outcome :=
      (ih _ (Nat.lt_succ_of_le hle)).template rfl hq opened
    rw [outcome_scanFrames_cons]
    by_cases hslash : c = '\\'
    · subst hslash
      cases t with
      | nil =>
        have hend : src[(p.skip 2).offset]? = none :=
          (h.tail_ascii (by decide)).getElem?_end (Nat.le_succ _)
        rw [scanTemplate_jump h, scanTemplate_unfold, hend]
        rfl
      | cons d t =>
        rw [h.walks_escape (scanTemplate_jump h) fun q b hb hle _ => scanTemplate_step_of_le hb hle,
          hrest (Nat.le_succ _) (Stands.tail (h.tail_ascii (by decide)))]
        exact (outcome_scanFrames_cons (.template true opened) [] (p.after '\\') d t).symm
    by_cases hend : c = '`'
    · subst hend
      rw [scanTemplate_unfold, h.getElem?_ascii (by decide)]
      simp only [Frame.read, hslash, if_false, if_true]
      rw [List.append_nil, scanFrames]
      rfl
    simp only [Frame.read, hslash, hend, if_false]
    by_cases hdollar : c = '$' ∧ t.head? = some '{'
    · obtain ⟨rfl, hhead⟩ := hdollar
      obtain ⟨t, rfl⟩ := List.head?_eq_some_iff.mp hhead
      have hcode : src.Stands (p.skip 2).offset t :=
        (h.tail_ascii (by decide)).tail_ascii (by decide)
      rw [scanTemplate_dollar h, bind_eq_of_readAlike hcode
        ((ih _ (Nat.lt_succ_of_le (Nat.le_succ _))).substitution rfl hcode _ _)
        fun hlt hq => hrest (Nat.le_trans hlt (Nat.le_succ _)) hq]
      simp only [List.head?_cons, decide_true, Bool.and_self, if_true, List.cons_append,
        List.nil_append]
      rw [outcome_scanFrames_cons]
      rfl
    · rw [if_neg (by simpa using hdollar), scanTemplate_char h hslash hend hdollar,
        hrest (Nat.le_refl _) h.tail]
      rfl

/-- What a substitution does at the byte `b`, which begins neither a space nor a comment. -/
theorem scanSubstitution_of_byte {q : Place} {b : UInt8} (htrivia : src.skipTrivia p = pure q)
    (hb : src[q.offset]? = some b) :
    src.scanSubstitution opened depth p =
      if b = ascii '"' ∨ b = ascii '\'' then
        src.scanString b q (q.skip 1) >>= src.scanSubstitution opened depth
      else if b = ascii '`' then
        src.scanTemplate q (q.skip 1) >>= src.scanSubstitution opened depth
      else if b = ascii '{' then src.scanSubstitution opened (depth + 1) (q.skip 1)
      else if b = ascii '}' then
        if depth = 0 then pure (q.skip 1) else src.scanSubstitution opened (depth - 1) (q.skip 1)
      else src.scanSubstitution opened depth (q.skip 1) := by
  rw [scanSubstitution_unfold, htrivia, pure_bind, hb]
  simp only [Bool.or_eq_true, decide_eq_true_eq]

/-- What a substitution does at a character that begins neither a space nor a comment.  The byte is
compared with ASCII characters only, as the character is; what is left of the character is passed
over. -/
theorem scanSubstitution_of_char {q : Place} (htrivia : src.skipTrivia p = pure q)
    (h : src.Stands q.offset (c :: t)) (hline : c ≠ '\n') :
    src.scanSubstitution opened depth p =
      if c = '"' ∨ c = '\'' then
        src.scanString (ascii c) q (q.after c) >>= src.scanSubstitution opened depth
      else if c = '`' then
        src.scanTemplate q (q.after c) >>= src.scanSubstitution opened depth
      else if c = '{' then src.scanSubstitution opened (depth + 1) (q.after c)
      else if c = '}' then
        if depth = 0 then pure (q.after c) else src.scanSubstitution opened (depth - 1) (q.after c)
      else src.scanSubstitution opened depth (q.after c) := by
  obtain ⟨b, hb⟩ := h.exists_getElem?
  have hbyte (d : Char) (hd : d.toNat < 128) : b = ascii d ↔ c = d := h.byte_eq_ascii_iff hb hd
  rw [scanSubstitution_of_byte htrivia hb, Place.after_eq_skip q hline]
  by_cases hc : c.toNat < 128
  · rw [(hbyte c hc).mpr rfl, utf8Size_of_ascii hc]
    simp only [ascii_eq_iff hc (d := '"') (by decide), ascii_eq_iff hc (d := '\'') (by decide),
      ascii_eq_iff hc (d := '`') (by decide), ascii_eq_iff hc (d := '{') (by decide),
      ascii_eq_iff hc (d := '}') (by decide)]
  · have hother (d : Char) (hd : d.toNat < 128) : c ≠ d := fun heq => hc (heq ▸ hd)
    simp only [hbyte '"' (by decide), hbyte '\'' (by decide), hbyte '`' (by decide),
      hbyte '{' (by decide), hbyte '}' (by decide), hother '"' (by decide), hother '\'' (by decide),
      hother '`' (by decide), hother '{' (by decide), hother '}' (by decide), or_self, if_false]
    refine h.walks_rest fun r b hb hle hwide => ?_
    have hne (d : Char) (hd : d.toNat < 128) : ¬b = ascii d := ne_ascii hle hd
    rw [scanSubstitution_of_byte (skipTrivia_of_le hb hle hwide) hb]
    simp only [hne '"' (by decide), hne '\'' (by decide), hne '`' (by decide),
      hne '{' (by decide), hne '}' (by decide), or_self, if_false]

/-- The code of a substitution is read alike from a character on that begins neither a space nor a
comment, if shorter templates and substitutions are.  Strings and templates in it are left to their
scanners, and braces are counted. -/
theorem scanSubstitution_found {q : Place} (htrivia : src.skipTrivia p = pure q)
    (h : src.Stands q.offset (c :: t)) (hstart : startsToken (c :: t))
    (ih : ∀ m ≤ t.length, src.ReadAlike m) :
    src.scanSubstitution opened depth p =
      (scanFrames [.code (depth + 1) none opened] q (c :: t)).outcome := by
  obtain ⟨hspace, hnone⟩ := startsToken_cons_iff.mp hstart
  have hline : c ≠ '\n' := by
    rintro rfl
    cases hspace
  have hcode {r : Place} {u : Text} (depth : Nat) (hle : u.length ≤ t.length)
      (hr : src.Stands r.offset u) : src.scanSubstitution opened depth r =
        (scanFrames [.code (depth + 1) none opened] r u).outcome :=
    (ih _ hle).substitution rfl hr opened depth
  have hbehind : src.Stands (q.after c).offset t := h.tail
  rw [scanSubstitution_of_char htrivia h hline, outcome_scanFrames_cons]
  simp only [Frame.read, Frame.readCode, hnone q, Frame.advance_code, Bool.or_eq_true,
    decide_eq_true_eq]
  by_cases hquote : c = '"' ∨ c = '\''
  · have hascii : c.toNat < 128 := by rcases hquote with rfl | rfl <;> decide
    have hne : c ≠ '\\' := by rcases hquote with rfl | rfl <;> decide
    rw [if_pos hquote, if_pos hquote, bind_eq_of_readAlike hbehind
      (scanString_eq hascii hne q hbehind) fun hle hr => hcode depth hle hr]
    rfl
  rw [if_neg hquote, if_neg hquote]
  by_cases htemplate : c = '`'
  · rw [if_pos htemplate, if_pos htemplate, bind_eq_of_readAlike hbehind
      ((ih _ (Nat.le_refl _)).template rfl hbehind q) fun hle hr => hcode depth hle hr]
    rfl
  rw [if_neg htemplate, if_neg htemplate]
  by_cases hopen : c = '{'
  · rw [if_pos hopen, if_pos hopen, hcode (depth + 1) (Nat.le_refl _) hbehind]
    rfl
  rw [if_neg hopen, if_neg hopen]
  by_cases hclose : c = '}'
  · rw [if_pos hclose, if_pos hclose]
    cases depth with
    | zero =>
      rw [if_pos rfl, if_pos (Nat.le_refl _), List.append_nil, scanFrames]
      rfl
    | succ depth =>
      rw [if_neg (Nat.succ_ne_zero _), if_neg (by omega), hcode _ (Nat.le_refl _) hbehind]
      rfl
  · rw [if_neg hclose, if_neg hclose, hcode depth (Nat.le_refl _) hbehind]
    rfl

/-- **A substitution**, from behind its opening brace on, if shorter ones are read alike.  The gap in
front is read first, in which comments are passed over. -/
theorem scanSubstitution_eq_of_readAlike (ih : ∀ m < t.length, src.ReadAlike m)
    (h : src.Stands p.offset t) (opened : Place) (depth : Nat) :
    src.scanSubstitution opened depth p =
      (scanFrames [.code (depth + 1) none opened] p t).outcome := by
  rw [outcome_code_gap]
  cases hgap : readGap none p t with
  | failed e stopped =>
    rw [scanSubstitution_unfold, skipTrivia_eq h, hgap]
    rfl
  | found gap rest q =>
    have htrivia : src.skipTrivia p = pure q := by
      rw [skipTrivia_eq h, hgap]
      rfl
    obtain ⟨rfl, hoffset⟩ := eq_append_of_readGap hgap
    have hq : src.Stands q.offset rest := hoffset ▸ h.behind
    change _ = (scanFrames [.code (depth + 1) none opened] q rest).outcome
    cases rest with
    | nil =>
      rw [scanSubstitution_unfold, htrivia, pure_bind, hq.getElem?_end (Nat.le_refl _)]
      rfl
    | cons c t =>
      refine scanSubstitution_found htrivia hq
        (startsToken_of_readGap hgap (List.cons_ne_nil c t)) fun m hm => ih m ?_
      rw [List.length_append, List.length_cons]
      omega

end

/-- **Templates and substitutions** of every length are read alike.  The induction is on the
length, for both at once, since each of them may hold the other. -/
theorem readAlike (src : Bytes) (n : Nat) : src.ReadAlike n := by
  induction n using Nat.strong_induction_on with
  | _ n ih =>
    constructor
    · rintro p t rfl h opened
      exact scanTemplate_eq_of_readAlike ih h opened
    · rintro p t rfl h opened depth
      exact scanSubstitution_eq_of_readAlike ih h opened depth

theorem scanTemplate_eq (h : src.Stands p.offset t) (opened : Place) :
    src.scanTemplate opened p = (scanFrames [.template false opened] p t).outcome :=
  (src.readAlike _).template rfl h opened

/-! ### Regular expressions -/

/-- Flags: every byte beyond ASCII is one, as every character beyond ASCII is.  So the flags end
where a character ends. -/
theorem scanFlags_eq (h : src.Stands p.offset t) :
    src.scanFlags p = pure (p.pastText (t.takeWhile continuesIdent)) := by
  have hskip : ∀ (q : Place) (b : UInt8), src[q.offset]? = some b → continuesIdentByte b = true →
      src.scanFlags q = src.scanFlags (q.skip 1) := by
    intro q b hb hcontinues
    rw [scanFlags_unfold, hb]
    exact if_pos hcontinues
  induction t generalizing p with
  | nil =>
    rw [scanFlags_unfold, h.getElem?_end (Nat.le_refl _)]
    rfl
  | cons c t ih =>
    by_cases hc : c.toNat < 128
    · by_cases hcontinues : continuesIdent c = true
      · rw [hskip p _ (h.getElem?_ascii hc) (by rwa [continuesIdentByte_ascii hc]),
          ih (p := p.skip 1) (h.tail_ascii hc), List.takeWhile_cons_of_pos hcontinues]
        simp only [Place.pastText, Place.skip, Text.size_cons, utf8Size_of_ascii hc, Nat.add_assoc]
      · rw [scanFlags_unfold, h.getElem?_ascii hc, List.takeWhile_cons_of_neg hcontinues]
        exact if_neg (by rwa [continuesIdentByte_ascii hc])
    · obtain ⟨b, hb, hle⟩ := h.exists_first_byte (Nat.not_lt.mp hc)
      rw [hskip p b hb (continuesIdentByte_of_le hle), h.walks_rest (f := src.scanFlags),
        ih h.tail, List.takeWhile_cons_of_pos (continuesIdent_of_le (Nat.not_lt.mp hc))]
      · simp only [Place.pastText, Place.skip, Text.size_cons, Nat.add_assoc]
      · exact fun q b hb hle _ => hskip q b hb (continuesIdentByte_of_le hle)

section

variable {opened : Place} {inClass : Bool}

/-- In a regular expression a byte is passed over that ends no line and is no backslash and no
bracket, and no slash outside of brackets. -/
theorem scanRegex_step {b : UInt8} (hb : src[p.offset]? = some b) (hline : b ≠ ascii '\n')
    (hslash : b ≠ ascii '\\') (hopen : b ≠ ascii '[') (hclose : b ≠ ascii ']')
    (hend : b = ascii '/' → inClass = true) :
    src.scanRegex opened inClass p = src.scanRegex opened inClass (p.skip 1) := by
  rw [scanRegex_unfold, hb]
  simp only [hline, hslash, hopen, hclose, if_false]
  rw [if_neg (by simpa using hend)]

/-- So no scan of a regular expression stops inside a character. -/
theorem scanRegex_step_of_le {b : UInt8} (hb : src[p.offset]? = some b) (hle : 0x80 ≤ b) :
    src.scanRegex opened inClass p = src.scanRegex opened inClass (p.skip 1) :=
  scanRegex_step hb (ne_ascii hle (by decide)) (ne_ascii hle (by decide)) (ne_ascii hle (by decide))
    (ne_ascii hle (by decide)) fun hend => absurd hend (ne_ascii hle (by decide))

/-- A backslash jumps two bytes here, too. -/
theorem scanRegex_jump (h : src.Stands p.offset ('\\' :: t)) :
    src.scanRegex opened inClass p = src.scanRegex opened inClass (p.skip 2) := by
  rw [scanRegex_unfold, h.getElem?_ascii (by decide)]
  rfl

/-- What a regular expression does at a character that ends no line and is no backslash.  In a
class a slash does not end it. -/
theorem scanRegex_of_char (h : src.Stands p.offset (c :: t)) (hline : c ≠ '\n') (hslash : c ≠ '\\') :
    src.scanRegex opened inClass p =
      if c = '[' then src.scanRegex opened true (p.after c)
      else if c = ']' then src.scanRegex opened false (p.after c)
      else if c = '/' ∧ inClass = false then src.scanFlags (p.after c)
      else src.scanRegex opened inClass (p.after c) := by
  rw [Place.after_eq_skip p hline]
  by_cases hopen : c = '['
  · subst hopen
    rw [scanRegex_unfold, h.getElem?_ascii (by decide)]
    rfl
  by_cases hclose : c = ']'
  · subst hclose
    rw [scanRegex_unfold, h.getElem?_ascii (by decide)]
    rfl
  by_cases hend : c = '/' ∧ inClass = false
  · obtain ⟨rfl, rfl⟩ := hend
    rw [scanRegex_unfold, h.getElem?_ascii (by decide)]
    rfl
  rw [if_neg hopen, if_neg hclose, if_neg hend]
  refine h.walks fun q b hb hother => ?_
  refine scanRegex_step hb (hother _ (by decide) hline.symm) (hother _ (by decide) hslash.symm)
    (hother _ (by decide) (Ne.symm hopen)) (hother _ (by decide) (Ne.symm hclose)) fun hb' => ?_
  by_contra hout
  refine hother '/' (by decide) ?_ hb'
  rintro rfl
  exact hend ⟨rfl, Bool.eq_false_of_not_eq_true hout⟩

/-- **A regular expression**, from behind its opening slash on.  Brackets are kept track of, and the
flags are read behind the closing slash. -/
theorem scanRegex_eq (opened : Place) (inClass : Bool) (h : src.Stands p.offset t) :
    src.scanRegex opened inClass p =
      (scanFrames [.regex false inClass opened] p t).withFlags.outcome := by
  rw [Scan.outcome_withFlags]
  induction hn : t.length using Nat.strong_induction_on generalizing p t inClass with
  | _ n ih =>
    subst hn
    cases t with
    | nil =>
      rw [scanRegex_unfold, h.getElem?_end (Nat.le_refl _)]
      rfl
    | cons c t =>
      have hbehind : src.Stands (p.after c).offset t := h.tail
      rw [followedBy_scanFrames_cons]
      by_cases hline : c = '\n'
      · subst hline
        rw [scanRegex_unfold, h.getElem?_ascii (by decide)]
        rfl
      simp only [Frame.read, hline, if_false, Frame.advance_regex]
      by_cases hslash : c = '\\'
      · subst hslash
        rw [if_pos rfl]
        cases t with
        | nil =>
          have hend : src[(p.skip 2).offset]? = none := hbehind.getElem?_end (Nat.le_succ _)
          rw [scanRegex_jump h, scanRegex_unfold, hend]
          rfl
        | cons d t =>
          rw [h.walks_escape (scanRegex_jump h) fun q b hb hle _ => scanRegex_step_of_le hb hle,
            ih _ (by simp only [List.length_cons]; omega) inClass (Stands.tail hbehind) rfl]
          exact (followedBy_scanFrames_cons (.regex true inClass opened) [] (p.skip 1) d t _).symm
      rw [if_neg hslash, scanRegex_of_char h hline hslash]
      by_cases hopen : c = '['
      · rw [if_pos hopen, if_pos hopen, ih _ (Nat.lt_succ_self _) true hbehind rfl]
        rfl
      rw [if_neg hopen, if_neg hopen]
      by_cases hclose : c = ']'
      · rw [if_pos hclose, if_pos hclose, ih _ (Nat.lt_succ_self _) false hbehind rfl]
        rfl
      rw [if_neg hclose, if_neg hclose]
      by_cases hend : c = '/' ∧ inClass = false
      · rw [if_pos hend, if_pos (by simpa using hend), scanFlags_eq hbehind]
        dsimp only
        rw [List.append_nil, scanFrames]
        rfl
      · rw [if_neg hend, if_neg (by simpa using hend), ih _ (Nat.lt_succ_self _) inClass hbehind rfl]
        rfl

end

end Bytes

end Twinfold
