import Mathlib.Data.List.Forall2
import Mathlib.Tactic.SplitIfs
import Twinfold.Token.Lexer

/-!
# What a scan depends on

A scanner is handed a place, and it sees everything that is left of a text.  What it takes
depends on little of this.

* The place does not count: a block comment only compares offsets with the place where it was
  opened, so moving both changes nothing (`readGap_moved`, `scanFrames_moved`).
* What stands behind a literal does not count: when its last frame is closed, the next
  character is no longer looked at (`scanFrames_append`).
* What stands behind a gap counts only in that a token has to begin there
  (`readGap_append`).
-/

namespace Twinfold

/-! ### Scans -/

/-- What was taken begins with the character that was put in front. -/
@[simp] theorem Scan.cons_eq_found_iff {c : Char} {s : Scan} {taken rest : Text} {p : Place} :
    s.cons c = .found taken rest p ↔ ∃ taken', taken = c :: taken' ∧ s = .found taken' rest p := by
  cases s with
  | found a b q =>
    simp only [cons, Scan.found.injEq]
    constructor
    · rintro ⟨rfl, rfl, rfl⟩
      exact ⟨a, rfl, rfl, rfl, rfl⟩
    · rintro ⟨_, rfl, rfl, rfl, rfl⟩
      exact ⟨rfl, rfl, rfl⟩
  | failed e o => simp [cons]

theorem Scan.cons_eq_failed_iff {c : Char} {s : Scan} {e : ParseError} {n : Nat} :
    s.cons c = .failed e n ↔ s = .failed e n := by
  cases s <;> simp [cons]

/-! ### Places -/

@[simp] theorem Text.size_nil : Text.size [] = 0 := rfl

@[simp] theorem Text.size_cons (c : Char) (t : Text) :
    Text.size (c :: t) = c.utf8Size + Text.size t := rfl

/-- Sizes of texts one behind the other are added. -/
@[simp] theorem Text.size_append (t u : Text) : Text.size (t ++ u) = t.size + u.size := by
  induction t with
  | nil => simp
  | cons c t ih => simp [ih, Nat.add_assoc]

@[simp] theorem Place.offset_after (p : Place) (c : Char) :
    (p.after c).offset = p.offset + c.utf8Size := rfl

@[simp] theorem Place.offset_past (p : Place) (c : Char) :
    (p.past c).offset = p.offset + c.utf8Size := rfl

@[simp] theorem Place.offset_pastText (p : Place) (t : Text) :
    (p.pastText t).offset = p.offset + t.size := rfl

/-- Every character is passed by as many bytes as it has. -/
@[simp] theorem Frame.offset_advance (p : Place) (c : Char) (f : Frame) :
    (f.advance p c).offset = p.offset + c.utf8Size := by
  unfold advance
  split <;> rfl

/-! ### Moving a scan -/

/-- Two comments that are the same when the offset `a` is moved to `b`. -/
def Comment.Aligned (a b : Nat) : Option Comment → Option Comment → Prop
  | none, none => True
  | some .line, some .line => True
  | some (.block opened star), some (.block opened' star') =>
    star = star' ∧ a + opened'.offset = b + opened.offset
  | _, _ => False

namespace Comment

variable {a b : Nat} {p q : Place} {k k' : Option Comment}

theorem Aligned.add (n : Nat) (h : Aligned a b k k') : Aligned (a + n) (b + n) k k' := by
  rcases k with _ | _ | _ <;> rcases k' with _ | _ | _ <;> simp_all only [Aligned]
  exact ⟨trivial, by omega⟩

/-- Comments begin at the same characters wherever they stand. -/
theorem aligned_opened? (c : Char) (next : Option Char) :
    Aligned p.offset q.offset (opened? p c next) (opened? q c next) := by
  unfold opened?
  split
  · trivial
  · split
    · exact ⟨rfl, Nat.add_comm _ _⟩
    · trivial

/-- One character does the same to two comments that were opened at the same distance.  The frames
that come of it are aligned again, since what is opened is opened at the two places.  Of the places
that a frame remembers only the distance to an open comment counts. -/
theorem aligned_read {k k' : Comment} (c : Char) (h : Aligned p.offset q.offset (some k) (some k')) :
    Aligned p.offset q.offset (k.read p c) (k'.read q c) := by
  rcases k with _ | ⟨opened, star⟩ <;> rcases k' with _ | ⟨opened', star'⟩
  · by_cases hc : c = '\n' <;> simp [read, hc, Aligned]
  · exact h.elim
  · exact h.elim
  · obtain ⟨rfl, hoffset⟩ := h
    have hiff : opened'.offset + 2 < q.offset ↔ opened.offset + 2 < p.offset := by omega
    simp only [read, hiff]
    split
    · trivial
    · exact ⟨rfl, hoffset⟩

end Comment

/-- **Gaps do not depend on places.**  All that counts of places is how far behind its opening a
comment is. -/
theorem readGap_moved {k k' : Option Comment} {p q : Place} {t taken rest : Text} {p' : Place}
    (halign : Comment.Aligned p.offset q.offset k k')
    (h : readGap k p t = .found taken rest p') : ∃ q', readGap k' q t = .found taken rest q' := by
  induction t generalizing k k' p q taken with
  | nil =>
    rcases k with _ | _ | _ <;> rcases k' with _ | _ | _ <;>
      simp_all [readGap, Comment.Aligned, Comment.atEnd]
  | cons c t ih =>
    have hstep : ∀ {l l' : Option Comment}, Comment.Aligned p.offset q.offset l l' →
        (readGap l (p.after c) t).cons c = .found taken rest p' →
        ∃ q', (readGap l' (q.after c) t).cons c = .found taken rest q' := by
      intro l l' hl hfound
      obtain ⟨taken', rfl, hinner⟩ := Scan.cons_eq_found_iff.mp hfound
      obtain ⟨q', hmoved⟩ := ih (p := p.after c) (q := q.after c) (hl.add _) hinner
      exact ⟨q', Scan.cons_eq_found_iff.mpr ⟨taken', rfl, hmoved⟩⟩
    rcases k with _ | k <;> rcases k' with _ | k'
    · simp only [readGap] at h ⊢
      split
      · rw [if_pos ‹_›] at h
        exact @hstep none none trivial h
      · rw [if_neg ‹_›] at h
        have hopened := Comment.aligned_opened? (p := p) (q := q) c t.head?
        rcases hp : Comment.opened? p c t.head? with _ | l <;>
          rcases hq : Comment.opened? q c t.head? with _ | l' <;> rw [hp, hq] at hopened
        · rw [hp] at h
          simp only [Scan.found.injEq] at h ⊢
          exact ⟨q, h.1, h.2.1, rfl⟩
        · exact hopened.elim
        · rcases l with _ | _ <;> exact hopened.elim
        · rw [hp] at h
          exact hstep hopened h
    · rcases k' with _ | _ <;> exact halign.elim
    · rcases k with _ | _ <;> exact halign.elim
    · exact hstep (Comment.aligned_read c halign) h

/-- A gap that is read at one place is read at every place. -/
theorem readGap_anywhere {p : Place} {t taken rest : Text} {p' : Place}
    (h : readGap none p t = .found taken rest p') (q : Place) :
    ∃ q', readGap none q t = .found taken rest q' := by
  have halign : Comment.Aligned p.offset q.offset none none := trivial
  exact readGap_moved halign h

/-- Two frames that are the same when the offset `a` is moved to `b`. -/
def Frame.Aligned (a b : Nat) : Frame → Frame → Prop
  | .quoted quote escaped _, .quoted quote' escaped' _ => quote = quote' ∧ escaped = escaped'
  | .template escaped _, .template escaped' _ => escaped = escaped'
  | .code depth comment _, .code depth' comment' _ =>
    depth = depth' ∧ Comment.Aligned a b comment comment'
  | .regex escaped inClass _, .regex escaped' inClass' _ => escaped = escaped' ∧ inClass = inClass'
  | _, _ => False

namespace Frame

variable {a b : Nat} {p q : Place} {f g : Frame}

theorem Aligned.add (n : Nat) (h : Aligned a b f g) : Aligned (a + n) (b + n) f g := by
  cases f <;> cases g <;> first | exact h | exact ⟨h.1, h.2.add n⟩

/-- One character of substitution code does the same at two places, but for where the frames that
it opens say that they were opened. -/
theorem aligned_readCode (depth : Nat) (opened opened' : Place) (c : Char) (next : Option Char) :
    List.Forall₂ (Aligned p.offset q.offset) (readCode depth opened p c next)
      (readCode depth opened' q c next) := by
  have hopened := Comment.aligned_opened? (p := p) (q := q) c next
  unfold readCode
  rcases hp : Comment.opened? p c next with _ | k <;>
    rcases hq : Comment.opened? q c next with _ | k' <;> rw [hp, hq] at hopened
  · dsimp only
    split
    · exact .cons ⟨rfl, rfl⟩ (.cons ⟨rfl, trivial⟩ .nil)
    · split
      · exact .cons rfl (.cons ⟨rfl, trivial⟩ .nil)
      · split
        · exact .cons ⟨rfl, trivial⟩ .nil
        · split
          · split
            · exact .nil
            · exact .cons ⟨rfl, trivial⟩ .nil
          · exact .cons ⟨rfl, trivial⟩ .nil
  · exact hopened.elim
  · rcases k with _ | _ <;> exact hopened.elim
  · exact .cons ⟨rfl, hopened⟩ .nil

/-- Aligned frames read a character in the same way. -/
theorem aligned_read {c : Char} {next : Option Char} {fs : List Frame}
    (halign : Aligned p.offset q.offset f g) (h : f.read p c next = .ok fs) :
    ∃ gs, g.read q c next = .ok gs ∧ List.Forall₂ (Aligned p.offset q.offset) fs gs := by
  rcases f with ⟨quote, escaped, _⟩ | ⟨escaped, _⟩ | ⟨depth, comment, opened⟩ | ⟨escaped, inClass, _⟩ <;>
    rcases g with ⟨_, _, _⟩ | ⟨_, _⟩ | ⟨_, comment', opened'⟩ | ⟨_, _, _⟩ <;>
    first | exact halign.elim | skip
  · obtain ⟨rfl, rfl⟩ := halign
    cases escaped <;> simp only [read] at h ⊢
    · split_ifs at h ⊢ <;> cases h <;> exact ⟨_, rfl, by simp [Aligned]⟩
    · cases h
      exact ⟨_, rfl, by simp [Aligned]⟩
  · obtain rfl := halign
    cases escaped <;> simp only [read] at h ⊢
    · split_ifs at h ⊢ <;> cases h <;> exact ⟨_, rfl, by simp [Aligned, Comment.Aligned]⟩
    · cases h
      exact ⟨_, rfl, by simp [Aligned]⟩
  · obtain ⟨rfl, hcomment⟩ := halign
    rcases comment with _ | k <;> rcases comment' with _ | k'
    · cases h
      exact ⟨_, rfl, aligned_readCode depth opened opened' c next⟩
    · rcases k' with _ | _ <;> exact hcomment.elim
    · rcases k with _ | _ <;> exact hcomment.elim
    · cases h
      exact ⟨_, rfl, .cons ⟨rfl, Comment.aligned_read c hcomment⟩ .nil⟩
  · obtain ⟨rfl, rfl⟩ := halign
    cases escaped <;> simp only [read] at h ⊢
    · split_ifs at h ⊢ <;> cases h <;> exact ⟨_, rfl, by simp [Aligned]⟩
    · cases h
      exact ⟨_, rfl, by simp [Aligned]⟩

/-- A text that ends inside a frame is not read. -/
theorem atEnd_ne_found {p q : Place} {taken rest : Text} : f.atEnd p ≠ .found taken rest q := by
  unfold atEnd
  split <;> simp [Comment.atEnd]

end Frame

/-- **Literals do not depend on places.**  The induction is along the text, for all frames at once.
-/
theorem scanFrames_moved {fs gs : List Frame} {p q : Place} {t taken rest : Text} {p' : Place}
    (halign : List.Forall₂ (Frame.Aligned p.offset q.offset) fs gs)
    (h : scanFrames fs p t = .found taken rest p') :
    ∃ q', scanFrames gs q t = .found taken rest q' := by
  induction t generalizing fs gs p q taken with
  | nil =>
    cases halign with
    | nil =>
      simp only [scanFrames, Scan.found.injEq] at h ⊢
      exact ⟨q, h.1, h.2.1, rfl⟩
    | cons => exact absurd h Frame.atEnd_ne_found
  | cons c t ih =>
    cases halign with
    | nil =>
      simp only [scanFrames, Scan.found.injEq] at h ⊢
      exact ⟨q, h.1, h.2.1, rfl⟩
    | @cons f g fs gs hfg hfs =>
      simp only [scanFrames] at h ⊢
      split at h
      · cases h
      · rename_i inner hread
        obtain ⟨inner', hread', hinner⟩ := Frame.aligned_read hfg hread
        obtain ⟨taken', rfl, hfound⟩ := Scan.cons_eq_found_iff.mp h
        have hall : List.Forall₂ (Frame.Aligned (f.advance p c).offset (g.advance q c).offset)
            (inner ++ fs) (inner' ++ gs) := by
          rw [Frame.offset_advance, Frame.offset_advance]
          exact List.rel_append (hinner.imp fun _ _ h => h.add _) (hfs.imp fun _ _ h => h.add _)
        obtain ⟨q', hmoved⟩ := ih hall hfound
        rw [hread']
        exact ⟨q', Scan.cons_eq_found_iff.mpr ⟨taken', rfl, hmoved⟩⟩

/-! ### What stands behind -/

/-- A scan of frames takes a front of the text and stands behind it.  By induction along the text.
-/
theorem eq_append_of_scanFrames {fs : List Frame} {p : Place} {t taken rest : Text} {p' : Place}
    (h : scanFrames fs p t = .found taken rest p') :
    t = taken ++ rest ∧ p'.offset = p.offset + taken.size := by
  induction t generalizing fs p taken with
  | nil =>
    cases fs with
    | nil =>
      cases h
      exact ⟨rfl, rfl⟩
    | cons f fs => exact absurd h Frame.atEnd_ne_found
  | cons c t ih =>
    cases fs with
    | nil =>
      cases h
      exact ⟨rfl, rfl⟩
    | cons f fs =>
      simp only [scanFrames] at h
      split at h
      · cases h
      · obtain ⟨taken', rfl, hfound⟩ := Scan.cons_eq_found_iff.mp h
        obtain ⟨htext, hoffset⟩ := ih hfound
        rw [Frame.offset_advance] at hoffset
        exact ⟨by rw [htext, List.cons_append], by rw [hoffset, Text.size_cons]; omega⟩

/-- A character that closes a frame does so whatever follows it.  The next character is looked at
only where something may be opened or go on. -/
theorem Frame.read_eq_nil {f : Frame} {p : Place} {c : Char} {next : Option Char}
    (h : f.read p c next = .ok []) (next' : Option Char) : f.read p c next' = .ok [] := by
  rcases f with ⟨quote, _ | _, _⟩ | ⟨_ | _, _⟩ | ⟨depth, _ | k, opened⟩ | ⟨_ | _, inClass, _⟩ <;>
    simp only [read, Except.ok.injEq, List.cons_ne_nil] at h ⊢
  · split_ifs at h ⊢ <;> simp_all
  · split_ifs at h <;> simp_all
  · have hclosed : ∀ next, Comment.opened? p '}' next = none := by
      intro next
      simp [Comment.opened?]
    unfold readCode at h ⊢
    split at h
    · cases h
    · split_ifs at h with _ _ _ hc
      subst hc
      rw [hclosed]
      simp_all
  · split_ifs at h ⊢ <;> simp_all

/-- As long as a frame is open something is taken. -/
theorem eq_nil_of_scanFrames {fs : List Frame} {p : Place} {t rest : Text} {p' : Place}
    (h : scanFrames fs p t = .found [] rest p') : fs = [] := by
  cases fs with
  | nil => rfl
  | cons f fs =>
    cases t with
    | nil => exact absurd h Frame.atEnd_ne_found
    | cons c t =>
      simp only [scanFrames] at h
      split at h
      · cases h
      · obtain ⟨_, hnil, _⟩ := Scan.cons_eq_found_iff.mp h
        cases hnil

/-- **Literals end by themselves.**  What stands behind a literal is not looked at.  One character
behind the one that is read is looked at, to see whether a substitution or a comment begins, and
that one belongs to the literal. -/
theorem scanFrames_append {fs : List Frame} {p : Place} {taken rest : Text} {p' : Place}
    (h : scanFrames fs p (taken ++ rest) = .found taken rest p') (rest' : Text) :
    scanFrames fs p (taken ++ rest') = .found taken rest' p' := by
  induction taken generalizing fs p with
  | nil =>
    obtain rfl := eq_nil_of_scanFrames h
    rw [List.nil_append, scanFrames] at h ⊢
    simp_all
  | cons c taken ih =>
    cases fs with
    | nil => cases h
    | cons f fs =>
      simp only [List.cons_append, scanFrames] at h ⊢
      split at h
      · cases h
      · rename_i inner hread
        obtain ⟨_, hcons, hfound⟩ := Scan.cons_eq_found_iff.mp h
        cases hcons
        -- The next character counts only while there is one to be taken.
        have hsame : f.read p c (taken ++ rest').head? = .ok inner := by
          cases taken with
          | cons d taken => exact hread
          | nil =>
            obtain ⟨rfl, _⟩ := List.append_eq_nil_iff.mp (eq_nil_of_scanFrames hfound)
            exact Frame.read_eq_nil hread _
        rw [hsame]
        exact Scan.cons_eq_found_iff.mpr ⟨taken, rfl, ih hfound⟩

/-- A literal that is a whole text is read in front of any other. -/
theorem scanFrames_extend {fs : List Frame} {p : Place} {taken : Text} {p' : Place}
    (h : scanFrames fs p taken = .found taken [] p') (rest : Text) :
    scanFrames fs p (taken ++ rest) = .found taken rest p' := by
  have h' : scanFrames fs p (taken ++ []) = .found taken [] p' := by rwa [List.append_nil]
  exact scanFrames_append h' rest

/-- A scan of a gap takes a front of the text and stands behind it.  Positions count bytes, so a
character adds as many as it has in UTF-8. -/
theorem eq_append_of_readGap {k : Option Comment} {p : Place} {t taken rest : Text} {p' : Place}
    (h : readGap k p t = .found taken rest p') :
    t = taken ++ rest ∧ p'.offset = p.offset + taken.size := by
  induction t generalizing k p taken with
  | nil => rcases k with _ | _ | _ <;> simp_all [readGap, Comment.atEnd]
  | cons c t ih =>
    have hstep : ∀ {l : Option Comment}, (readGap l (p.after c) t).cons c = .found taken rest p' →
        c :: t = taken ++ rest ∧ p'.offset = p.offset + taken.size := by
      intro l hfound
      obtain ⟨taken', rfl, hinner⟩ := Scan.cons_eq_found_iff.mp hfound
      obtain ⟨htext, hoffset⟩ := ih hinner
      rw [Place.offset_after] at hoffset
      exact ⟨by rw [htext, List.cons_append], by rw [hoffset, Text.size_cons]; omega⟩
    rcases k with _ | k
    · simp only [readGap] at h
      split at h
      · exact hstep h
      · split at h
        · exact hstep h
        · cases h
          exact ⟨rfl, rfl⟩
    · exact hstep h

/-- Whether a token begins at the front of a text: there is a character, and it is no space
and opens no comment. -/
def startsToken : Text → Bool
  | [] => false
  | c :: t => !isGapSpace c && !(c = '/' && (t.head? = some '/' || t.head? = some '*'))

/-- Which comment begins, by its first two characters. -/
theorem opened?_eq_some_iff {p : Place} {c : Char} {next : Option Char} {k : Comment} :
    Comment.opened? p c next = some k ↔
      c = '/' ∧ (next = some '/' ∧ k = .line ∨ next = some '*' ∧ k = .block p false) := by
  unfold Comment.opened?
  by_cases hc : c = '/'
  · by_cases hslash : next = some '/'
    · simp [hc, hslash, eq_comm]
    · by_cases hstar : next = some '*' <;> simp [hc, hslash, hstar, eq_comm]
  · simp [hc]

/-- No comment begins unless a slash is followed by a slash or a star. -/
theorem opened?_eq_none_iff {p : Place} {c : Char} {next : Option Char} :
    Comment.opened? p c next = none ↔ ¬(c = '/' ∧ (next = some '/' ∨ next = some '*')) := by
  unfold Comment.opened?
  by_cases hc : c = '/'
  · by_cases hslash : next = some '/'
    · simp [hc, hslash]
    · by_cases hstar : next = some '*' <;> simp [hc, hslash, hstar]
  · simp [hc]

/-- A token begins where neither a space nor a comment does. -/
theorem startsToken_cons_iff {c : Char} {t : Text} :
    startsToken (c :: t) ↔ isGapSpace c = false ∧ ∀ p, Comment.opened? p c t.head? = none := by
  have : Nonempty Place := ⟨.start⟩
  simp only [opened?_eq_none_iff, forall_const]
  by_cases hc : c = '/' <;> simp [startsToken, hc]

/-- A gap ends where a token begins. -/
theorem readGap_of_startsToken {t : Text} (h : startsToken t) (p : Place) :
    readGap none p t = .found [] t p := by
  cases t with
  | nil => cases h
  | cons c t =>
    obtain ⟨hspace, hopened⟩ := startsToken_cons_iff.mp h
    simp [readGap, hspace, hopened p]

/-- What is left behind a gap begins with a token.  It stopped there, so what begins there is
neither a space nor a comment. -/
theorem startsToken_of_readGap {k : Option Comment} {p : Place} {t taken rest : Text} {p' : Place}
    (h : readGap k p t = .found taken rest p') (hrest : rest ≠ []) : startsToken rest := by
  induction t generalizing k p taken with
  | nil => rcases k with _ | _ | _ <;> simp_all [readGap, Comment.atEnd]
  | cons c t ih =>
    have hstep : ∀ {l : Option Comment}, (readGap l (p.after c) t).cons c = .found taken rest p' →
        startsToken rest := by
      intro l hfound
      obtain ⟨taken', rfl, hinner⟩ := Scan.cons_eq_found_iff.mp hfound
      exact ih hinner
    rcases k with _ | k
    · simp only [readGap] at h
      split at h
      · exact hstep h
      · rename_i hspace
        split at h
        · exact hstep h
        · rename_i hopened
          cases h
          rw [startsToken_cons_iff]
          simp only [opened?_eq_none_iff] at hopened ⊢
          exact ⟨by simpa using hspace, fun _ => hopened⟩
    · exact hstep h

/-- **Gaps end where tokens begin.**  What stands behind a gap counts only in that a token
begins there. -/
theorem readGap_append {k : Option Comment} {p : Place} {gap rest : Text} {p' : Place}
    (h : readGap k p (gap ++ rest) = .found gap rest p') (hrest : rest ≠ []) {rest' : Text}
    (hstart : startsToken rest') : readGap k p (gap ++ rest') = .found gap rest' p' := by
  induction gap generalizing k p with
  | nil =>
    rcases k with _ | k
    · rw [List.nil_append] at h ⊢
      rw [readGap_of_startsToken (startsToken_of_readGap h hrest)] at h
      cases h
      exact readGap_of_startsToken hstart _
    · rcases rest with _ | ⟨c, rest⟩
      · exact absurd rfl hrest
      · obtain ⟨_, hnil, _⟩ := Scan.cons_eq_found_iff.mp h
        cases hnil
  | cons c gap ih =>
    have hstep : ∀ {l : Option Comment},
        (readGap l (p.after c) (gap ++ rest)).cons c = .found (c :: gap) rest p' →
        (readGap l (p.after c) (gap ++ rest')).cons c = .found (c :: gap) rest' p' := by
      intro l hfound
      obtain ⟨_, hcons, hinner⟩ := Scan.cons_eq_found_iff.mp hfound
      cases hcons
      exact Scan.cons_eq_found_iff.mpr ⟨gap, rfl, ih hinner⟩
    rcases k with _ | k
    · simp only [List.cons_append, readGap] at h ⊢
      split
      · rw [if_pos ‹_›] at h
        exact hstep h
      · rw [if_neg ‹_›] at h
        cases hopened : Comment.opened? p c (gap ++ rest).head? with
        | none =>
          rw [hopened] at h
          cases h
        | some l =>
          rw [hopened] at h
          -- A comment takes its second character as well.
          have hgap : gap ≠ [] := by
            rintro rfl
            obtain ⟨_, hcons, hinner⟩ := Scan.cons_eq_found_iff.mp h
            cases hcons
            rcases rest with _ | ⟨d, rest⟩
            · exact absurd rfl hrest
            · obtain ⟨_, hnil, _⟩ := Scan.cons_eq_found_iff.mp hinner
              cases hnil
          obtain ⟨d, gap, rfl⟩ := List.exists_cons_of_ne_nil hgap
          rw [List.cons_append, List.head?_cons] at hopened
          rw [List.cons_append, List.head?_cons, hopened]
          exact hstep h
    · exact hstep h

end Twinfold
