import Twinfold.Proofs.Token.Spelling

/-!
# How tokens begin and end

At neither end of a token stands a space.  In front of a token it would belong to the gap.  Inside
of a token a space belongs to a literal, and literals end with the marks that close them
(`getLast?_of_scanFrames`), or with the flags behind such a mark; the other tokens hold no spaces at
all.  So spaces and tabs around the text of tokens can be told from the tokens
(`isAsciiSpace_of_reads`).
-/

namespace Twinfold

/-! ### How literals end -/

/-- The character that closes a frame. -/
def Frame.mark : Frame → Char
  | .quoted quote _ _ => quote
  | .template _ _ => '`'
  | .code _ _ _ => '\x7d'
  | .regex _ _ _ => '/'

namespace Frame

/-- Substitution code either ends with its brace, or goes on inside it. -/
theorem mark_of_readCode {depth : Nat} {opened p : Place} {c : Char} {next : Option Char} :
    readCode depth opened p c next = [] ∧ c = '\x7d' ∨
      ∃ g, (readCode depth opened p c next).getLast? = some g ∧ g.mark = '\x7d' := by
  unfold readCode
  split
  · exact .inr ⟨_, rfl, rfl⟩
  · split_ifs with _ _ _ hc
    iterate 3 exact .inr ⟨_, rfl, rfl⟩
    · exact .inl ⟨rfl, hc⟩
    all_goals exact .inr ⟨_, rfl, rfl⟩

/-- A character closes a frame if it is its mark; otherwise it leaves a frame that the same mark
closes. -/
theorem mark_of_read {f : Frame} {p : Place} {c : Char} {next : Option Char} {frames : List Frame}
    (h : f.read p c next = .ok frames) :
    frames = [] ∧ c = f.mark ∨ ∃ g, frames.getLast? = some g ∧ g.mark = f.mark := by
  rcases f with ⟨quote, _ | _, _⟩ | ⟨_ | _, _⟩ | ⟨depth, _ | k, opened⟩ | ⟨_ | _, inClass, _⟩ <;>
    simp only [read] at h
  case code.none =>
    cases h
    exact mark_of_readCode
  case quoted.false | template.false | regex.false =>
    split_ifs at h <;> cases h <;> simp_all [mark]
  all_goals
    cases h
    exact .inr ⟨_, rfl, rfl⟩

end Frame

/-- **Literals end with their marks.**  What is taken ends with the mark of the outermost frame.
Inner frames are closed on the way, so the last character that is taken closes the outermost one.
-/
theorem getLast?_of_scanFrames {fs : List Frame} {p q : Place} {t taken rest : Text}
    (h : scanFrames fs p t = .found taken rest q) {f : Frame} (hf : fs.getLast? = some f) :
    taken.getLast? = some f.mark := by
  induction t generalizing fs p taken f with
  | nil =>
    cases fs with
    | nil => cases hf
    | cons g fs => exact absurd h Frame.atEnd_ne_found
  | cons c t ih =>
    cases fs with
    | nil => cases hf
    | cons g fs =>
      simp only [scanFrames] at h
      split at h
      · cases h
      · rename_i frames hread
        obtain ⟨taken, rfl, hfound⟩ := Scan.cons_eq_found_iff.mp h
        rw [List.getLast?_cons]
        cases fs with
        | cons g' fs =>
          -- Whatever becomes of the innermost frame, the outermost one is still open.
          rw [List.getLast?_cons_cons] at hf
          rw [ih hfound (by rw [List.getLast?_append_of_ne_nil _ (List.cons_ne_nil _ _), hf])]
          rfl
        | nil =>
          obtain rfl : g = f := by simpa using hf
          rw [List.append_nil] at hfound
          rcases Frame.mark_of_read hread with ⟨rfl, hc⟩ | ⟨g', hlast, hmark⟩
          · simp only [scanFrames] at hfound
            cases hfound
            exact congrArg some hc
          · rw [ih hfound hlast, hmark]
            rfl

/-! ### Tokens without spaces -/

/-- No identifier goes on with a space. -/
theorem not_continuesIdent_of_space {c : Char} (h : isAsciiSpace c = true) :
    continuesIdent c = false := by
  simp only [isAsciiSpace, Bool.or_eq_true, decide_eq_true_eq] at h
  obtain (((rfl | rfl) | rfl) | rfl) | rfl := h <;> rfl

/-- No ASCII space is in a word, -/
theorem isAsciiSpace_of_continuesIdent {c : Char} (h : continuesIdent c = true) :
    isAsciiSpace c = false := by
  by_contra hspace
  rw [Bool.not_eq_false] at hspace
  rw [not_continuesIdent_of_space hspace] at h
  cases h

/-- and none in a number. -/
theorem isAsciiSpace_of_continuesNumber {hex : Bool} {last c : Char}
    (h : continuesNumber hex last c = true) : isAsciiSpace c = false := by
  by_contra hspace
  rw [Bool.not_eq_false] at hspace
  simp only [isAsciiSpace, Bool.or_eq_true, decide_eq_true_eq] at hspace
  obtain (((rfl | rfl) | rfl) | rfl) | rfl := hspace <;> simp [continuesNumber] at h

/-- What continues a number is no space. -/
theorem isAsciiSpace_of_numberLength {hex : Bool} {last : Char} {body : Text}
    (h : numberLength hex last body = body.length) : ∀ c ∈ body, isAsciiSpace c = false := by
  induction body generalizing last with
  | nil => exact nofun
  | cons c body ih =>
    rw [numberLength_cons] at h
    split_ifs at h with hcontinues
    · exact List.forall_mem_cons.mpr
        ⟨isAsciiSpace_of_continuesNumber hcontinues, ih (Nat.succ_inj.mp h)⟩

section

variable {previous : Option Token} {kind : TokenKind} {text body tail : Text} {c : Char}

/-- A punctuator is one of the long ones or a single character. -/
theorem punct_cases (h : Reads previous .punct (c :: body) tail) :
    (∃ s ∈ longPuncts, s.toList = c :: body) ∨ body = [] := by
  obtain ⟨_, _, p, hscan⟩ := reads_cons_iff.mp h
  have hlength := scanPunct_eq_found_iff.mp hscan
  unfold punctLength at hlength
  split at hlength
  · rename_i s hs
    have hprefix := List.find?_some (p := fun s : String => s.toList.isPrefixOf _) hs
    rw [List.isPrefixOf_iff_prefix] at hprefix
    rw [← String.length_toList] at hlength
    have htext : s.toList = c :: body :=
      (List.prefix_of_prefix_length_le hprefix (List.prefix_append _ _) hlength.le).eq_of_length
        hlength
    exact .inl ⟨s, List.mem_of_find?_eq_some hs, htext⟩
  · exact .inr (List.length_eq_zero_iff.mp (by simpa using hlength.symm))

/-- A literal ends with its mark. -/
theorem isAsciiSpace_of_literal {f : Frame} {p : Place}
    (hscan : ∃ q, (scanFrames [f] (p.past c) (body ++ tail)).cons c = .found (c :: body) tail q)
    (hmark : isAsciiSpace f.mark = false) : ∀ d ∈ body.getLast?, isAsciiSpace d = false := by
  intro d hd
  obtain ⟨q, hfound⟩ := scanLiteral_eq_found_iff.mp hscan
  rw [getLast?_of_scanFrames hfound rfl] at hd
  cases hd
  exact hmark

/-- A regular expression ends with its last flag, or with a slash.  Neither of them is a space. -/
theorem isAsciiSpace_of_regex {p : Place}
    (hscan : ∃ q, scanOf .regex p c (body ++ tail) = .found (c :: body) tail q) :
    ∀ d ∈ body.getLast?, isAsciiSpace d = false := by
  obtain ⟨⟨inner, flags, q, rfl, hflags, hfound⟩, -⟩ := scanRegex_eq_found_iff.mp hscan
  intro d hd
  rw [List.getLast?_append, getLast?_of_scanFrames hfound rfl] at hd
  cases hlast : flags.getLast? with
  | none =>
    rw [hlast] at hd
    cases hd
    rfl
  | some e =>
    rw [hlast] at hd
    cases hd
    exact isAsciiSpace_of_continuesIdent
      (List.all_eq_true.mp hflags _ (List.mem_of_getLast? hlast))

/-- Behind its first character no token ends with a space.  Words and numbers have no spaces in
them, and what has an end of its own ends with its mark. -/
theorem isAsciiSpace_of_body (h : Reads previous kind (c :: body) tail) :
    ∀ d ∈ body.getLast?, isAsciiSpace d = false := by
  have hclass : (∀ d ∈ body, isAsciiSpace d = false) →
      ∀ d ∈ body.getLast?, isAsciiSpace d = false :=
    fun hall d hd => hall d (List.mem_of_getLast? hd)
  obtain ⟨_, hkind, p, hscan⟩ := reads_cons_iff.mp h
  cases kind with
  | string =>
    have hquote : c = '"' ∨ c = '\'' := by
      unfold kindAt at hkind
      split_ifs at hkind with hquote
      simpa using hquote
    apply isAsciiSpace_of_literal hscan
    obtain rfl | rfl := hquote <;> rfl
  | template => exact isAsciiSpace_of_literal hscan rfl
  | regex => exact isAsciiSpace_of_regex hscan
  | number =>
    exact hclass (isAsciiSpace_of_numberLength (scanNumber_eq_found_iff.mp hscan).1)
  | ident =>
    have htake := (List.takeWhile_prefix _).eq_of_length (scanIdent_eq_found_iff.mp hscan).1
    apply hclass
    intro d hd
    rw [← htake] at hd
    have hcontinues := List.mem_takeWhile_imp hd
    rw [Bool.and_eq_true] at hcontinues
    exact isAsciiSpace_of_continuesIdent hcontinues.1
  | punct =>
    have hlong : ∀ s ∈ longPuncts, ∀ d ∈ s.toList, isAsciiSpace d = false := by decide
    apply hclass
    obtain ⟨s, hs, htext⟩ | rfl := punct_cases h
    · intro d hd
      exact hlong s hs d (htext ▸ List.mem_cons_of_mem _ hd)
    · exact nofun

/-- **At neither end of a token stands a space.**  A quoted token ends with its quote, and every
other one with a character of its kind. -/
theorem isAsciiSpace_of_reads (h : Reads previous kind text tail) :
    (∀ d ∈ text.head?, isAsciiSpace d = false) ∧ ∀ d ∈ text.getLast?, isAsciiSpace d = false := by
  cases text with
  | nil => exact absurd rfl h.ne_nil
  | cons c body =>
    obtain ⟨hstart, -⟩ := reads_cons_iff.mp h
    have hfirst : isAsciiSpace c = false := by
      have hgap := (startsToken_cons_iff.mp hstart).1
      simp only [isGapSpace, Bool.or_eq_false_iff] at hgap
      exact hgap.1
    refine ⟨by simpa using hfirst, ?_⟩
    rw [List.getLast?_cons]
    cases hlast : body.getLast? with
    | none => simpa using hfirst
    | some d => simpa using isAsciiSpace_of_body h d hlast

end

end Twinfold
