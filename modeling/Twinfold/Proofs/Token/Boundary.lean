import Mathlib.Data.List.Find
import Mathlib.Data.List.TakeWhile
import Twinfold.Proofs.Token.Scanning

/-!
# Where a token ends

A token is read as long as it goes.  Whether a given text is read as one token in front of a
given tail comes down to two questions: is it a token when it stands alone, and does the tail
let it end there?  The second question is answered by the kind of the token and by the first
characters of the tail (`endsBefore`).

* `reads_iff` — reading in front of a tail is reading alone and ending before the tail;
* `endsBefore_separator` — every token ends before a space, a bracket, a comma or a semicolon.
-/

namespace Twinfold

/-! ### Lists of characters -/

-- Both come before the instances that look at every character there is.
instance (priority := 2000) decidableAllChars (cs : List Char) (p : Char → Prop) [DecidablePred p] :
    Decidable (∀ c ∈ cs, p c) := List.decidableBAll p cs

instance (priority := 2000) decidableAnyChar (cs : List Char) (p : Char → Prop) [DecidablePred p] :
    Decidable (∃ c ∈ cs, p c) := List.decidableBEx p cs

/-! ### The kind of a token and its scan -/

/-- The kind of the token that begins with `c`, where `next` is the character behind it. -/
def kindAt (previous : Option Token) (c : Char) (next : Option Char) : TokenKind :=
  if c = '"' || c = '\'' then .string
  else if c = '`' then .template
  else if c.isDigit || (c = '.' && next.any Char.isDigit) then .number
  else if beginsIdent c then .ident
  else if c = '/' && slashBeginsRegex previous then .regex
  else .punct

/-- The scan of a token of a known kind that begins with `c`. -/
def scanOf (kind : TokenKind) (p : Place) (c : Char) (rest : Text) : Scan :=
  match kind with
  | .string => (scanFrames [.quoted c false p] (p.past c) rest).cons c
  | .template => (scanFrames [.template false p] (p.past c) rest).cons c
  | .number => (takeChars (numberLength (isHex (c :: rest)) c rest) (p.past c) rest).cons c
  | .ident => (takeChars (identLength rest) (p.past c) rest).cons c
  | .regex => ((scanFrames [.regex false false p] (p.past c) rest).cons c).withFlags
  | .punct => (takeChars (punctLength (c :: rest) - 1) (p.past c) rest).cons c

/-- A token is scanned by the scanner of its kind, and its kind is told by the first two characters
and the token before. -/
theorem scanToken_eq (previous : Option Token) (p : Place) (c : Char) (rest : Text) :
    scanToken previous p c rest =
      (kindAt previous c rest.head?, scanOf (kindAt previous c rest.head?) p c rest) := by
  unfold scanToken kindAt
  split_ifs <;> rfl

/-- Only a dot looks at the character behind it to find its kind. -/
theorem kindAt_congr {previous : Option Token} {c : Char} {next next' : Option Char}
    (h : c = '.' → next.any Char.isDigit = next'.any Char.isDigit) :
    kindAt previous c next = kindAt previous c next' := by
  unfold kindAt
  by_cases hc : c = '.'
  · simp [hc, h hc]
  · simp [hc]

/-- Only a slash looks at the token before it to find its kind. -/
theorem kindAt_previous {previous previous' : Option Token} {c : Char} {next : Option Char}
    (h : c = '/' → slashBeginsRegex previous = slashBeginsRegex previous') :
    kindAt previous c next = kindAt previous' c next := by
  unfold kindAt
  by_cases hc : c = '/'
  · simp [hc, h hc]
  · simp [hc]

/-! ### What each kind takes -/

/-- Taking so many characters finds a body if and only if that many are in it. -/
theorem takeChars_eq_found_iff {n : Nat} {p q : Place} {body tail : Text}
    (hn : n ≤ (body ++ tail).length) :
    takeChars n p (body ++ tail) = .found body tail q ↔ n = body.length ∧ q = p.pastText body := by
  unfold takeChars
  constructor
  · intro h
    simp only [Scan.found.injEq] at h
    obtain ⟨htake, _, hq⟩ := h
    have hlen : ((body ++ tail).take n).length = n := List.length_take_of_le hn
    rw [htake] at hlen hq
    exact ⟨hlen.symm, hq.symm⟩
  · rintro ⟨rfl, rfl⟩
    rw [List.take_left, List.drop_left]

/-- Whether a character continues a number that ends with `last`. -/
def continuesNumber (hex : Bool) (last c : Char) : Bool :=
  c.isAlphanum || c = '.' || c = '_' || (!hex && (c = '+' || c = '-') && (last = 'e' || last = 'E'))

/-- Beyond ASCII nothing counts as a letter or a digit of a number. -/
theorem not_isAlphanum_of_le {c : Char} (hc : 128 ≤ c.toNat) : c.isAlphanum = false := by
  have hval : c.val.toNat = c.toNat := rfl
  delta Char.isAlphanum Char.isAlpha Char.isUpper Char.isLower Char.isDigit
  simp only [ge_iff_le, UInt32.le_iff_toNat_le, Bool.or_eq_false_iff, Bool.and_eq_false_iff,
    decide_eq_false_iff_not, Char.reduceVal, UInt32.reduceToNat, hval]
  omega

/-- No number goes on beyond ASCII. -/
theorem continuesNumber_of_le {hex : Bool} {last c : Char} (hc : 128 ≤ c.toNat) :
    continuesNumber hex last c = false := by
  have hne : ∀ d : Char, d.toNat < 128 → c ≠ d := by
    rintro d hd rfl
    exact absurd hd (Nat.not_lt.mpr hc)
  simp [continuesNumber, not_isAlphanum_of_le hc, hne '.' (by decide), hne '_' (by decide),
    hne '+' (by decide), hne '-' (by decide)]

theorem numberLength_cons (hex : Bool) (last c : Char) (t : Text) :
    numberLength hex last (c :: t) =
      if continuesNumber hex last c then numberLength hex c t + 1 else 0 := rfl

/-- A number does not go beyond the text. -/
theorem numberLength_le (hex : Bool) (last : Char) (t : Text) :
    numberLength hex last t ≤ t.length := by
  induction t generalizing last with
  | nil => exact le_rfl
  | cons c t ih =>
    rw [numberLength_cons]
    split
    · exact Nat.succ_le_succ (ih c)
    · exact Nat.zero_le _

/-- Up to where a number goes can be told from the number itself and from the one character behind
it, which must not be one that it would go on with. -/
theorem numberLength_append_iff (hex : Bool) (last : Char) (body tail : Text) :
    numberLength hex last (body ++ tail) = body.length ↔
      numberLength hex last body = body.length ∧
        tail.head?.all fun c => !continuesNumber hex (body.getLastD last) c := by
  induction body generalizing last with
  | nil =>
    cases tail with
    | nil => simp [numberLength]
    | cons d tail => by_cases hd : continuesNumber hex last d <;> simp [numberLength_cons, numberLength, hd]
  | cons c body ih =>
    have hlast : (c :: body).getLastD last = body.getLastD c := by
      cases body <;> rfl
    rw [List.cons_append, numberLength_cons, numberLength_cons, List.length_cons, hlast]
    split
    · rw [Nat.add_right_cancel_iff, Nat.add_right_cancel_iff]
      exact ih c
    · simp

/-- Whether the digits are hexadecimal is seen by the end of the number.  Only a zero with nothing
behind it depends on the text that follows. -/
theorem isHex_append {c : Char} {body tail : Text}
    (h : body = [] → tail.head?.all fun d => !(d = 'x' || d = 'X')) :
    isHex (c :: (body ++ tail)) = isHex (c :: body) := by
  by_cases hc : c = '0'
  · subst hc
    rcases body with _ | ⟨d, body⟩
    · rcases tail with _ | ⟨d, tail⟩
      · rfl
      · have hx : (d = 'x' || d = 'X') = false := by simpa using h rfl
        exact hx
    · rfl
  · have hdecimal : ∀ t : Text, isHex (c :: t) = false := by
      intro t
      unfold isHex
      split
      · rename_i heq
        injection heq with hzero
        exact absurd hzero hc
      · rfl
    rw [hdecimal, hdecimal]

theorem identLength_le (t : Text) : identLength t ≤ t.length :=
  (List.takeWhile_sublist _).length_le

/-- Whether a list of characters that is taken as long as they are in a class ends before a
tail. -/
theorem length_takeWhile_append_iff {p : Char → Bool} (body tail : Text) :
    ((body ++ tail).takeWhile p).length = body.length ↔
      (body.takeWhile p).length = body.length ∧ tail.head?.all fun c => !p c := by
  induction body with
  | nil =>
    cases tail with
    | nil => simp
    | cons d tail =>
      by_cases hd : p d <;> simp [hd]
  | cons c body ih =>
    by_cases hc : p c
    · simp only [List.cons_append, List.takeWhile_cons, hc, if_true, List.length_cons,
        Nat.add_right_cancel_iff]
      exact ih
    · simp [hc]

/-- A stricter search finds the same element if it accepts it. -/
theorem find?_of_imp {α : Type} {p q : α → Bool} {as : List α} {a : α}
    (himp : ∀ a ∈ as, p a → q a) (h : as.find? q = some a) (ha : p a) : as.find? p = some a := by
  induction as with
  | nil => cases h
  | cons b as ih =>
    rw [List.find?_cons] at h ⊢
    by_cases hq : q b
    · simp only [hq] at h
      cases h
      simp [ha]
    · have hp : ¬p b := fun hp => hq (himp b List.mem_cons_self hp)
      simp only [hq] at h
      simp only [hp]
      exact ih (fun a ha => himp a (List.mem_cons_of_mem _ ha)) h

theorem one_lt_length_longPuncts : ∀ s ∈ longPuncts, 1 < s.length := by decide

/-- A punctuator has at least one character. -/
theorem punctLength_pos (t : Text) : 0 < punctLength t := by
  unfold punctLength
  split
  · rename_i s hs
    have := one_lt_length_longPuncts s (List.mem_of_find?_eq_some hs)
    omega
  · exact Nat.one_pos

/-- A punctuator does not go beyond the text. -/
theorem punctLength_le {t : Text} (ht : t ≠ []) : punctLength t ≤ t.length := by
  unfold punctLength
  split
  · rename_i s hs
    have hprefix := List.find?_some (p := fun s : String => s.toList.isPrefixOf t) hs
    rw [← String.length_toList]
    exact (List.isPrefixOf_iff_prefix.mp hprefix).length_le
  · exact List.length_pos_iff.mpr ht

/-- A punctuator that fits into a front of a text is the punctuator of the front.  The long ones
are tried in order, and one that does not fit into the whole text does not fit into the front. -/
theorem punctLength_of_append {front tail : Text}
    (h : punctLength (front ++ tail) ≤ front.length) :
    punctLength front = punctLength (front ++ tail) := by
  have himp : ∀ s ∈ longPuncts, s.toList.isPrefixOf front → s.toList.isPrefixOf (front ++ tail) := by
    intro s _ hs
    rw [List.isPrefixOf_iff_prefix] at hs ⊢
    exact hs.trans (List.prefix_append _ _)
  conv_rhs => unfold punctLength
  unfold punctLength at h
  split at h
  · rename_i s hs
    have hlong := List.find?_some (p := fun s : String => s.toList.isPrefixOf (front ++ tail)) hs
    have hshort : s.toList <+: front :=
      List.prefix_of_prefix_length_le (List.isPrefixOf_iff_prefix.mp hlong)
        (List.prefix_append _ _) (String.length_toList ▸ h)
    have hfront := find?_of_imp himp hs (List.isPrefixOf_iff_prefix.mpr hshort)
    rw [punctLength, hfront]
  · rename_i hnone
    rw [punctLength, List.find?_eq_none.mpr]
    intro s hs hprefix
    exact List.find?_eq_none.mp hnone s hs (himp s hs hprefix)

/-- Dropping as many characters as can be taken. -/
theorem drop_length_takeWhile {p : Char → Bool} (t : Text) :
    t.drop (t.takeWhile p).length = t.dropWhile p := by
  calc t.drop (t.takeWhile p).length
      = (t.takeWhile p ++ t.dropWhile p).drop (t.takeWhile p).length := by
        rw [List.takeWhile_append_dropWhile]
    _ = t.dropWhile p := List.drop_left

/-- A regular expression is the literal and its flags.  The literal ends by itself, and the flags
go on as far as letters and digits do. -/
theorem scanRegex_eq_found_iff {p : Place} {c : Char} {body tail : Text} :
    (∃ q, scanOf .regex p c (body ++ tail) = .found (c :: body) tail q) ↔
      (∃ inner flags q, body = inner ++ flags ∧ (flags.all continuesIdent) ∧
        scanFrames [.regex false false p] (p.past c) inner = .found inner [] q) ∧
      tail.head?.all fun c => !continuesIdent c := by
  constructor
  · rintro ⟨q, h⟩
    unfold scanOf at h
    dsimp only at h
    rcases hscan : scanFrames [.regex false false p] (p.past c) (body ++ tail) with
      ⟨inner, rest, q'⟩ | ⟨e, o⟩ <;> rw [hscan] at h
    · simp only [Scan.cons, Scan.withFlags, Scan.found.injEq, List.cons_append, List.cons.injEq,
        true_and] at h
      obtain ⟨rfl, htail, _⟩ := h
      rw [drop_length_takeWhile] at htail
      obtain ⟨hsplit, _⟩ := eq_append_of_scanFrames hscan
      refine ⟨⟨inner, rest.takeWhile continuesIdent, q', rfl, List.all_takeWhile, ?_⟩, ?_⟩
      · rw [hsplit] at hscan
        simpa using scanFrames_append hscan []
      · have hhead := List.head?_dropWhile_not continuesIdent rest
        rw [htail] at hhead
        cases tail with
        | nil => rfl
        | cons d tail => simpa using hhead
    · cases h
  · rintro ⟨⟨inner, flags, q, rfl, hflags, hscan⟩, htail⟩
    have hscan' : scanFrames [.regex false false p] (p.past c) (inner ++ (flags ++ tail)) =
        .found inner (flags ++ tail) q := scanFrames_extend hscan _
    have htake : (flags ++ tail).takeWhile continuesIdent = flags := by
      rw [List.takeWhile_append_of_pos (by simpa using hflags)]
      cases tail with
      | nil => simp
      | cons d tail => simp_all
    refine ⟨q.pastText flags, ?_⟩
    simp [scanOf, hscan', Scan.cons, Scan.withFlags, htake]

/-! ### Reading in front of a tail -/

/-- Behind the token `previous` and in front of `tail`, `text` is read as one token. -/
def Reads (previous : Option Token) (kind : TokenKind) (text tail : Text) : Prop :=
  startsToken (text ++ tail) ∧ ∃ c body, text = c :: body ∧
    ∃ p q, scanToken previous p c (body ++ tail) = (kind, .found text tail q)

/-- Whether a token lets the tail begin where it does. -/
def endsBefore (kind : TokenKind) (text tail : Text) : Bool :=
  match kind with
  | .string | .template => true
  | .regex => tail.head?.all fun c => !continuesIdent c
  | .ident => tail.head?.all fun c => !(continuesIdent c && !isWideSpace c)
  | .number => tail.head?.all fun c => !continuesNumber (isHex text) (text.getLastD ' ') c
  | .punct =>
    punctLength (text ++ tail) = text.length && !(text = ['.'] && tail.head?.any Char.isDigit) &&
      !(text = ['/'] && (tail.head? = some '/' || tail.head? = some '*'))

section

instance : Nonempty Place := ⟨.start⟩

variable {p : Place} {c : Char} {body tail : Text}

/-- Taking so many characters behind the first one finds a token if and only if that many are left
of it. -/
theorem found_takeChars_cons_iff {n : Nat} (hn : n ≤ (body ++ tail).length) :
    (∃ q, (takeChars n (p.past c) (body ++ tail)).cons c = .found (c :: body) tail q) ↔
      n = body.length := by
  simp only [Scan.cons_eq_found_iff, List.cons.injEq, true_and, exists_eq_left',
    takeChars_eq_found_iff hn, exists_and_left, exists_eq, and_true]

/-- A number is found if and only if it goes on to its last character by itself and what stands
behind it does not go on with it. -/
theorem scanNumber_eq_found_iff :
    (∃ q, scanOf .number p c (body ++ tail) = .found (c :: body) tail q) ↔
      numberLength (isHex (c :: body)) c body = body.length ∧ endsBefore .number (c :: body) tail := by
  have hlast : (c :: body).getLastD ' ' = body.getLastD c := by cases body <;> rfl
  rw [scanOf, found_takeChars_cons_iff (numberLength_le _ _ _), numberLength_append_iff, endsBefore,
    hlast]
  by_cases hx : body = [] ∧ ∃ d t, tail = d :: t ∧ (d = 'x' ∨ d = 'X')
  · obtain ⟨rfl, d, t, rfl, hd⟩ := hx
    -- An x behind a first digit is a letter, so the number goes on.
    have hgoes : ∀ hex last, continuesNumber hex last d := by
      rcases hd with rfl | rfl <;> simp [continuesNumber]
    simp [hgoes]
  · rw [isHex_append]
    rintro rfl
    cases tail with
    | nil => rfl
    | cons d t => simpa using fun hd => hx ⟨rfl, d, t, rfl, hd⟩

/-- An identifier is found if and only if it goes on to its last character by itself and what
stands behind it does not go on with it. -/
theorem scanIdent_eq_found_iff :
    (∃ q, scanOf .ident p c (body ++ tail) = .found (c :: body) tail q) ↔
      identLength body = body.length ∧ endsBefore .ident (c :: body) tail := by
  rw [scanOf, found_takeChars_cons_iff (identLength_le _)]
  exact length_takeWhile_append_iff body tail

/-- A punctuator is found if and only if it is the longest one there. -/
theorem scanPunct_eq_found_iff :
    (∃ q, scanOf .punct p c (body ++ tail) = .found (c :: body) tail q) ↔
      punctLength ((c :: body) ++ tail) = (c :: body).length := by
  have hle := punctLength_le (t := c :: (body ++ tail)) (List.cons_ne_nil _ _)
  have hpos := punctLength_pos (c :: (body ++ tail))
  rw [List.length_cons] at hle
  rw [scanOf, found_takeChars_cons_iff (by omega), List.cons_append, List.length_cons]
  omega

/-- A literal is found if and only if it ends with its last character; what stands behind it does
not matter. -/
theorem scanLiteral_eq_found_iff {f : Frame} :
    (∃ q, (scanFrames [f] (p.past c) (body ++ tail)).cons c = .found (c :: body) tail q) ↔
      ∃ q, scanFrames [f] (p.past c) body = .found body [] q := by
  simp only [Scan.cons_eq_found_iff, List.cons.injEq, true_and, exists_eq_left']
  constructor
  · rintro ⟨q, h⟩
    exact ⟨q, by simpa using scanFrames_append h []⟩
  · rintro ⟨q, h⟩
    exact ⟨q, scanFrames_extend h tail⟩

/-- **How a token is read**: something begins there, it is of the kind that its first two
characters and the token before tell, and the scanner of that kind finds it. -/
theorem reads_cons_iff {previous : Option Token} {kind : TokenKind} :
    Reads previous kind (c :: body) tail ↔
      startsToken (c :: (body ++ tail)) ∧ kindAt previous c (body ++ tail).head? = kind ∧
        ∃ p q, scanOf kind p c (body ++ tail) = .found (c :: body) tail q := by
  simp only [Reads, scanToken_eq, List.cons_append, List.cons.injEq, Prod.mk.injEq]
  constructor
  · rintro ⟨hstart, _, _, ⟨rfl, rfl⟩, p, q, rfl, hscan⟩
    exact ⟨hstart, rfl, p, q, hscan⟩
  · rintro ⟨hstart, rfl, p, q, hscan⟩
    exact ⟨hstart, c, body, ⟨rfl, rfl⟩, p, q, rfl, hscan⟩

/-- Reading the scan of a kind in front of a tail is reading it alone and ending before the
tail. -/
theorem scanOf_eq_found_iff {kind : TokenKind} (hkind : kind ≠ .punct) :
    (∃ p q, scanOf kind p c (body ++ tail) = .found (c :: body) tail q) ↔
      (∃ p q, scanOf kind p c body = .found (c :: body) [] q) ∧
        endsBefore kind (c :: body) tail := by
  cases kind with
  | punct => exact absurd rfl hkind
  | string =>
    have halone := fun p => @scanLiteral_eq_found_iff p c body [] (.quoted c false p)
    rw [List.append_nil] at halone
    simp only [scanOf, scanLiteral_eq_found_iff, halone, endsBefore, and_true]
  | template =>
    have halone := fun p => @scanLiteral_eq_found_iff p c body [] (.template false p)
    rw [List.append_nil] at halone
    simp only [scanOf, scanLiteral_eq_found_iff, halone, endsBefore, and_true]
  | number =>
    have halone := fun p => @scanNumber_eq_found_iff p c body []
    simp only [List.append_nil, endsBefore, List.head?_nil, Option.all_none, and_true] at halone
    simp only [scanNumber_eq_found_iff, halone, exists_const, endsBefore]
  | ident =>
    have halone := fun p => @scanIdent_eq_found_iff p c body []
    simp only [List.append_nil, endsBefore, List.head?_nil, Option.all_none, and_true] at halone
    simp only [scanIdent_eq_found_iff, halone, exists_const, endsBefore]
  | regex =>
    have halone := fun p => @scanRegex_eq_found_iff p c body []
    simp only [List.append_nil, List.head?_nil, Option.all_none, and_true] at halone
    simp only [scanRegex_eq_found_iff, halone, exists_and_right, endsBefore]

/-- A literal that begins with a slash does not end there. -/
theorem scanRegex_ne_nil {p q : Place} (h : scanOf .regex p c body = .found (c :: body) [] q) :
    body ≠ [] := by
  rintro rfl
  cases h

/-- What a tail must not do to a token of one character: add a digit to a dot, or open a
comment with a slash. -/
theorem startsToken_append_iff :
    startsToken (c :: (body ++ tail)) ↔ startsToken (c :: body) ∧
      ¬(c :: body = ['/'] ∧ (tail.head? = some '/' ∨ tail.head? = some '*')) := by
  cases body with
  | nil => by_cases hc : c = '/' <;> simp [startsToken, hc]
  | cons d body => simp [startsToken]

theorem kindAt_dot {previous : Option Token} {next : Option Char} :
    kindAt previous '.' next = if next.any Char.isDigit then .number else .punct := by
  simp [kindAt, beginsIdent]

theorem kindAt_slash {previous : Option Token} {next : Option Char} :
    kindAt previous '/' next = if slashBeginsRegex previous then .regex else .punct := by
  simp [kindAt, beginsIdent]

/-- A dot in front of a digit begins a number. -/
theorem kindAt_digit {previous : Option Token}
    (h : c :: body = ['.'] ∧ tail.head?.any Char.isDigit) :
    kindAt previous c (body ++ tail).head? = .number := by
  obtain ⟨htext, hdigit⟩ := h
  cases htext
  rw [List.nil_append, kindAt_dot, if_pos hdigit]

/-- Any other text has one kind in front of all tails. -/
theorem kindAt_append {previous : Option Token}
    (hdot : ¬(c :: body = ['.'] ∧ tail.head?.any Char.isDigit)) :
    kindAt previous c (body ++ tail).head? = kindAt previous c body.head? := by
  apply kindAt_congr
  rintro rfl
  cases body with
  | nil => simpa using hdot
  | cons d body => rfl

/-- A number does not end in front of a digit. -/
theorem not_isDigit_of_endsBefore {text : Text} (h : endsBefore .number text tail) :
    ¬tail.head?.any Char.isDigit := by
  intro hdigit
  cases htail : tail.head? with
  | none => simp [htail] at hdigit
  | some d =>
    have hd : d.isDigit = true := by simpa [htail] using hdigit
    simp [endsBefore, htail, continuesNumber, Char.isAlphanum, hd] at h

/-- **Maximal munch.**  A text is read as one token in front of a tail if and only if it is
when it stands alone, and ends before the tail. -/
theorem reads_iff {previous : Option Token} {kind : TokenKind} {text tail : Text} :
    Reads previous kind text tail ↔ Reads previous kind text [] ∧ endsBefore kind text tail := by
  cases text with
  | nil => simp [Reads, startsToken]
  | cons c body =>
    rw [reads_cons_iff, reads_cons_iff, startsToken_append_iff, List.append_nil]
    by_cases hkind : kind = .punct
    · subst hkind
      have halone := fun p => @scanPunct_eq_found_iff p c body []
      rw [List.append_nil, List.append_nil] at halone
      simp only [scanPunct_eq_found_iff, halone, exists_const, endsBefore, Bool.and_eq_true,
        decide_eq_true_eq, Bool.not_eq_true', ← Bool.not_eq_true, Bool.or_eq_true]
      constructor
      · rintro ⟨⟨hstart, hslash⟩, hpunct, hlen⟩
        have hdot : ¬(c :: body = ['.'] ∧ tail.head?.any Char.isDigit) := fun h =>
          absurd ((kindAt_digit h).symm.trans hpunct) (by decide)
        exact ⟨⟨hstart, kindAt_append hdot ▸ hpunct, (punctLength_of_append hlen.le).trans hlen⟩,
          ⟨hlen, hdot⟩, hslash⟩
      · rintro ⟨⟨hstart, hpunct, _⟩, ⟨hlen, hdot⟩, hslash⟩
        exact ⟨⟨hstart, hslash⟩, (kindAt_append hdot).trans hpunct, hlen⟩
    · rw [scanOf_eq_found_iff hkind]
      constructor
      · rintro ⟨⟨hstart, _⟩, hat, hscan, hends⟩
        have hdot : ¬(c :: body = ['.'] ∧ tail.head?.any Char.isDigit) := by
          intro h
          obtain rfl := (kindAt_digit h).symm.trans hat
          exact not_isDigit_of_endsBefore hends h.2
        exact ⟨⟨hstart, kindAt_append hdot ▸ hat, hscan⟩, hends⟩
      · rintro ⟨⟨hstart, hat, hscan⟩, hends⟩
        have hdot : ¬(c :: body = ['.'] ∧ tail.head?.any Char.isDigit) := by
          rintro ⟨htext, _⟩
          cases htext
          exact hkind (hat.symm.trans kindAt_dot)
        have hslash : ¬(c :: body = ['/'] ∧ (tail.head? = some '/' ∨ tail.head? = some '*')) := by
          rintro ⟨htext, _⟩
          cases htext
          rw [kindAt_slash] at hat
          split at hat
          · subst hat
            obtain ⟨p, q, hfound⟩ := hscan
            exact scanRegex_ne_nil hfound rfl
          · exact hkind hat.symm
        exact ⟨⟨hstart, hslash⟩, (kindAt_append hdot).trans hat, hscan, hends⟩

end

section

variable {previous previous' : Option Token} {kind : TokenKind} {text tail : Text}

theorem Reads.ne_nil (h : Reads previous kind text tail) : text ≠ [] := by
  obtain ⟨_, c, body, rfl, _⟩ := h
  exact List.cons_ne_nil _ _

/-- A token that is read in front of a tail is one when it stands alone. -/
theorem Reads.alone (h : Reads previous kind text tail) : Reads previous kind text [] :=
  (reads_iff.mp h).1

theorem Reads.endsBefore (h : Reads previous kind text tail) : endsBefore kind text tail :=
  (reads_iff.mp h).2

/-- Another tail that lets the token end changes nothing. -/
theorem Reads.retail (h : Reads previous kind text tail) {tail' : Text}
    (hends : Twinfold.endsBefore kind text tail') : Reads previous kind text tail' :=
  reads_iff.mpr ⟨h.alone, hends⟩

/-- Only for a slash does the token before count. -/
theorem Reads.behind (h : Reads previous kind text tail)
    (hslash : text.head? = some '/' → slashBeginsRegex previous = slashBeginsRegex previous') :
    Reads previous' kind text tail := by
  cases text with
  | nil => exact absurd rfl h.ne_nil
  | cons c body =>
    rw [reads_cons_iff] at h ⊢
    obtain ⟨hstart, hkind, hscan⟩ := h
    refine ⟨hstart, ?_, hscan⟩
    rw [← hkind]
    exact (kindAt_previous fun hc => hslash (by rw [hc]; rfl)).symm

/-- **Tokens do not depend on places.**  Only the places in what is found, and where strings and
comments were opened, are other ones. -/
theorem scanOf_moved {p q : Place} {c : Char} {rest taken left : Text} {p' : Place}
    (h : scanOf kind p c rest = .found taken left p') :
    ∃ q', scanOf kind q c rest = .found taken left q' := by
  have htake : ∀ {n : Nat}, (takeChars n (p.past c) rest).cons c = .found taken left p' →
      ∃ q', (takeChars n (q.past c) rest).cons c = .found taken left q' := by
    intro n hfound
    obtain ⟨taken', rfl, hinner⟩ := Scan.cons_eq_found_iff.mp hfound
    cases hinner
    exact ⟨_, rfl⟩
  have hframes : ∀ {f g : Frame} {taken left : Text} {p' : Place},
      Frame.Aligned (p.past c).offset (q.past c).offset f g →
      (scanFrames [f] (p.past c) rest).cons c = .found taken left p' →
      ∃ q', (scanFrames [g] (q.past c) rest).cons c = .found taken left q' := by
    intro f g taken left p' hfg hfound
    obtain ⟨taken', rfl, hinner⟩ := Scan.cons_eq_found_iff.mp hfound
    obtain ⟨q', hmoved⟩ := scanFrames_moved (q := q.past c) (.cons hfg .nil) hinner
    exact ⟨q', Scan.cons_eq_found_iff.mpr ⟨taken', rfl, hmoved⟩⟩
  cases kind with
  | string => exact hframes (f := .quoted c false p) (g := .quoted c false q) ⟨rfl, rfl⟩ h
  | template => exact hframes (f := .template false p) (g := .template false q) rfl h
  | number => exact htake h
  | ident => exact htake h
  | punct => exact htake h
  | regex =>
    unfold scanOf at h ⊢
    dsimp only at h ⊢
    rcases hscan : (scanFrames [.regex false false p] (p.past c) rest).cons c with
      ⟨taken', left', p''⟩ | ⟨e, o⟩ <;> rw [hscan] at h
    · cases h
      obtain ⟨q', hmoved⟩ := hframes (f := .regex false false p) (g := .regex false false q)
        ⟨rfl, rfl⟩ hscan
      rw [hmoved]
      exact ⟨_, rfl⟩
    · cases h

/-- The scan of a token that is read, at any place. -/
theorem Reads.scanToken (h : Reads previous kind text tail) (p : Place) :
    ∃ c body, text = c :: body ∧ ∃ q,
      Twinfold.scanToken previous p c (body ++ tail) = (kind, .found text tail q) := by
  cases text with
  | nil => exact absurd rfl h.ne_nil
  | cons c body =>
    obtain ⟨_, hkind, p', q', hscan⟩ := reads_cons_iff.mp h
    obtain ⟨q, hmoved⟩ := scanOf_moved (q := p) hscan
    refine ⟨c, body, rfl, q, ?_⟩
    rw [scanToken_eq, hkind, hmoved]

/-- A token takes a front of the text and leaves the rest, and the place behind it.  There is one
case for each kind of token. -/
theorem eq_append_of_scanOf {p q : Place} {c : Char} {rest : Text}
    (h : scanOf kind p c rest = .found text tail q) :
    ∃ body, text = c :: body ∧ rest = body ++ tail ∧ q.offset = p.offset + text.size := by
  have htake : ∀ {n : Nat}, (takeChars n (p.past c) rest).cons c = .found text tail q →
      ∃ body, text = c :: body ∧ rest = body ++ tail ∧ q.offset = p.offset + text.size := by
    intro n hfound
    obtain ⟨body, rfl, hinner⟩ := Scan.cons_eq_found_iff.mp hfound
    cases hinner
    exact ⟨_, rfl, (List.take_append_drop n rest).symm, by simp [Nat.add_assoc]⟩
  have hframes : ∀ {f : Frame} {text tail : Text} {q : Place},
      (scanFrames [f] (p.past c) rest).cons c = .found text tail q →
      ∃ body, text = c :: body ∧ rest = body ++ tail ∧ q.offset = p.offset + text.size := by
    intro f text tail q hfound
    obtain ⟨body, rfl, hinner⟩ := Scan.cons_eq_found_iff.mp hfound
    obtain ⟨hsplit, hoffset⟩ := eq_append_of_scanFrames hinner
    rw [Place.offset_past] at hoffset
    exact ⟨body, rfl, hsplit, by rw [hoffset, Text.size_cons]; omega⟩
  cases kind with
  | string => exact hframes h
  | template => exact hframes h
  | number => exact htake h
  | ident => exact htake h
  | punct => exact htake h
  | regex =>
    unfold scanOf at h
    dsimp only at h
    rcases hscan : (scanFrames [.regex false false p] (p.past c) rest).cons c with
      ⟨taken, left, q'⟩ | ⟨e, o⟩ <;> rw [hscan] at h
    · obtain ⟨body, rfl, hsplit, hoffset⟩ := hframes hscan
      cases h
      refine ⟨body ++ left.takeWhile continuesIdent, by simp, ?_, ?_⟩
      · rw [drop_length_takeWhile, List.append_assoc, List.takeWhile_append_dropWhile, hsplit]
      · rw [Place.offset_pastText, hoffset, Text.size_append]
        omega
    · cases h

/-- What is scanned as a token is read as one. -/
theorem reads_of_scanToken {p q : Place} {c : Char} {rest : Text} (hstart : startsToken (c :: rest))
    (h : Twinfold.scanToken previous p c rest = (kind, .found text tail q)) :
    c :: rest = text ++ tail ∧ Reads previous kind text tail ∧ q.offset = p.offset + text.size := by
  rw [scanToken_eq, Prod.mk.injEq] at h
  obtain ⟨hkind, hscan⟩ := h
  rw [hkind] at hscan
  obtain ⟨body, rfl, rfl, hoffset⟩ := eq_append_of_scanOf hscan
  exact ⟨rfl, reads_cons_iff.mpr ⟨hstart, hkind, p, q, hscan⟩, hoffset⟩

/-! ### Other tails -/

/-- The character is in no punctuator of more than one character. -/
def InNoPunct (c : Char) : Prop := ∀ s ∈ longPuncts, c ∉ s.toList

/-- A character that is in no long punctuator does not lengthen one.  Spaces, quotes and the
separators are such characters. -/
theorem punctLength_append_cons {c : Char} (hc : InNoPunct c) (text t : Text) :
    punctLength (text ++ c :: t) = punctLength text := by
  have hsame : ∀ s ∈ longPuncts,
      s.toList.isPrefixOf (text ++ c :: t) = s.toList.isPrefixOf text := by
    intro s hs
    rw [Bool.eq_iff_iff, List.isPrefixOf_iff_prefix, List.isPrefixOf_iff_prefix]
    constructor
    · intro hprefix
      rcases le_total s.toList.length text.length with hle | hle
      · exact List.prefix_of_prefix_length_le hprefix (List.prefix_append _ _) hle
      · obtain ⟨more, hmore⟩ :=
          List.prefix_of_prefix_length_le (List.prefix_append text (c :: t)) hprefix hle
        rw [← hmore, List.prefix_append_right_inj] at hprefix
        cases more with
        | nil => simp [← hmore]
        | cons d more =>
          obtain ⟨rfl, _⟩ := List.cons_prefix_cons.mp hprefix
          exact absurd (hmore ▸ by simp) (hc s hs)
    · intro hprefix
      exact hprefix.trans (List.prefix_append _ _)
  rw [punctLength, List.find?_congr hsame, punctLength]

/-- The head of a tail that begins with something else. -/
theorem head?_append_of_ne_nil {u : Text} (hu : u ≠ []) (t t' : Text) :
    (u ++ t).head? = (u ++ t').head? := by
  cases u with
  | nil => exact absurd rfl hu
  | cons c u => rfl

/-- A token that ends before a text ends before every front of it.  What counts is the next
character, if there is one, and for punctuators the next few. -/
theorem endsBefore_front {u t : Text} (h : endsBefore kind text (u ++ t)) :
    endsBefore kind text u := by
  by_cases hu : u = []
  · subst hu
    cases kind with
    | punct =>
      simp only [Twinfold.endsBefore, Bool.and_eq_true, decide_eq_true_eq, List.nil_append] at h ⊢
      have hlen := punctLength_of_append (h.1.1.trans_le (Nat.le_refl _))
      simp [hlen, h.1.1]
    | _ => rfl
  · have hhead := head?_append_of_ne_nil hu t []
    rw [List.append_nil] at hhead
    unfold Twinfold.endsBefore at h ⊢
    rw [hhead] at h
    cases kind with
    | punct =>
      simp only [Bool.and_eq_true, decide_eq_true_eq] at h ⊢
      obtain ⟨⟨hlen, hdot⟩, hslash⟩ := h
      refine ⟨⟨?_, hdot⟩, hslash⟩
      rw [← List.append_assoc] at hlen
      exact (punctLength_of_append (hlen.trans_le (by simp))).trans hlen
    | _ => exact h

/-- **Far tails.**  A token that ends before a tail ends before every tail that begins like it
and goes on with a character that is in no long punctuator. -/
theorem endsBefore_of_agree {u t : Text} (h : endsBefore kind text (u ++ t)) (hu : u ≠ []) {c : Char}
    (hc : InNoPunct c) (t' : Text) : endsBefore kind text (u ++ c :: t') := by
  have hhead := head?_append_of_ne_nil hu t (c :: t')
  unfold Twinfold.endsBefore at h ⊢
  rw [← hhead]
  cases kind with
  | punct =>
    simp only [Bool.and_eq_true, decide_eq_true_eq] at h ⊢
    obtain ⟨⟨hlen, hdot⟩, hslash⟩ := h
    refine ⟨⟨?_, hdot⟩, hslash⟩
    rw [← List.append_assoc, punctLength_append_cons hc]
    rw [← List.append_assoc] at hlen
    exact (punctLength_of_append (hlen.trans_le (by simp))).trans hlen
  | string => exact h
  | template => exact h
  | regex => exact h
  | ident => exact h
  | number => exact h

/-- Only of what begins with a slash the kind depends on where it is read. -/
theorem kind_eq_of_reads {previous' : Option Token} {kind' : TokenKind} {tail' : Text}
    (h : Reads previous kind text tail) (h' : Reads previous' kind' text tail')
    (hslash : text.head? ≠ some '/') : kind = kind' := by
  cases text with
  | nil => exact absurd rfl h.ne_nil
  | cons c body =>
    obtain ⟨_, hkind, _⟩ := reads_cons_iff.mp h.alone
    obtain ⟨_, hkind', _⟩ := reads_cons_iff.mp h'.alone
    rw [← hkind, ← hkind']
    exact kindAt_previous fun hc => absurd (congrArg some hc) hslash

/-- What stands behind a character that is in no long punctuator does not count.  Of the text
behind a token only the next character counts, or the punctuator that it begins. -/
theorem endsBefore_congr {u : Text} {c : Char} (hc : InNoPunct c) (t t' : Text) :
    endsBefore kind text (u ++ c :: t) = endsBefore kind text (u ++ c :: t') := by
  have happ : ∀ t : Text, u ++ c :: t = (u ++ [c]) ++ t := by simp
  have hhead : (u ++ c :: t).head? = (u ++ c :: t').head? := by
    have hne : u ++ [c] ≠ [] := by simp
    rw [happ t, happ t']
    exact head?_append_of_ne_nil hne t t'
  unfold Twinfold.endsBefore
  rw [hhead]
  cases kind with
  | punct =>
    rw [← List.append_assoc, punctLength_append_cons hc, ← List.append_assoc,
      punctLength_append_cons hc]
  | string => rfl
  | template => rfl
  | regex => rfl
  | ident => rfl
  | number => rfl

/-- A punctuator of one character that is in no long one ends before everything. -/
theorem endsBefore_delimiter {c : Char} (hc : InNoPunct c) (hdot : c ≠ '.') (hslash : c ≠ '/')
    (tail : Text) : endsBefore .punct [c] tail := by
  have hlen : punctLength (c :: tail) = 1 := by
    have hcut := @punctLength_append_cons c hc [] tail
    rw [List.nil_append] at hcut
    rw [hcut]
    decide
  simp [Twinfold.endsBefore, hlen, hdot, hslash]

/-! ### Separators -/

/-- Characters before which every token ends. -/
def separators : List Char := " \n()[]\x7b\x7d,;".toList

theorem inNoPunct_of_separator : ∀ c ∈ separators, InNoPunct c := by
  unfold InNoPunct
  decide

/-- With a separator no token goes on. -/
theorem separators_continue_nothing : ∀ c ∈ separators,
    continuesIdent c = false ∧ c.isAlphanum = false ∧ c.isDigit = false ∧
      c ∉ ['.', '_', '+', '-', '/', '*'] := by
  decide

/-- **Separators.**  Every token ends before a separator.  A separator goes on no word, no number
and no long punctuator. -/
theorem endsBefore_separator (h : Reads previous kind text []) {c : Char} (hc : c ∈ separators)
    (t : Text) : endsBefore kind text (c :: t) := by
  obtain ⟨hident, halnum, hdigit, hother⟩ := separators_continue_nothing c hc
  have hends := h.endsBefore
  simp only [List.mem_cons, List.not_mem_nil, or_false, not_or] at hother
  cases kind with
  | string => rfl
  | template => rfl
  | regex => simp [Twinfold.endsBefore, hident]
  | ident => simp [Twinfold.endsBefore, hident]
  | number => simp [Twinfold.endsBefore, continuesNumber, halnum, hother]
  | punct =>
    simp only [Twinfold.endsBefore, List.append_nil, Bool.and_eq_true, decide_eq_true_eq] at hends ⊢
    rw [punctLength_append_cons (inNoPunct_of_separator c hc)]
    exact ⟨⟨hends.1.1, by simp [hdigit]⟩, by simp [hother]⟩

end

/-- A punctuator of one character that is in no long one is read before everything. -/
theorem reads_delimiter {c : Char} (hc : c ∈ ['(', ')', '\x7b', '\x7d', ',', ';'])
    (previous : Option Token) (tail : Text) : Reads previous .punct [c] tail := by
  have hread : ∀ c ∈ ['(', ')', '\x7b', '\x7d', ',', ';'],
      startsToken [c] = true ∧ kindAt none c none = .punct ∧ InNoPunct c ∧ c ≠ '.' ∧ c ≠ '/' ∧
        punctLength [c] = 1 := by
    unfold InNoPunct
    decide
  obtain ⟨hstarts, hkind, hlong, hdot, hslash, hlength⟩ := hread c hc
  have halone : Reads none .punct [c] [] :=
    reads_cons_iff.mpr ⟨hstarts, hkind, .start, scanPunct_eq_found_iff.mpr hlength⟩
  refine (halone.behind ?_).retail (endsBefore_delimiter hlong hdot hslash tail)
  intro hhead
  exact absurd (Option.some_inj.mp hhead) hslash

end Twinfold
