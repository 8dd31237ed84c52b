import Twinfold.Proofs.Token.Scanning
import Twinfold.Token.Bytes

/-!
# Characters as bytes

A character is one byte if it is ASCII.  Otherwise it is a leading byte from 0xC0 on and some
continuing bytes from 0x80 to 0xBF, so no byte of it is that of an ASCII character
(`le_of_mem_utf8EncodeChar`), and the positions inside it are not between characters
(`Stands.isBoundary_inside`).

That a text stands at a position (`Bytes.Stands`) means that the source is some characters and then
this text, and that the position is behind these characters.  What a scanner sees from there is told
by the text: the byte at the position, whether a given ASCII character comes next, which slices can be
cut out, and whether a space beyond ASCII is there.
-/

namespace Twinfold

/-! ### Bytes of one character -/

@[simp] theorem Text.utf8_nil : Text.utf8 [] = [] := rfl

@[simp] theorem Text.utf8_cons (c : Char) (t : Text) :
    Text.utf8 (c :: t) = String.utf8EncodeChar c ++ Text.utf8 t := rfl

@[simp] theorem Text.utf8_append (t u : Text) : (t ++ u).utf8 = t.utf8 ++ u.utf8 :=
  List.flatMap_append

/-- The size of a text is the number of its bytes. -/
@[simp] theorem Text.length_utf8 (t : Text) : t.utf8.length = t.size := by
  induction t with
  | nil => rfl
  | cons c t ih => rw [utf8_cons, List.length_append, String.length_utf8EncodeChar, ih, size_cons]

/-- Texts are told by their bytes. -/
theorem Text.utf8_inj {t u : Text} : t.utf8 = u.utf8 ↔ t = u := by
  refine ⟨fun h => ?_, congrArg _⟩
  have hbytes : (String.ofList t).toByteArray = (String.ofList u).toByteArray :=
    congrArg List.toByteArray h
  exact String.ofList_inj.mp (String.toByteArray_inj.mp hbytes)

theorem utf8Size_of_ascii {c : Char} (h : c.toNat < 128) : c.utf8Size = 1 := by
  rw [Char.utf8Size_eq_one_iff, UInt32.le_iff_toNat_le]
  exact Nat.le_of_lt_succ h

/-- An ASCII character is one byte. -/
theorem utf8EncodeChar_of_ascii {c : Char} (h : c.toNat < 128) :
    String.utf8EncodeChar c = [ascii c] := by
  have hle : c.val.toNat ≤ 127 := Nat.le_of_lt_succ h
  simp only [String.utf8EncodeChar, hle, if_true]
  rfl

/-- A character beyond ASCII is a leading byte and some continuing bytes. -/
theorem exists_lead_of_utf8EncodeChar {c : Char} (h : 128 ≤ c.toNat) :
    ∃ lead tail, String.utf8EncodeChar c = lead :: tail ∧ 0xC0 ≤ lead ∧
      ∀ b ∈ tail, 0x80 ≤ b ∧ b < 0xC0 := by
  have hnot : ¬c.val.toNat ≤ 127 := Nat.not_le_of_lt h
  simp only [String.utf8EncodeChar, hnot, if_false]
  split_ifs <;> refine ⟨_, _, rfl, ?_, ?_⟩ <;>
    simp only [List.forall_mem_cons, List.not_mem_nil, false_imp_iff, implies_true, and_true,
      UInt8.le_iff_toNat_le, UInt8.lt_iff_toNat_lt, UInt8.toNat_ofNat', UInt8.toNat_ofNat] <;>
    omega

/-- No byte of a character beyond ASCII is that of an ASCII character. -/
theorem le_of_mem_utf8EncodeChar {c : Char} (h : 128 ≤ c.toNat) {b : UInt8}
    (hb : b ∈ String.utf8EncodeChar c) : 0x80 ≤ b := by
  obtain ⟨lead, tail, hbytes, hlead, htail⟩ := exists_lead_of_utf8EncodeChar h
  rw [hbytes, List.mem_cons] at hb
  rcases hb with rfl | hb
  · exact UInt8.le_trans (by decide) hlead
  · exact (htail b hb).1

/-- ASCII characters are told by their bytes. -/
theorem ascii_eq_iff {c d : Char} (hc : c.toNat < 128) (hd : d.toNat < 128) :
    ascii c = ascii d ↔ c = d := by
  refine ⟨fun h => ?_, congrArg ascii⟩
  have hnat := congrArg UInt8.toNat h
  rw [ascii, ascii, UInt8.toNat_ofNat', UInt8.toNat_ofNat'] at hnat
  exact Char.toNat_inj.mp (by omega)

theorem ascii_lt {c : Char} (hc : c.toNat < 128) : ascii c < 0x80 := by
  rw [UInt8.lt_iff_toNat_lt, ascii, UInt8.toNat_ofNat']
  exact Nat.lt_of_le_of_lt (Nat.mod_le _ _) hc

/-- A byte beyond ASCII is not that of an ASCII character. -/
theorem ne_ascii {b : UInt8} (hb : 0x80 ≤ b) {c : Char} (hc : c.toNat < 128) : b ≠ ascii c := by
  rintro rfl
  exact absurd (ascii_lt hc) (UInt8.not_lt.mpr hb)

/-! ### Classes of bytes -/

/-- What is true of the first 128 characters is true of every ASCII character. -/
theorem forall_ascii {p : Char → Prop} (h : ∀ n < 128, p (Char.ofNat n)) {c : Char}
    (hc : c.toNat < 128) : p c := by
  have hchar := h c.toNat hc
  rwa [Char.ofNat_toNat] at hchar

theorem isSpaceByte_ascii {c : Char} (hc : c.toNat < 128) : isSpaceByte (ascii c) = isAsciiSpace c :=
  forall_ascii (p := fun c => isSpaceByte (ascii c) = isAsciiSpace c) (by decide) hc

theorem isDigitByte_ascii {c : Char} (hc : c.toNat < 128) : isDigitByte (ascii c) = c.isDigit :=
  forall_ascii (p := fun c => isDigitByte (ascii c) = c.isDigit) (by decide) hc

theorem isLetterByte_ascii {c : Char} (hc : c.toNat < 128) : isLetterByte (ascii c) = c.isAlpha :=
  forall_ascii (p := fun c => isLetterByte (ascii c) = c.isAlpha) (by decide) hc

theorem beginsIdentByte_ascii {c : Char} (hc : c.toNat < 128) :
    beginsIdentByte (ascii c) = beginsIdent c :=
  forall_ascii (p := fun c => beginsIdentByte (ascii c) = beginsIdent c) (by decide) hc

theorem continuesIdentByte_ascii {c : Char} (hc : c.toNat < 128) :
    continuesIdentByte (ascii c) = continuesIdent c := by
  rw [continuesIdentByte, beginsIdentByte_ascii hc, isDigitByte_ascii hc, continuesIdent]

theorem beginsIdentByte_of_le {b : UInt8} (hb : 0x80 ≤ b) : beginsIdentByte b = true := by
  simp [beginsIdentByte, hb]

theorem continuesIdentByte_of_le {b : UInt8} (hb : 0x80 ≤ b) : continuesIdentByte b = true := by
  simp [continuesIdentByte, beginsIdentByte_of_le hb]

theorem continuesIdent_of_le {c : Char} (hc : 128 ≤ c.toNat) : continuesIdent c = true := by
  simp [continuesIdent, beginsIdent, hc]

/-- No byte of a character beyond ASCII is a digit, -/
theorem not_isDigitByte_of_le {b : UInt8} (hb : 0x80 ≤ b) : isDigitByte b = false := by
  rw [UInt8.le_iff_toNat_le] at hb
  simp only [isDigitByte, Bool.and_eq_false_iff, decide_eq_false_iff_not, UInt8.le_iff_toNat_le]
  simp only [UInt8.toNat_ofNat] at hb ⊢
  omega

/-- or an ASCII letter. -/
theorem not_isLetterByte_of_le {b : UInt8} (hb : 0x80 ≤ b) : isLetterByte b = false := by
  rw [UInt8.le_iff_toNat_le] at hb
  simp only [isLetterByte, Bool.or_eq_false_iff, Bool.and_eq_false_iff, decide_eq_false_iff_not,
    UInt8.le_iff_toNat_le]
  simp only [UInt8.toNat_ofNat] at hb ⊢
  omega

theorem not_isSpaceByte_of_le {b : UInt8} (hb : 0x80 ≤ b) : isSpaceByte b = false := by
  simp only [isSpaceByte, Bool.or_eq_false_iff, decide_eq_false_iff_not]
  refine ⟨⟨⟨⟨?_, ?_⟩, ?_⟩, ?_⟩, ?_⟩ <;> rintro rfl <;> exact absurd hb (by decide)

/-! ### Texts at positions -/

/-- A character is told by the bytes that a text begins with. -/
theorem utf8EncodeChar_prefix_iff {c d : Char} {t : Text} :
    String.utf8EncodeChar d <+: Text.utf8 (c :: t) ↔ d = c := by
  constructor
  · rintro ⟨bytes, happend⟩
    have hdecode := congrArg (fun l => l.toByteArray.utf8DecodeChar? 0) happend
    simp only [Text.utf8_cons, List.toByteArray_append,
      ByteArray.utf8DecodeChar?_utf8EncodeChar_append] at hdecode
    exact Option.some_inj.mp hdecode
  · rintro rfl
    exact List.prefix_append _ _

/-- A text is in front of another one if its bytes are.  A byte that begins a character is not a
byte that continues one, so characters do not run into each other. -/
theorem utf8_prefix_iff {t u : Text} : t.utf8 <+: u.utf8 ↔ t <+: u := by
  induction t generalizing u with
  | nil => simp
  | cons c t ih =>
    cases u with
    | nil =>
      have hpos := Char.utf8Size_pos c
      simp only [Text.utf8_nil, List.prefix_nil, Text.utf8_cons, List.append_eq_nil_iff, reduceCtorEq,
        iff_false, not_and]
      intro hnil
      rw [← String.length_utf8EncodeChar, hnil] at hpos
      exact absurd hpos (Nat.lt_irrefl 0)
    | cons d u =>
      rw [List.cons_prefix_cons, ← ih]
      constructor
      · intro h
        obtain rfl := utf8EncodeChar_prefix_iff.mp ((List.prefix_append _ (Text.utf8 t)).trans h)
        exact ⟨rfl, (List.prefix_append_right_inj _).mp h⟩
      · rintro ⟨rfl, h⟩
        exact (List.prefix_append_right_inj _).mpr h

namespace Bytes

/-- The text `rest` is what is left of the source at a position between characters. -/
def Stands (src : Bytes) (pos : Nat) (rest : Text) : Prop :=
  ∃ before : Text, src.toList = (before ++ rest).utf8 ∧ pos = before.size

/-- A source file stands at its beginning. -/
theorem stands_start (source : Text) : Stands source.utf8.toArray 0 source := ⟨[], rfl, rfl⟩

namespace Stands

variable {src : Bytes} {pos i : Nat} {rest taken t : Text} {c d : Char}

theorem size_eq (h : src.Stands pos rest) : src.size = pos + rest.size := by
  obtain ⟨before, hsrc, rfl⟩ := h
  rw [← Array.length_toList, hsrc, Text.length_utf8, Text.size_append]

/-- The bytes from a place on are those of the text that stands there. -/
theorem getElem?_eq (h : src.Stands pos rest) (i : Nat) : src[pos + i]? = rest.utf8[i]? := by
  obtain ⟨before, hsrc, rfl⟩ := h
  rw [← Array.getElem?_toList, hsrc, Text.utf8_append,
    List.getElem?_append_right (by rw [Text.length_utf8]; exact Nat.le_add_right _ _),
    Text.length_utf8, Nat.add_sub_cancel_left]

/-- Behind a part of the text the rest of it stands. -/
theorem behind (h : src.Stands pos (taken ++ rest)) : src.Stands (pos + taken.size) rest := by
  obtain ⟨before, hsrc, rfl⟩ := h
  exact ⟨before ++ taken, by rw [hsrc, List.append_assoc], (Text.size_append _ _).symm⟩

theorem tail (h : src.Stands pos (c :: t)) : src.Stands (pos + c.utf8Size) t := by
  obtain ⟨before, hsrc, rfl⟩ := h
  exact ⟨before ++ [c], by rw [hsrc, List.append_assoc, List.singleton_append], by simp⟩

theorem tail_ascii (h : src.Stands pos (c :: t)) (hc : c.toNat < 128) : src.Stands (pos + 1) t :=
  utf8Size_of_ascii hc ▸ h.tail

/-- Behind the text there are no bytes. -/
theorem getElem?_end (h : src.Stands pos []) (hle : pos ≤ i) : src[i]? = none := by
  rw [Array.getElem?_eq_none]
  rw [h.size_eq]
  exact hle

/-- Where an ASCII character stands, its byte does. -/
theorem getElem?_ascii (h : src.Stands pos (c :: t)) (hc : c.toNat < 128) :
    src[pos]? = some (ascii c) := by
  rw [← Nat.add_zero pos, h.getElem?_eq, Text.utf8_cons, utf8EncodeChar_of_ascii hc]
  rfl

/-- The bytes of a character beyond ASCII. -/
theorem exists_byte (h : src.Stands pos (c :: t)) (hc : 128 ≤ c.toNat) (hi : i < c.utf8Size) :
    ∃ b, src[pos + i]? = some b ∧ 0x80 ≤ b := by
  rw [← String.length_utf8EncodeChar] at hi
  rw [h.getElem?_eq, Text.utf8_cons, List.getElem?_append_left hi, List.getElem?_eq_getElem hi]
  exact ⟨_, rfl, le_of_mem_utf8EncodeChar hc (List.getElem_mem hi)⟩

/-- The first byte of a character beyond ASCII. -/
theorem exists_first_byte (h : src.Stands pos (c :: t)) (hc : 128 ≤ c.toNat) :
    ∃ b, src[pos]? = some b ∧ 0x80 ≤ b :=
  h.exists_byte hc (i := 0) (Char.utf8Size_pos c)

/-- A character has a byte. -/
theorem exists_getElem? (h : src.Stands pos (c :: t)) : ∃ b, src[pos]? = some b := by
  by_cases hc : c.toNat < 128
  · exact ⟨_, h.getElem?_ascii hc⟩
  · obtain ⟨b, hb, -⟩ := h.exists_first_byte (Nat.not_lt.mp hc)
    exact ⟨b, hb⟩

/-- The byte at a position is that of an ASCII character if this character comes next. -/
theorem getElem?_eq_ascii_iff (h : src.Stands pos t) (hd : d.toNat < 128) :
    src[pos]? = some (ascii d) ↔ t.head? = some d := by
  cases t with
  | nil =>
    rw [h.getElem?_end (Nat.le_refl _)]
    simp
  | cons c t =>
    by_cases hc : c.toNat < 128
    · rw [h.getElem?_ascii hc, Option.some_inj, ascii_eq_iff hc hd, List.head?_cons, Option.some_inj]
    · obtain ⟨b, hb, hle⟩ := h.exists_first_byte (Nat.not_lt.mp hc)
      rw [hb, Option.some_inj, List.head?_cons, Option.some_inj]
      refine iff_of_false (ne_ascii hle hd) ?_
      rintro rfl
      exact hc hd

/-- The first byte of a character is compared with ASCII characters as the character is. -/
theorem byte_eq_ascii_iff {b : UInt8} (h : src.Stands pos (c :: t)) (hb : src[pos]? = some b)
    (hd : d.toNat < 128) : b = ascii d ↔ c = d := by
  have hiff := h.getElem?_eq_ascii_iff hd
  rwa [hb, Option.some_inj, List.head?_cons, Option.some_inj] at hiff

/-! ### Slices -/

/-- Where a text stands in the bytes, a character begins, so a slice can begin or end there. -/
theorem isBoundary (h : src.Stands pos rest) : src.isBoundary pos = true := by
  cases rest with
  | nil => simp [Bytes.isBoundary, h.size_eq]
  | cons c t =>
    have hlead : ∃ b, src[pos]? = some b ∧ (b < 0x80 ∨ 0xC0 ≤ b) := by
      by_cases hc : c.toNat < 128
      · exact ⟨_, h.getElem?_ascii hc, .inl (ascii_lt hc)⟩
      · obtain ⟨lead, tail, hbytes, hlead, -⟩ := exists_lead_of_utf8EncodeChar (Nat.not_lt.mp hc)
        refine ⟨lead, ?_, .inr hlead⟩
        rw [← Nat.add_zero pos, h.getElem?_eq, Text.utf8_cons, hbytes]
        rfl
    obtain ⟨b, hb, hcase⟩ := hlead
    simp [Bytes.isBoundary, hb, hcase]

/-- Positions inside a character are not between characters.  The bytes there continue the
character, which can be seen from each of them. -/
theorem isBoundary_inside (h : src.Stands pos (c :: t)) (hpos : 0 < i) (hi : i < c.utf8Size) :
    src.isBoundary (pos + i) = false := by
  have hc : 128 ≤ c.toNat := by
    by_contra hlt
    rw [utf8Size_of_ascii (Nat.not_le.mp hlt)] at hi
    omega
  obtain ⟨lead, tail, hbytes, -, htail⟩ := exists_lead_of_utf8EncodeChar hc
  obtain ⟨j, rfl⟩ := Nat.exists_eq_succ_of_ne_zero (Nat.ne_of_gt hpos)
  rw [← String.length_utf8EncodeChar, hbytes, List.length_cons] at hi
  have hj : j < tail.length := Nat.lt_of_succ_lt_succ hi
  have hbyte : src[pos + j.succ]? = some tail[j] := by
    rw [h.getElem?_eq, Text.utf8_cons, hbytes, List.cons_append, List.getElem?_cons_succ,
      List.getElem?_append_left hj, List.getElem?_eq_getElem hj]
  obtain ⟨hlow, hhigh⟩ := htail _ (List.getElem_mem hj)
  have hsize : pos + j.succ ≠ src.size := by
    intro heq
    rw [heq, Array.getElem?_eq_none (Nat.le_refl _)] at hbyte
    cases hbyte
  simp only [Bytes.isBoundary, hbyte, hsize, Option.any_some, Bool.or_eq_false_iff,
    decide_eq_false_iff_not]
  exact ⟨⟨by omega, not_false⟩, UInt8.not_lt.mpr hlow, UInt8.not_le.mpr hhigh⟩

/-- **A text that stands at a position can be cut out.**  It begins and ends between characters, as
every text does that stands in UTF-8. -/
theorem slice?_eq (h : src.Stands pos (taken ++ rest)) :
    src.slice? pos (pos + taken.size) = some taken.utf8 := by
  rw [slice?, h.isBoundary, h.behind.isBoundary, decide_eq_true (Nat.le_add_right _ _)]
  obtain ⟨before, hsrc, rfl⟩ := h
  simp only [Bool.and_self, if_true, Array.toList_extract, List.extract_eq_take_drop, hsrc,
    Nat.add_sub_cancel_left, Text.utf8_append, ← Text.length_utf8, List.drop_left, List.take_left]

theorem slice?_rest (h : src.Stands pos rest) : src.slice? pos src.size = some rest.utf8 := by
  have hwhole : src.Stands pos (rest ++ []) := by rwa [List.append_nil]
  rw [h.size_eq, hwhole.slice?_eq]

/-- A space beyond ASCII is found where it stands. -/
theorem wideSpace?_eq (h : src.Stands pos (c :: t)) :
    src.wideSpace? pos = if isWideSpace c then some c.utf8Size else none := by
  have hfits : ∀ d, (String.utf8EncodeChar d).isPrefixOf (Text.utf8 (c :: t)) = decide (d = c) := by
    intro d
    rw [Bool.eq_iff_iff, List.isPrefixOf_iff_prefix, utf8EncodeChar_prefix_iff, decide_eq_true_iff]
  simp only [wideSpace?, h.slice?_rest, wideSpaces, Option.bind_eq_bind, Option.bind_some,
    List.find?_map, Function.comp_def, hfits]
  by_cases hwide : isWideSpace c = true
  · rw [if_pos hwide]
    simp only [isWideSpace, Bool.or_eq_true, decide_eq_true_eq] at hwide
    rcases hwide with ((rfl | rfl) | rfl) | rfl <;> rfl
  · rw [if_neg hwide]
    simp only [isWideSpace, Bool.or_eq_true, decide_eq_true_eq, not_or, @eq_comm _ c] at hwide
    obtain ⟨⟨⟨hmark, hnoBreak⟩, hline⟩, hparagraph⟩ := hwide
    simp [hmark, hnoBreak, hline, hparagraph]

/-- Inside a character no space is found. -/
theorem wideSpace?_inside (h : src.Stands pos (c :: t)) (hpos : 0 < i) (hi : i < c.utf8Size) :
    src.wideSpace? (pos + i) = none := by
  simp [wideSpace?, slice?, h.isBoundary_inside hpos hi]

end Stands

end Bytes

end Twinfold
