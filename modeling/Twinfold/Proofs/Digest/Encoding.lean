import Mathlib.Data.List.Forall2
import Mathlib.Data.Nat.Digits.Defs
import Twinfold.Digest
import Twinfold.Proofs.Text.Split
import Twinfold.Proofs.Text.Words
import Twinfold.Proofs.Token.Bytes

/-!
# What a fingerprint digests

Behind the joined lines stand a `#`, their number, a `:` and the number of characters.  Lines may
hold such a suffix themselves, but digits hold no mark, so the last `#` and the last `:` are those
that were appended (`eq_of_append_cons_eq`).  The number of lines tells no line from one empty line,
and otherwise the lines are the pieces of the joined text, because collapsed lines hold no line end.

So the bytes that are hashed tell the collapsed lines (`digested_inj`), and a line can be respaced
without a change.

* `fingerprint_digests_lines` — two bodies share a hash exactly if their collapsed lines are the same
  or their bytes collide.
-/

namespace Twinfold

/-! ### Characters, digits and marks -/

/-- Numbers are told by their digits. -/
theorem Text.ofNat_inj {m n : Nat} : Text.ofNat m = Text.ofNat n ↔ m = n := by
  refine ⟨fun h => ?_, congrArg _⟩
  simpa [Text.ofNat] using congrArg (fun digits => Nat.ofDigitChars 10 digits 0) h

/-- A mark is no digit. -/
theorem not_mem_ofNat {c : Char} (hc : c.isDigit = false) (n : Nat) : c ∉ Text.ofNat n := by
  intro hmem
  have hdigit := Nat.isDigit_of_mem_toDigits (by decide) (by decide) hmem
  simp [hc] at hdigit

/-- The last mark of a text is known from what stands behind it. -/
theorem eq_of_append_cons_eq {c : Char} {t t' u u' : Text} (hu : c ∉ u) (hu' : c ∉ u')
    (h : t ++ c :: u = t' ++ c :: u') : t = t' ∧ u = u' := by
  obtain ⟨between, ht, hbehind⟩ | ⟨between, ht, hbehind⟩ := List.append_eq_append_iff.mp h
  -- If something stood between the marks, the second one would stand behind the first.
  · cases between <;> simp_all
  · cases between <;> simp_all

/-! ### Lines -/

/-- The encoding in three parts: the joined lines, their number, and the number of characters. -/
theorem encodeLines_eq (lines : List Text) :
    encodeLines lines = Text.join ['\n'] lines ++ '#' :: (Text.ofNat lines.length ++
      ':' :: Text.ofNat (Text.join ['\n'] lines).length) := by
  simp [encodeLines]

/-- **Lines are told by what is hashed.**  They may hold anything but line ends, also what looks like
the numbers behind them. -/
theorem encodeLines_inj {ts us : List Text} (hts : ∀ t ∈ ts, '\n' ∉ t) (hus : ∀ u ∈ us, '\n' ∉ u) :
    encodeLines ts = encodeLines us ↔ ts = us := by
  refine ⟨fun h => ?_, congrArg _⟩
  have hcolon (n : Nat) : ':' ∉ Text.ofNat n := not_mem_ofNat (by decide) n
  have hnumbers (m n : Nat) : '#' ∉ Text.ofNat m ++ ':' :: Text.ofNat n := by
    simp [not_mem_ofNat (c := '#') (by decide)]
  rw [encodeLines_eq, encodeLines_eq] at h
  obtain ⟨hjoined, hbehind⟩ := eq_of_append_cons_eq (hnumbers _ _) (hnumbers _ _) h
  obtain ⟨hcount, _⟩ := eq_of_append_cons_eq (hcolon _) (hcolon _) hbehind
  have hlength : ts.length = us.length := Text.ofNat_inj.mp hcount
  -- No line and one empty line are joined to the same text; the number of lines tells them apart.
  by_cases hne : ts = []
  · subst hne
    exact (List.length_eq_zero_iff.mp hlength.symm).symm
  · have hne' : us ≠ [] := by
      rintro rfl
      exact hne (List.length_eq_zero_iff.mp hlength)
    rwa [Text.join_eq_join_iff, Text.piecesOf_of_not_mem hne hts,
      Text.piecesOf_of_not_mem hne' hus] at hjoined

example : Text.join ['\n'] [] = Text.join ['\n'] [[]] ∧ encodeLines [] ≠ encodeLines [[]] := by
  decide

/-- A collapsed text has no space but the blanks between its words. -/
theorem eq_blank_of_mem_collapseSpaces {t : Text} {c : Char} (h : c ∈ collapseSpaces t)
    (hc : isAsciiSpace c = true) : c = ' ' := by
  obtain hblank | ⟨word, hword, hmem⟩ := Text.mem_or_mem_of_mem_join h
  · exact List.mem_singleton.mp hblank
  · have hletter := forall_of_mem_words hword c hmem
    simp [hc] at hletter

/-- A text can be respaced without a change of what it collapses to. -/
theorem Respaced.collapseSpaces_eq {t u : Text}
    (h : Respaced (fun c => !isAsciiSpace c) t u) : collapseSpaces t = collapseSpaces u :=
  congrArg (Text.join [' ']) (h.words_append_eq [])

/-! ### Declarations -/

namespace Declaration

/-- The lines of the body with every run of white space collapsed. -/
def collapsedLines (d : Declaration) : List Text :=
  d.lines.map fun line => collapseSpaces line.text

/-- The bytes that the fingerprint hashes. -/
def digested (d : Declaration) : List UInt8 := (encodeLines d.collapsedLines).utf8

/-- The lines differ in the length and the kind of their runs of white space. -/
def RespacedTo (d e : Declaration) : Prop :=
  List.Forall₂ (fun line line' : LogicalLine =>
    Respaced (fun c => !isAsciiSpace c) line.text line'.text) d.lines e.lines

variable {d e : Declaration}

/-- **The digested bytes tell the collapsed lines.**  The number that is appended tells no line
from an empty one, and the line ends tell the others apart. -/
theorem digested_inj : d.digested = e.digested ↔ d.collapsedLines = e.collapsedLines := by
  have hlines (d : Declaration) : ∀ t ∈ d.collapsedLines, '\n' ∉ t := by
    intro t ht hmem
    obtain ⟨line, _, rfl⟩ := List.mem_map.mp ht
    exact absurd (eq_blank_of_mem_collapseSpaces hmem (by decide)) (by decide)
  rw [digested, digested, Text.utf8_inj, encodeLines_inj (hlines d) (hlines e)]

/-- Collapsed lines do not tell how wide the white space was. -/
theorem RespacedTo.collapsedLines_eq (h : d.RespacedTo e) :
    d.collapsedLines = e.collapsedLines := by
  rw [collapsedLines, collapsedLines, ← List.forall₂_eq_eq_eq, List.forall₂_map_left_iff,
    List.forall₂_map_right_iff]
  exact h.imp fun _ _ hline => hline.collapseSpaces_eq

end Declaration

/-- The byte strings are different and have one hash. -/
def Collide (x y : List UInt8) : Prop := x ≠ y ∧ fnv1a x = fnv1a y

/-- **Fingerprints digest an injective encoding.**  The bytes that are hashed tell the collapsed
lines, so bodies with different collapsed lines share a hash only where these bytes collide.  In
lines that are respaced, neither the hash nor the two numbers change. -/
theorem fingerprint_digests_lines (d e : Declaration) :
    d.fingerprint.hash = fnv1a d.digested ∧
    (d.digested = e.digested ↔ d.collapsedLines = e.collapsedLines) ∧
    (d.fingerprint.hash = e.fingerprint.hash ↔
      d.collapsedLines = e.collapsedLines ∨ Collide d.digested e.digested) ∧
    (d.RespacedTo e → d.fingerprint.hash = e.fingerprint.hash ∧
      d.fingerprint.lines = e.fingerprint.lines ∧ d.fingerprint.chars = e.fingerprint.chars) := by
  have hhash (d : Declaration) : d.fingerprint.hash = fnv1a d.digested := rfl
  refine ⟨hhash d, Declaration.digested_inj, ?_, fun hrespaced => ?_⟩
  · rw [hhash, hhash, ← Declaration.digested_inj, Collide]
    by_cases heq : d.digested = e.digested <;> simp [heq]
  · have hlines := hrespaced.collapsedLines_eq
    have hof (d : Declaration) : d.fingerprint = .ofLines d.collapsedLines d.tokenCount := rfl
    rw [hof, hof, hlines]
    exact ⟨rfl, rfl, rfl⟩

end Twinfold
