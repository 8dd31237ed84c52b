import Twinfold.Proofs.Coalesce.NameOrder
import Twinfold.Proofs.Token.Renaming
import Twinfold.Similarity.Comparison

/-!
# Words among the generated names

A generated name is meant to be a plain one: no keyword, and no word behind which a `/` begins a
regular expression (`IsPlain`).  A supply leaves out the reserved words, and these are not all such
words.  So a word comes up when its turn has come, unless it is reserved or taken
(`nameAt_mem_freshList_iff`), and put in the place of a literal it may change what is read behind it.

* `generated_plain_iff` — when all generated names are plain, which words can come up if they are
  not, and which of them turn a division behind a literal into a regular expression;
* `of_comes_up` — the 2783rd name is the word `of`.
-/

namespace Twinfold

/-- The name is no keyword and no word before regular expressions. -/
structure IsPlain (name : Text) : Prop where
  not_keyword : ∀ w ∈ keywords, name ≠ w.toList
  not_beforeRegex : ∀ w ∈ wordsBeforeRegex, name ≠ w.toList

/-- The words that are not plain. -/
def specialWords : List String := keywords ++ wordsBeforeRegex

theorem isPlain_iff {name : Text} : IsPlain name ↔ ∀ w ∈ specialWords, name ≠ w.toList := by
  rw [specialWords, List.forall_mem_append]
  exact ⟨fun h => ⟨h.not_keyword, h.not_beforeRegex⟩, fun h => ⟨h.1, h.2⟩⟩

theorem freeAt_append_iff {taken : List Text} {n : Nat} :
    FreeAt (reservedWords ++ taken) n ↔ nameAt n ∉ reservedWords ∧ nameAt n ∉ taken := by
  rw [FreeAt, List.mem_append, not_or]

/-- **The turn of a name.**  A name is handed out if it is free and fewer free names come before it
than names are handed out. -/
theorem nameAt_mem_freshList_iff {taken : List Text} {count n : Nat} :
    nameAt n ∈ ((NameSupply.avoiding taken).freshList count).1 ↔
      FreeAt (reservedWords ++ taken) n ∧
        Nat.count (FreeAt (reservedWords ++ taken)) n < count := by
  have hinfinite := NameSupply.infinite_freeAt (reservedWords ++ taken)
  rw [NameSupply.freshList_avoiding, List.mem_map]
  constructor
  · rintro ⟨i, hi, hname⟩
    rw [← nameAt_injective hname, Nat.count_nth_of_infinite hinfinite]
    exact ⟨Nat.nth_mem_of_infinite hinfinite i, List.mem_range.mp hi⟩
  · rintro ⟨hfree, hcount⟩
    exact ⟨_, List.mem_range.mpr hcount, by rw [Nat.nth_count hfree]⟩

/-- Names begin with small letters, among others, and go on with them. -/
theorem mem_nameChars_of_isLower {c : Char} (h : c.isLower = true) :
    c ∈ firstChars ∧ c ∈ laterChars := by
  have hfirst : firstChars.drop 28 = (List.range' 97 26).map Char.ofNat := by decide +kernel
  have hlater : laterChars.drop 38 = (List.range' 97 26).map Char.ofNat := by decide +kernel
  have hmem : c ∈ (List.range' 97 26).map Char.ofNat := by
    refine List.mem_map.mpr ⟨c.toNat, ?_, Char.ofNat_toNat c⟩
    have hcode : 97 ≤ c.toNat ∧ c.toNat ≤ 122 :=
      (Bool.and_eq_true_iff.mp h).imp of_decide_eq_true of_decide_eq_true
    rw [List.mem_range'_1]
    omega
  exact ⟨List.mem_of_mem_drop (hfirst ▸ hmem), List.mem_of_mem_drop (hlater ▸ hmem)⟩

theorem isLower_of_special : ∀ w ∈ specialWords,
    w.toList ≠ [] ∧ ∀ c ∈ w.toList, c.isLower = true := by
  decide +kernel

/-- Every special word is spelled like a name. -/
theorem spelled_of_special {w : String} (hw : w ∈ specialWords) : Spelled w.toList := by
  obtain ⟨hne, hlower⟩ := isLower_of_special w hw
  obtain ⟨c, body, hword⟩ := List.exists_cons_of_ne_nil hne
  rw [hword] at hlower ⊢
  exact ⟨(mem_nameChars_of_isLower (hlower c List.mem_cons_self)).1,
    fun d hd => (mem_nameChars_of_isLower (hlower d (List.mem_cons_of_mem _ hd))).2⟩

/-- The words that are neither plain nor reserved. -/
theorem length_of_not_reserved : ∀ w ∈ specialWords, w.toList ∉ reservedWords →
    w ∈ ["of", "null", "true"] ∨ 5 ≤ w.toList.length := by
  decide

/-- In the place of a literal a name divides, unless it is a word before regular expressions. -/
theorem slashBeginsRegex_named_iff (t : Token) (name : Text) :
    slashBeginsRegex (some (t.named name)) = true ↔ ∃ w ∈ wordsBeforeRegex, name = w.toList := by
  change (t.named name).isAnyOf wordsBeforeRegex = true ↔ _
  rw [Token.isAnyOf, List.any_eq_true]
  simp only [decide_eq_true_eq]
  rfl

/-- **Generated names are plain** for as long as no word that is neither reserved nor taken has its
turn.  Such a word is `of`, `null` or `true`, or it has at least five letters.  A `/` that divides a
literal goes on to divide what replaces it, unless that is a word before regular expressions. -/
theorem generated_plain_iff (taken : List Text) (count : Nat) :
    ((∀ name ∈ ((NameSupply.avoiding taken).freshList count).1, IsPlain name) ↔
      ∀ w ∈ specialWords, w.toList ∉ reservedWords → w.toList ∉ taken →
        ∃ n, nameAt n = w.toList ∧ count ≤ Nat.count (FreeAt (reservedWords ++ taken)) n) ∧
    ∀ name ∈ ((NameSupply.avoiding taken).freshList count).1,
      (¬IsPlain name → (∃ w ∈ ["of", "null", "true"], name = w.toList) ∨ 5 ≤ name.length) ∧
      ∀ t : Token, t.kind ∈ [TokenKind.number, .string, .template] →
        slashBeginsRegex (some t) = false ∧
          (slashBeginsRegex (some (t.named name)) = true ↔
            ∃ w ∈ wordsBeforeRegex, name = w.toList) := by
  refine ⟨⟨fun hplain w hw hreserved htaken => ?_, fun hturn name hname => ?_⟩,
    fun name hname => ⟨fun hspecial => ?_, fun t ht => ⟨?_, slashBeginsRegex_named_iff t name⟩⟩⟩
  · obtain ⟨n, hn⟩ := exists_nameAt (spelled_of_special hw)
    refine ⟨n, hn, ?_⟩
    by_contra hlt
    have hmem : nameAt n ∈ ((NameSupply.avoiding taken).freshList count).1 := by
      rw [nameAt_mem_freshList_iff, freeAt_append_iff, hn]
      exact ⟨⟨hreserved, htaken⟩, Nat.lt_of_not_le hlt⟩
    exact isPlain_iff.mp (hplain _ hmem) w hw hn
  · obtain ⟨m, rfl⟩ :=
      ((NameSupply.avoiding taken).handsOut_freshList count).exists_number name hname
    obtain ⟨hfree, hlt⟩ := nameAt_mem_freshList_iff.mp hname
    rw [freeAt_append_iff] at hfree
    refine isPlain_iff.mpr fun w hw heq => ?_
    obtain ⟨n, hn, hle⟩ := hturn w hw (heq ▸ hfree.1) (heq ▸ hfree.2)
    obtain rfl := nameAt_injective (heq.trans hn.symm)
    omega
  · obtain ⟨w, hw, rfl⟩ : ∃ w ∈ specialWords, name = w.toList := by
      by_contra hnone
      exact hspecial (isPlain_iff.mpr fun w hw heq => hnone ⟨w, hw, heq⟩)
    have hreserved : w.toList ∉ reservedWords := fun hmem =>
      ((NameSupply.avoiding taken).handsOut_freshList count).not_mem_avoided _ hname
        (List.mem_append_left _ hmem)
    exact (length_of_not_reserved w hw hreserved).imp_left fun h => ⟨w, h, rfl⟩
  · simp only [List.mem_cons, List.not_mem_nil, or_false] at ht
    rcases ht with hkind | hkind | hkind <;> simp [slashBeginsRegex, hkind]

/-- The numbers of the reserved words. -/
def reservedNumbers : List Nat :=
  [2090, 2401, 2409, 142061, 174194, 199604, 206701, 137905, 165999, 8248288, 8817632, 8825960,
    13285727, 12732782, 13524003, 500029807]

theorem map_nameAt_reservedNumbers : reservedNumbers.map nameAt = reservedWords := by
  decide +kernel

/-- Of the names that come before one, those are free that are not avoided.  Together with the ones
avoided among them they are all that come before. -/
theorem count_freeAt_add {numbers : List Nat} (hnodup : numbers.Nodup) (n : Nat) :
    Nat.count (FreeAt (numbers.map nameAt)) n + numbers.countP (· < n) = n := by
  induction n with
  | zero => simp
  | succ n ih =>
    have hless : numbers.countP (· < n + 1) = numbers.countP (· < n) + numbers.count n := by
      clear ih hnodup
      induction numbers with
      | nil => rfl
      | cons m numbers ih =>
        rw [List.countP_cons, List.countP_cons, List.count_cons, ih]
        rcases Nat.lt_trichotomy m n with hlt | rfl | hlt <;> grind
    have hfree : FreeAt (numbers.map nameAt) n ↔ n ∉ numbers :=
      not_congr (List.mem_map_of_injective nameAt_injective)
    rw [Nat.count_succ, hless, hnodup.count]
    by_cases hmem : n ∈ numbers
    · rw [if_neg fun h => hfree.mp h hmem, if_pos hmem]
      omega
    · rw [if_pos (hfree.mpr hmem), if_neg hmem]
      omega

/-- The word `of` is a keyword and a word before regular expressions.  It is not reserved.  Of the
2785 names before it three are, `do`, `if` and `in`, so it is the 2783rd that a supply hands out. -/
theorem of_comes_up : ((NameSupply.avoiding []).freshList 2783).1[2782]? = some "of".toList ∧
    "of" ∈ keywords ∧ "of" ∈ wordsBeforeRegex ∧ ¬IsPlain "of".toList := by
  have hnumber : nameAt 2785 = "of".toList := by decide +kernel
  refine ⟨?_, by decide, by decide, fun h => h.not_keyword "of" (by decide) rfl⟩
  have hfree : FreeAt (reservedWords ++ []) 2785 := by
    rw [FreeAt, hnumber]
    decide
  have hcount : Nat.count (FreeAt (reservedWords ++ [])) 2785 = 2782 := by
    have hadd := @count_freeAt_add reservedNumbers (by decide) 2785
    rw [map_nameAt_reservedNumbers] at hadd
    have hbefore : reservedNumbers.countP (· < 2785) = 3 := by decide
    rw [hbefore] at hadd
    simpa using hadd
  rw [NameSupply.freshList_avoiding, List.getElem?_map, List.getElem?_range (by decide),
    Option.map_some, ← hcount, Nat.nth_count hfree, hnumber]

end Twinfold
