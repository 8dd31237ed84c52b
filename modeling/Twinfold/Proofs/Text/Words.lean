import Mathlib.Data.List.Basic
import Twinfold.Text.Basic

/-!
# Words of a text

The words of a text are its maximal runs of characters in a class, the letters.  They end at a
character between them (`words_append_cons`), and a run of such characters is as good as another
(`Respaced.words_append_eq`).
-/

namespace Twinfold

variable {p : Char → Bool} {a b c : Char} {name : Text}

/-- What is in no word is passed over. -/
theorem words_cons_of_not (hc : p c = false) (t : Text) :
    Text.words p (c :: t) = Text.words p t := by
  rw [Text.words.eq_def]
  simp [hc]

/-- A word ends in front of a character that is in no word. -/
theorem words_cons_cons_of_not (ha : p a = true) (hb : p b = false) (t : Text) :
    Text.words p (a :: b :: t) = [a] :: Text.words p (b :: t) := by
  rw [Text.words.eq_def]
  dsimp only
  rw [if_pos ha]
  rcases Text.words p (b :: t) with _ | ⟨w, ws⟩
  · rfl
  · simp [hb]

/-- The first word of a text that begins with a letter goes on with a letter in front of it.
Nothing else about the words changes. -/
theorem exists_words_cons (hb : p b = true) (t : Text) :
    ∃ w ws, Text.words p (b :: t) = w :: ws ∧
      ∀ a, p a = true → Text.words p (a :: b :: t) = (a :: w) :: ws := by
  have hne : ∃ w ws, Text.words p (b :: t) = w :: ws := by
    rw [Text.words.eq_def]
    dsimp only
    rw [if_pos hb]
    split
    · split <;> exact ⟨_, _, rfl⟩
    · exact ⟨_, _, rfl⟩
  obtain ⟨w, ws, hwords⟩ := hne
  refine ⟨w, ws, hwords, fun a ha => ?_⟩
  rw [Text.words.eq_def]
  dsimp only
  rw [if_pos ha, hwords]
  simp [hb]

/-- **Words end at a character between them.**  So the words of a text are those of its parts, if
it is cut at such a character. -/
theorem words_append_cons (hc : p c = false) (front behind : Text) :
    Text.words p (front ++ c :: behind) = Text.words p front ++ Text.words p behind := by
  induction front with
  | nil => exact words_cons_of_not hc behind
  | cons a front ih =>
    by_cases ha : p a = true
    · cases front with
      | nil =>
        rw [List.cons_append, List.nil_append, words_cons_cons_of_not ha hc, words_cons_of_not hc]
        simp [Text.words, ha]
      | cons b front =>
        by_cases hb : p b = true
        · obtain ⟨w, ws, hwords, hcons⟩ := exists_words_cons hb front
          obtain ⟨w', ws', hwords', hcons'⟩ := exists_words_cons hb (front ++ c :: behind)
          rw [List.cons_append, hwords, hwords', List.cons_append, List.cons.injEq] at ih
          rw [List.cons_append, List.cons_append, hcons' a ha, hcons a ha, ih.1, ih.2]
          rfl
        · have hb : p b = false := by simpa using hb
          rw [List.cons_append, List.cons_append, words_cons_cons_of_not ha hb,
            words_cons_cons_of_not ha hb, ← List.cons_append, ih]
          rfl
    · have ha : p a = false := by simpa using ha
      rw [List.cons_append, words_cons_of_not ha, words_cons_of_not ha, ih]

/-- A text of word characters is a single word. -/
theorem words_eq_singleton (hne : name ≠ []) (hname : ∀ c ∈ name, p c = true) :
    Text.words p name = [name] := by
  induction name with
  | nil => exact absurd rfl hne
  | cons a name ih =>
    obtain ⟨ha, hrest⟩ := List.forall_mem_cons.mp hname
    cases name with
    | nil => simp [Text.words, ha]
    | cons b name =>
      obtain ⟨w, ws, hwords, hcons⟩ := exists_words_cons (hrest b List.mem_cons_self) name
      have hone := ih (List.cons_ne_nil _ _) hrest
      rw [hwords, List.cons.injEq] at hone
      rw [hcons a ha, hone.1, hone.2]

/-- The words consist of letters.  What is between them is left out. -/
theorem forall_of_mem_words {t word : Text} (h : word ∈ t.words p) : ∀ c ∈ word, p c = true := by
  induction t generalizing word with
  | nil => simp [Text.words] at h
  | cons a t ih =>
    by_cases ha : p a = true
    · cases t with
      | nil => simp_all [Text.words]
      | cons b t =>
        by_cases hb : p b = true
        · obtain ⟨w, ws, hwords, hcons⟩ := exists_words_cons hb t
          rw [hwords] at ih
          rw [hcons a ha, List.mem_cons] at h
          obtain rfl | hmem := h
          · exact List.forall_mem_cons.mpr ⟨ha, ih List.mem_cons_self⟩
          · exact ih (List.mem_cons_of_mem _ hmem)
        · rw [words_cons_cons_of_not ha (by simpa using hb), List.mem_cons] at h
          obtain rfl | hmem := h
          · simpa using ha
          · exact ih hmem
    · rw [words_cons_of_not (by simpa using ha)] at h
      exact ih h

/-- Characters between words in front of a text add no word. -/
theorem words_append_of_not {between : Text} (h : ∀ c ∈ between, p c = false) (t : Text) :
    Text.words p (between ++ t) = Text.words p t := by
  induction between with
  | nil => rfl
  | cons c between ih =>
    obtain ⟨hc, hrest⟩ := List.forall_mem_cons.mp h
    rw [List.cons_append, words_cons_of_not hc, ih hrest]

/-- The texts differ in the runs of characters between words: where one has such a run, the other
has one too. -/
inductive Respaced (p : Char → Bool) : Text → Text → Prop
  | nil : Respaced p [] []
  /-- One character of both. -/
  | keep (c : Char) {t u : Text} : Respaced p t u → Respaced p (c :: t) (c :: u)
  /-- A run for a run. -/
  | run {between between' t u : Text} : between ≠ [] → between' ≠ [] →
      (∀ c ∈ between, p c = false) → (∀ c ∈ between', p c = false) → Respaced p t u →
      Respaced p (between ++ t) (between' ++ u)

/-- **The length and the kind of the runs between words do not matter.**  The text in front is what
lies between a run and the one before it. -/
theorem Respaced.words_append_eq {t u : Text} (h : Respaced p t u) (front : Text) :
    Text.words p (front ++ t) = Text.words p (front ++ u) := by
  induction h generalizing front with
  | nil => rfl
  | keep c _ ih => simpa using ih (front ++ [c])
  | @run between between' t u hne hne' hall hall' _ ih =>
    have hbehind : Text.words p t = Text.words p u := ih []
    obtain ⟨c, between, rfl⟩ := List.exists_cons_of_ne_nil hne
    obtain ⟨d, between', rfl⟩ := List.exists_cons_of_ne_nil hne'
    obtain ⟨hc, hbetween⟩ := List.forall_mem_cons.mp hall
    obtain ⟨hd, hbetween'⟩ := List.forall_mem_cons.mp hall'
    rw [List.cons_append, List.cons_append, words_append_cons hc, words_append_cons hd,
      words_append_of_not hbetween, words_append_of_not hbetween', hbehind]

end Twinfold
