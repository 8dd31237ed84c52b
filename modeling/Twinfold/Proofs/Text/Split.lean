import Mathlib.Data.List.Basic
import Twinfold.Text.Basic

/-!
# Splitting and joining

A text is split at a separator into pieces, and joining the pieces gives the text again
(`Text.join_split`).  The other way round the pieces of joined texts are the pieces of each of them
(`Text.split_join`): a separator within a text splits it like one between two texts.  So joined
texts tell no more than their pieces (`Text.join_eq_join_iff`), and they tell everything where no
text holds the separator.
-/

namespace Twinfold.Text

variable {separator : Char}

/-! ### Splitting -/

/-- A text has at least one piece, the empty one perhaps. -/
theorem split_ne_nil (separator : Char) (t : Text) : split separator t ≠ [] := by
  cases t with
  | nil => simp [split]
  | cons c t =>
    rw [split]
    split
    · simp
    · split <;> simp

/-- A text that holds a separator falls into the pieces on its two sides. -/
theorem split_append_cons (separator : Char) (t u : Text) :
    split separator (t ++ separator :: u) = split separator t ++ split separator u := by
  obtain ⟨piece, pieces, hu⟩ := List.exists_cons_of_ne_nil (split_ne_nil separator u)
  induction t with
  | nil => simp [split, hu]
  | cons c t ih =>
    obtain ⟨first, more, ht⟩ := List.exists_cons_of_ne_nil (split_ne_nil separator t)
    rw [ht] at ih
    rw [List.cons_append, split, ih, split, ht]
    by_cases hc : c = separator <;> simp [hc]

/-- A text without the separator is one piece. -/
theorem split_of_not_mem {t : Text} (h : separator ∉ t) : split separator t = [t] := by
  induction t with
  | nil => rfl
  | cons c t ih =>
    obtain ⟨hc, ht⟩ := List.ne_and_not_mem_of_not_mem_cons h
    rw [split, ih ht]
    simp [Ne.symm hc]

/-- No piece holds the separator.  Every separator of the text stands between two pieces. -/
theorem not_mem_of_mem_split {t piece : Text} (h : piece ∈ split separator t) :
    separator ∉ piece := by
  induction t generalizing piece with
  | nil =>
    obtain rfl : piece = [] := List.mem_singleton.mp h
    exact List.not_mem_nil
  | cons c t ih =>
    obtain ⟨first, more, ht⟩ := List.exists_cons_of_ne_nil (split_ne_nil separator t)
    rw [ht] at ih
    rw [split, ht] at h
    dsimp only at h
    by_cases hc : c = separator
    · rw [if_pos hc, List.mem_cons] at h
      obtain rfl | hmem := h
      · exact List.not_mem_nil
      · exact ih hmem
    · rw [if_neg hc, List.mem_cons] at h
      obtain rfl | hmem := h
      · exact List.not_mem_cons_of_ne_of_not_mem (Ne.symm hc) (ih List.mem_cons_self)
      · exact ih (List.mem_cons_of_mem _ hmem)

/-- The two sides of the first separator.  Further separators stay behind it. -/
theorem splitOnce_eq_some_iff {t front behind : Text} :
    splitOnce separator t = some (front, behind) ↔
      t = front ++ separator :: behind ∧ separator ∉ front := by
  induction t generalizing front with
  | nil => simp [splitOnce]
  | cons c t ih =>
    rw [splitOnce]
    by_cases hc : c = separator
    · rw [if_pos hc]
      cases front with
      | nil => simp [hc, eq_comm]
      | cons d front => grind
    · rw [if_neg hc, Option.map_eq_some_iff]
      cases front with
      | nil => simp [hc]
      | cons d front =>
        have hmore := @ih front
        grind

/-! ### Joining -/

theorem join_cons_cons (separator t u : Text) (ts : List Text) :
    join separator (t :: u :: ts) = t ++ (separator ++ join separator (u :: ts)) := by
  simp [join, List.intercalate]

/-- Joined texts hold what the texts and the separator hold. -/
theorem mem_or_mem_of_mem_join {separator : Text} {ts : List Text} {c : Char}
    (h : c ∈ join separator ts) : c ∈ separator ∨ ∃ t ∈ ts, c ∈ t := by
  induction ts with
  | nil => simp [join, List.intercalate] at h
  | cons t ts ih =>
    cases ts with
    | nil => exact .inr ⟨t, List.mem_cons_self, by simpa [join, List.intercalate] using h⟩
    | cons u ts =>
      rw [join_cons_cons, List.mem_append, List.mem_append] at h
      obtain hfirst | hbetween | hrest := h
      · exact .inr ⟨t, List.mem_cons_self, hfirst⟩
      · exact .inl hbetween
      · exact (ih hrest).imp_right fun ⟨v, hv, hc⟩ => ⟨v, List.mem_cons_of_mem _ hv, hc⟩

/-- The pieces of a text make it up again. -/
theorem join_split (separator : Char) (t : Text) : join [separator] (split separator t) = t := by
  induction t with
  | nil => rfl
  | cons c t ih =>
    obtain ⟨piece, pieces, ht⟩ := List.exists_cons_of_ne_nil (split_ne_nil separator t)
    rw [ht] at ih
    rw [split, ht]
    dsimp only
    split
    · rename_i hc
      rw [join_cons_cons, ih, hc]
      rfl
    · rw [← ih]
      cases pieces <;> simp [join, List.intercalate]

/-- The pieces of texts; no text at all is like one empty text. -/
def piecesOf (separator : Char) (ts : List Text) : List Text :=
  if ts = [] then [[]] else ts.flatMap (split separator)

/-- **Joined texts fall into the pieces of each of them.**  A text without the separator is a
single piece. -/
theorem split_join (separator : Char) (ts : List Text) :
    split separator (join [separator] ts) = piecesOf separator ts := by
  induction ts with
  | nil => rfl
  | cons t ts ih =>
    cases ts with
    | nil => simp [piecesOf, join, List.intercalate]
    | cons u ts =>
      rw [join_cons_cons, List.singleton_append, split_append_cons, ih]
      simp [piecesOf]

/-- Joined texts are the same if and only if the pieces are. -/
theorem join_eq_join_iff {ts us : List Text} :
    join [separator] ts = join [separator] us ↔ piecesOf separator ts = piecesOf separator us := by
  rw [← split_join, ← split_join]
  refine ⟨congrArg _, fun h => ?_⟩
  rw [← join_split separator (join _ ts), h, join_split]

/-- Texts without the separator are pieces themselves. -/
theorem piecesOf_of_not_mem {ts : List Text} (hne : ts ≠ []) (h : ∀ t ∈ ts, separator ∉ t) :
    piecesOf separator ts = ts := by
  rw [piecesOf, if_neg hne, List.flatMap_congr fun t ht => split_of_not_mem (h t ht),
    List.flatMap_singleton']

end Twinfold.Text
