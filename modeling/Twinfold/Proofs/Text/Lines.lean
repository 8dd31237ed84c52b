import Mathlib.Data.List.TakeWhile
import Twinfold.Proofs.Text.Split
import Twinfold.SymbolMap

/-!
# Lines of a text

What it means that a text falls into lines is said by `Text.InLines`, one line after the other,
without the pieces between line feeds from which `Text.lines` makes them.  A text falls into lines
in one way only, and these are its lines (`Text.inLines_iff`).

A line is blank if nothing is left of it without the white space at its ends
(`Text.trim_isEmpty_iff`).
-/

namespace Twinfold.Text

/-- The text falls into lines.  A line ends at a line feed or at a carriage return and a line feed,
neither of which belongs to it; the last line may lack its end, unless it is empty. -/
inductive InLines : Text → List Text → Prop
  | nil : InLines [] []
  | last {line : Text} (hne : line ≠ []) (hline : '\n' ∉ line) : InLines line [line]
  | feed {line rest : Text} {lines : List Text} (hline : '\n' ∉ line)
      (hreturn : line.getLast? ≠ some '\r') (hrest : InLines rest lines) :
      InLines (line ++ '\n' :: rest) (line :: lines)
  | returnFeed {line rest : Text} {lines : List Text} (hline : '\n' ∉ line)
      (hrest : InLines rest lines) : InLines (line ++ '\r' :: '\n' :: rest) (line :: lines)

/-- Every piece but the last one loses a carriage return at its end. -/
theorem ended_cons {pieces : List Text} (h : pieces ≠ []) (piece : Text) :
    lines.ended (piece :: pieces) =
      (if piece.getLast? = some '\r' then piece.dropLast else piece) :: lines.ended pieces := by
  cases pieces with
  | nil => exact absurd rfl h
  | cons next pieces => rfl

/-- The pieces between line feeds, joined again, fall into the lines among them.  Every piece but
the last stood in front of a line feed; the last one is a line only if it is not empty. -/
theorem inLines_ended {pieces : List Text} (hne : pieces ≠ [])
    (hpieces : ∀ piece ∈ pieces, '\n' ∉ piece) :
    InLines (join ['\n'] pieces) (lines.ended pieces) := by
  induction pieces with
  | nil => exact absurd rfl hne
  | cons piece pieces ih =>
    obtain ⟨hpiece, hrest⟩ := List.forall_mem_cons.mp hpieces
    cases pieces with
    | nil =>
      cases piece with
      | nil => exact .nil
      | cons c piece =>
        have hlast := InLines.last (List.cons_ne_nil c piece) hpiece
        simpa [join, lines.ended] using hlast
    | cons next pieces =>
      have hmore := ih (List.cons_ne_nil _ _) hrest
      rw [join_cons_cons, ended_cons (List.cons_ne_nil _ _)]
      split_ifs with hreturn
      · obtain ⟨line, rfl⟩ := List.getLast?_eq_some_iff.mp hreturn
        have hline : '\n' ∉ line := fun hmem => hpiece (List.mem_append_left _ hmem)
        rw [List.dropLast_concat, List.append_assoc]
        exact .returnFeed hline hmore
      · exact .feed hpiece hreturn hmore

/-- Every text falls into its lines. -/
theorem inLines_lines (t : Text) : t.InLines t.lines := by
  have h := inLines_ended (split_ne_nil '\n' t) fun _ => not_mem_of_mem_split
  rwa [join_split] at h

/-- A text falls into lines in one way only.  A carriage return belongs to the line end in front of
a line feed only. -/
theorem InLines.lines_eq {t : Text} {lines : List Text} (h : t.InLines lines) :
    t.lines = lines := by
  induction h with
  | nil => rfl
  | @last line hne hline =>
    rw [Text.lines, split_of_not_mem hline]
    simp [Text.lines.ended, hne]
  | @feed line rest lines hline hreturn hrest ih =>
    rw [Text.lines, split_append_cons, split_of_not_mem hline, List.singleton_append,
      ended_cons (split_ne_nil _ _), if_neg hreturn]
    exact congrArg _ ih
  | @returnFeed line rest lines hline hrest ih =>
    have hreturn : line ++ '\r' :: '\n' :: rest = (line ++ ['\r']) ++ '\n' :: rest := by simp
    rw [hreturn, Text.lines, split_append_cons, split_of_not_mem (by simpa using hline),
      List.singleton_append, ended_cons (split_ne_nil _ _), if_pos (by simp), List.dropLast_concat]
    exact congrArg _ ih

/-- **The lines of a text are the lines that it falls into.**  `InLines` says what lines are
without a function that finds them. -/
theorem inLines_iff {t : Text} {lines : List Text} : t.InLines lines ↔ t.lines = lines := by
  constructor
  · exact InLines.lines_eq
  · intro h
    rw [← h]
    exact t.inLines_lines

/-! ### Blank lines -/

/-- A text of white space. -/
def Blank (t : Text) : Prop := ∀ c ∈ t, isBlank c = true

/-- Nothing is left of a text behind trimming if and only if it is blank.  White space is cut off
on both sides, so nothing else may be in between. -/
theorem trim_isEmpty_iff (t : Text) : t.trim.isEmpty = true ↔ t.Blank := by
  have hend : ∀ u : Text, u.trimEnd = [] ↔ u.Blank := by
    intro u
    simp [trimEnd, Blank, List.dropWhile_eq_nil_iff]
  rw [List.isEmpty_iff, trim, hend]
  constructor
  · intro h
    -- The first character that is kept would not be blank.
    have hhead := List.head?_dropWhile_not isBlank t
    cases hstart : t.dropWhile isBlank with
    | nil => exact List.dropWhile_eq_nil_iff.mp hstart
    | cons c rest =>
      rw [hstart] at hhead
      have hc : isBlank c = false := by simpa using hhead
      have hblank := h c (by rw [trimStart, hstart]; exact List.mem_cons_self)
      rw [hc] at hblank
      cases hblank
  · intro h c hc
    exact h c ((List.dropWhile_sublist isBlank).mem hc)

end Twinfold.Text
