import Mathlib.Order.Bounds.Basic
import Twinfold.Declaration.Extractor
import Twinfold.Proofs.Similarity.Keys

/-!
# What a verdict says

The verdict on two functions with one signature is about the lists of their keys.  It can be said
without the alignment that leads to it: which lists are equal, which differ at one position,
which of them has a line too many, and which line that is (`compare_decides`).  Of several lines
that are one too many the last is named.

The verdict does not depend on the side it is looked at from (`compare_symmetric`).  The common
front and the common back of two lines are the same from either side (`agreement_same_comm`), and
what can be replaced is asked of both sides alike, so the difference of two lines is the flipped
one (`substitution_flip`).
-/

namespace Twinfold

/-! ### Verdicts without an alignment -/

/-- The keys of the lines of a declaration. -/
def Declaration.keys (rules : LineRules) (d : Declaration) : List Text :=
  (FunctionForm.of rules d).keys

/-- The numbers of the lines of `ys` without which it is `xs`. -/
def extraLines (xs ys : List Text) : Set Nat := {i | i < ys.length ∧ ys.eraseIdx i = xs}

section

variable {xs ys : List Text} {i : Nat}

/-- The last of the lines that are one too many is the one inserted. -/
theorem lineEdit_eq_inserted_iff_isGreatest :
    lineEdit xs ys = .ok (some (.inserted i)) ↔ IsGreatest (extraLines xs ys) i := by
  rw [lineEdit_eq_inserted_iff]
  constructor
  · rintro ⟨hi, herase, hlast⟩
    exact ⟨⟨hi, herase⟩, fun j hj => hlast j hj.1 hj.2⟩
  · rintro ⟨⟨hi, herase⟩, hlast⟩
    exact ⟨hi, herase, fun j hj herase => hlast ⟨hj, herase⟩⟩

/-- A deleted line is an inserted one from the other side. -/
theorem lineEdit_eq_deleted_iff_isGreatest :
    lineEdit xs ys = .ok (some (.deleted i)) ↔ IsGreatest (extraLines ys xs) i := by
  rw [lineEdit_eq_deleted_iff, ← lineEdit_eq_inserted_iff, lineEdit_eq_inserted_iff_isGreatest]

/-- The ways in which lists are one edit apart.  One of them is the same, differs at one position,
or has a line that the other one lacks. -/
theorem oneLineApart_iff :
    OneLineApart xs ys ↔ xs = ys ∨ (∃ i, DifferOnlyAt i xs ys) ∨ (extraLines xs ys).Nonempty ∨
      (extraLines ys xs).Nonempty := by
  unfold OneLineApart
  constructor
  · rintro (heq | ⟨hlen, i, herase⟩ | hextra | hextra)
    · exact .inl heq
    · by_cases heq : xs = ys
      · exact .inl heq
      · -- Beyond the end of the lists nothing is removed.
        have hi : i < xs.length := by
          by_contra hge
          rw [List.eraseIdx_of_length_le (by omega), List.eraseIdx_of_length_le (by omega)]
            at herase
          exact heq herase
        exact .inr (.inl ⟨i, differOnlyAt_iff.mpr ⟨hlen, heq, hi, herase⟩⟩)
    · exact .inr (.inr (.inl hextra))
    · exact .inr (.inr (.inr hextra))
  · rintro (heq | ⟨i, hdiffer⟩ | hextra | hextra)
    · exact .inl heq
    · obtain ⟨hlen, -, -, herase⟩ := differOnlyAt_iff.mp hdiffer
      exact .inr (.inl ⟨hlen, i, herase⟩)
    · exact .inr (.inr (.inl hextra))
    · exact .inr (.inr (.inr hextra))

end

section

variable {rules : LineRules} {left right : Declaration}

/-- **A verdict decides whether at most one line differs.**  Functions with one signature are
identical if their keys are the same.  One line is substituted if the keys differ at its number and
nowhere else; one is inserted, or deleted, if without it the longer list is the shorter one, and of
several such lines the last is named.  The numbers of lines are too different if they differ by two
or more, and in all other cases more than one line differs.  The one alignment finds an inserted or
a deleted line whenever the removal of any line makes the lists equal. -/
theorem compare_decides (hsig : left.signature rules = right.signature rules) :
    (left.compare rules right = .identical ↔ left.keys rules = right.keys rules) ∧
    (∀ i, (∃ difference, left.compare rules right = .nearDuplicate (.substituted i) difference) ↔
      DifferOnlyAt i (left.keys rules) (right.keys rules)) ∧
    (∀ i, (∃ difference, left.compare rules right = .nearDuplicate (.inserted i) difference) ↔
      IsGreatest (extraLines (left.keys rules) (right.keys rules)) i) ∧
    (∀ i, (∃ difference, left.compare rules right = .nearDuplicate (.deleted i) difference) ↔
      IsGreatest (extraLines (right.keys rules) (left.keys rules)) i) ∧
    (left.compare rules right = .notSimilar .lineCount ↔
      (left.keys rules).length + 2 ≤ (right.keys rules).length ∨
        (right.keys rules).length + 2 ≤ (left.keys rules).length) ∧
    (left.compare rules right = .notSimilar .lines ↔
      left.keys rules ≠ right.keys rules ∧
      (∀ i, ¬DifferOnlyAt i (left.keys rules) (right.keys rules)) ∧
      extraLines (left.keys rules) (right.keys rules) = ∅ ∧
      extraLines (right.keys rules) (left.keys rules) = ∅ ∧
      (left.keys rules).length ≤ (right.keys rules).length + 1 ∧
      (right.keys rules).length ≤ (left.keys rules).length + 1) ∧
    ((extraLines (left.keys rules) (right.keys rules)).Nonempty →
      ∃ i difference, left.compare rules right = .nearDuplicate (.inserted i) difference) ∧
    ((extraLines (right.keys rules) (left.keys rules)).Nonempty →
      ∃ i difference, left.compare rules right = .nearDuplicate (.deleted i) difference) := by
  have hedit : (left.compare rules right).edit = lineEdit (left.keys rules) (right.keys rules) :=
    FunctionForm.edit_compare hsig
  refine ⟨?identical, ?substituted, ?inserted, ?deleted, ?lineCount, ?lines, ?insertion,
    ?deletion⟩
  case identical =>
    rw [← Verdict.edit_eq_none_iff, hedit, lineEdit_eq_none_iff]
  case substituted =>
    intro i
    rw [← Verdict.edit_eq_some_iff, hedit, lineEdit_eq_substituted_iff, differOnlyAt_iff]
  case inserted =>
    intro i
    rw [← Verdict.edit_eq_some_iff, hedit, lineEdit_eq_inserted_iff_isGreatest]
  case deleted =>
    intro i
    rw [← Verdict.edit_eq_some_iff, hedit, lineEdit_eq_deleted_iff_isGreatest]
  case lineCount =>
    rw [← Verdict.edit_eq_error_iff, hedit, lineEdit_eq_lineCount_iff]
  case lines =>
    rw [← Verdict.edit_eq_error_iff, hedit, lineEdit_eq_lines_iff, oneLineApart_iff]
    simp only [not_or, not_exists, Set.not_nonempty_iff_eq_empty, and_assoc, ne_eq]
  case insertion =>
    rintro ⟨i, hi, herase⟩
    exact ⟨_, Verdict.edit_eq_some_iff.mp (hedit.trans (lineEdit_of_eraseIdx hi herase))⟩
  case deletion =>
    rintro ⟨i, hi, herase⟩
    rw [lineEdit_flip (right.keys rules), lineEdit_of_eraseIdx hi herase] at hedit
    exact ⟨_, Verdict.edit_eq_some_iff.mp hedit⟩

end

/-- Two functions of equal lines, of which one has a line more: the last one is the one inserted.
Each of the three equal lines would do, and the verdict names the greatest index. -/
theorem compare_decides_repeated_lines :
    ∃ f ∈ (extract ("function f(a)\x7ba();\na();\x7d\n" ++
        "function g(a)\x7ba();\na();\na();\x7d").toList {}).declarations,
      ∃ g ∈ (extract ("function f(a)\x7ba();\na();\x7d\n" ++
        "function g(a)\x7ba();\na();\na();\x7d").toList {}).declarations,
      f.signature {} = g.signature {} ∧
        (∃ difference, f.compare {} g = .nearDuplicate (.inserted 2) difference) ∧
        IsGreatest (extraLines (f.keys {}) (g.keys {})) 2 := by
  have hcompare : ∃ f ∈ (extract ("function f(a)\x7ba();\na();\x7d\n" ++
        "function g(a)\x7ba();\na();\na();\x7d").toList {}).declarations,
      ∃ g ∈ (extract ("function f(a)\x7ba();\na();\x7d\n" ++
        "function g(a)\x7ba();\na();\na();\x7d").toList {}).declarations,
      f.signature {} = g.signature {} ∧
        f.compare {} g = .nearDuplicate (.inserted 2) .statement := by
    decide +kernel
  obtain ⟨f, hf, g, hg, hsig, hinserted⟩ := hcompare
  exact ⟨f, hf, g, hg, hsig, ⟨_, hinserted⟩, ((compare_decides hsig).2.2.1 2).mp ⟨_, hinserted⟩⟩

/-! ### Verdicts from the other side -/

/-- The common front of two lines is as long from either side. -/
theorem agreement_same_comm (ts us : List FormToken) :
    agreement FormToken.same us ts = agreement FormToken.same ts us := by
  rw [agreement_eq_map FormToken.same_eq, agreement_eq_map FormToken.same_eq, agreement_comm]

/-- **The difference of two lines from the other side.**  The common front and the common end are
the same from either side, and the checks are made for both tokens. -/
theorem substitution_flip (left : FunctionForm) (l : LineForm) (right : FunctionForm)
    (r : LineForm) : substitution right r left l = (substitution left l right r).flip := by
  unfold substitution
  rw [Bool.or_comm r.tokens.isEmpty, agreement_same_comm l.tokens]
  split
  · rfl
  dsimp only
  rw [agreement_same_comm (l.tokens.drop _).reverse]
  generalize agreement FormToken.same l.tokens r.tokens = front
  generalize agreement FormToken.same (l.tokens.drop front).reverse
    (r.tokens.drop front).reverse = back
  -- Both sides are asked for the same: one token each that can be replaced, or else a mark.
  have hcond : (decide (r.tokens.length - back - front = 1) &&
      decide (l.tokens.length - back - front = 1) && right.isReplaceableAt r front &&
        left.isReplaceableAt l front) =
      (decide (l.tokens.length - back - front = 1) &&
      decide (r.tokens.length - back - front = 1) && left.isReplaceableAt l front &&
        right.isReplaceableAt r front) := by
    ac_rfl
  rw [hcond, Bool.or_comm (((r.marks.drop front).take _).any id)]
  generalize (decide (l.tokens.length - back - front = 1) && _ && _ && _) = replaceable
  have hmark : ∀ marked : Bool, (if marked then Difference.binding else .statement).flip =
      if marked then .binding else .statement := by
    decide
  rcases l.tokens[front]? with _ | t <;> rcases r.tokens[front]? with _ | u <;> cases replaceable
  case some.some.true => rfl
  all_goals exact (hmark _).symm

/-- What an additional line touches looks the same from either side. -/
theorem extraLine_flip (line : Option LineForm) : (extraLine line).flip = extraLine line := by
  unfold extraLine
  split <;> rfl

/-- **The verdict from the other side.**  What is inserted on one side is deleted on the other, and
ranges and texts change sides. -/
theorem FunctionForm.compare_flip (f g : FunctionForm) : g.compare f = (f.compare g).flip := by
  by_cases hsig : f.signature = g.signature
  · unfold FunctionForm.compare
    rw [if_pos hsig, if_pos hsig.symm, lineEdit_flip f.keys]
    rcases hedit : lineEdit f.keys g.keys with _ | _ | (i | i | i)
    · rfl
    · rfl
    · obtain ⟨l, r, hl, hr⟩ := exists_lines_of_substituted hedit
      simp only [Except.map, Option.map, LineEdit.flip, hl, hr, Verdict.flip]
      rw [substitution_flip]
    · simp only [Except.map, Option.map, LineEdit.flip, Verdict.flip, extraLine_flip]
    · simp only [Except.map, Option.map, LineEdit.flip, Verdict.flip, extraLine_flip]
  · rw [compare_of_signature_ne hsig, compare_of_signature_ne (Ne.symm hsig)]
    rfl

/-- **Comparison is symmetric.**  From the other side the verdict is the flipped one: the same kind of
edit with deleted for inserted, at the same line, and the same difference with the two expressions
exchanged.  And every function is identical to itself. -/
theorem compare_symmetric (rules : LineRules) (a b : Declaration) :
    b.compare rules a = (a.compare rules b).flip ∧ a.compare rules a = .identical := by
  refine ⟨FunctionForm.compare_flip _ _, ?_⟩
  exact (compare_eq_identical_iff _ _).mpr ⟨rfl, rfl⟩

end Twinfold
