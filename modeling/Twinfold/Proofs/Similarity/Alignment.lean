import Mathlib.Data.List.Basic
import Mathlib.Order.Nat
import Twinfold.Similarity.Comparison

/-!
# One alignment is enough

Two lists of lines are aligned once, at the first line in which they differ.  Nothing is lost
by that: if any single edit makes the lists equal, the edit at the end of the common front
does.  The length of the common front is the key (`le_agreement_iff`): it is the largest
number of lines in which the two lists agree.

* `aligned_lineEdit` — how an alignment can end;
* `lineEdit_eq_none_iff`, `lineEdit_eq_substituted_iff`, `lineEdit_eq_inserted_iff`,
  `lineEdit_eq_deleted_iff` — each answer of `lineEdit`, said without it;
* `lineEdit_eq_lineCount_iff`, `lineEdit_eq_lines_iff` — and when there is no edit;
* `lineEdit_flip` — from the other side the answer is the flipped one;
* `edit_compare` — the verdict on two functions with one signature tells the answer for their
  lines, so two functions are similar if their signatures agree and one edit of one line makes
  their lines equal (`isSimilar_compare_iff`).
-/

namespace Twinfold

/-- Without one line lists of one length are equal if the parts before and behind it are. -/
theorem eraseIdx_eq_iff {α : Type} {xs ys : List α} (hlen : xs.length = ys.length) (i : Nat) :
    xs.eraseIdx i = ys.eraseIdx i ↔
      xs.take i = ys.take i ∧ xs.drop (i + 1) = ys.drop (i + 1) := by
  rw [List.eraseIdx_eq_take_drop_succ, List.eraseIdx_eq_take_drop_succ]
  constructor
  · intro h
    exact List.append_inj h (by simp [hlen])
  · rintro ⟨htake, hdrop⟩
    rw [htake, hdrop]

/-- Lists of one length that agree but at one position agree at the other positions. -/
theorem getElem?_eq_of_eraseIdx {α : Type} {xs ys : List α} (hlen : xs.length = ys.length)
    {i j : Nat} (h : xs.eraseIdx i = ys.eraseIdx i) (hne : i ≠ j) : xs[j]? = ys[j]? := by
  obtain ⟨htake, hdrop⟩ := (eraseIdx_eq_iff hlen i).mp h
  rcases Nat.lt_or_gt_of_ne hne with hlt | hgt
  · have hat := congrArg (·[j - (i + 1)]?) hdrop
    simp only [List.getElem?_drop] at hat
    rwa [show i + 1 + (j - (i + 1)) = j by omega] at hat
  · have hat := congrArg (·[j]?) htake
    simpa only [List.getElem?_take_of_lt hgt] using hat

/-- Two lists of one length differ at one position and nowhere else. -/
def DifferOnlyAt {α : Type} (i : Nat) (xs ys : List α) : Prop :=
  xs.length = ys.length ∧ ∀ j, xs[j]? ≠ ys[j]? ↔ j = i

/-- Lists that differ at one position only are the same without it.  The one way of saying it looks
at positions, the other at what is left without one. -/
theorem differOnlyAt_iff {α : Type} {xs ys : List α} {i : Nat} :
    DifferOnlyAt i xs ys ↔
      xs.length = ys.length ∧ xs ≠ ys ∧ i < xs.length ∧ xs.eraseIdx i = ys.eraseIdx i := by
  constructor
  · rintro ⟨hlen, hdiffer⟩
    have hat : xs[i]? ≠ ys[i]? := (hdiffer i).mpr rfl
    have helse : ∀ j, j ≠ i → xs[j]? = ys[j]? := fun j hj =>
      not_not.mp fun hne => hj ((hdiffer j).mp hne)
    refine ⟨hlen, fun heq => hat (congrArg (·[i]?) heq), ?_, ?_⟩
    · by_contra hge
      rw [List.getElem?_eq_none (by omega), List.getElem?_eq_none (by omega)] at hat
      exact hat rfl
    · apply List.ext_getElem?
      intro j
      rw [List.getElem?_eraseIdx, List.getElem?_eraseIdx]
      split
      · exact helse j (by omega)
      · exact helse (j + 1) (by omega)
  · rintro ⟨hlen, hne, -, herase⟩
    refine ⟨hlen, fun j => ⟨fun hj => ?_, ?_⟩⟩
    · by_contra hji
      exact hj (getElem?_eq_of_eraseIdx hlen herase (Ne.symm hji))
    · rintro rfl hat
      apply hne
      apply List.ext_getElem?
      intro k
      by_cases hk : j = k
      · rwa [← hk]
      · exact getElem?_eq_of_eraseIdx hlen herase hk

section Agreement

/-- Lists of one length that agree but at one position differ by the element there. -/
theorem eq_set_of_eraseIdx {α : Type} {xs ys : List α} (hlen : xs.length = ys.length) {i : Nat}
    (hi : i < ys.length) (h : xs.eraseIdx i = ys.eraseIdx i) : ys = xs.set i ys[i] := by
  obtain ⟨htake, hdrop⟩ := (eraseIdx_eq_iff hlen i).mp h
  rw [List.set_eq_take_append_cons_drop, if_pos (hlen ▸ hi), htake, hdrop,
    ← List.drop_eq_getElem_cons hi, List.take_append_drop]

variable {α : Type} [DecidableEq α] {xs ys : List α}

/-- **The common front.**  It is as long as the longest front on which two lists agree.  Every
shorter front agrees as well. -/
theorem le_agreement_iff (xs ys : List α) (k : Nat) :
    k ≤ agreement (fun a b => a = b) xs ys ↔
      k ≤ xs.length ∧ k ≤ ys.length ∧ xs.take k = ys.take k := by
  induction xs generalizing ys k with
  | nil =>
    cases k with
    | zero => simp [agreement]
    | succ k => simp [agreement]
  | cons x xs ih =>
    cases ys with
    | nil =>
      cases k with
      | zero => simp [agreement]
      | succ k => simp [agreement]
    | cons y ys =>
      cases k with
      | zero => simp
      | succ k =>
        by_cases hxy : x = y
        · simp [agreement, hxy, ih ys k]
        · simp [agreement, hxy]

theorem agreement_le_left (xs ys : List α) :
    agreement (fun a b => a = b) xs ys ≤ xs.length :=
  ((le_agreement_iff xs ys _).mp le_rfl).1

theorem agreement_le_right (xs ys : List α) :
    agreement (fun a b => a = b) xs ys ≤ ys.length :=
  ((le_agreement_iff xs ys _).mp le_rfl).2.1

/-- The two lists agree on their common front. -/
theorem take_agreement (xs ys : List α) :
    xs.take (agreement (fun a b => a = b) xs ys) =
      ys.take (agreement (fun a b => a = b) xs ys) :=
  ((le_agreement_iff xs ys _).mp le_rfl).2.2

/-- Agreement is symmetric. -/
theorem agreement_comm (xs ys : List α) :
    agreement (fun a b => a = b) xs ys = agreement (fun a b => a = b) ys xs := by
  apply le_antisymm
  · exact (le_agreement_iff ys xs _).mpr
      ⟨agreement_le_right xs ys, agreement_le_left xs ys, (take_agreement xs ys).symm⟩
  · exact (le_agreement_iff xs ys _).mpr
      ⟨agreement_le_right ys xs, agreement_le_left ys xs, (take_agreement ys xs).symm⟩

/-- Lists of one length agree throughout if and only if they are equal. -/
theorem agreement_eq_length_iff (hlen : xs.length = ys.length) :
    agreement (fun a b => a = b) xs ys = xs.length ↔ xs = ys := by
  constructor
  · intro h
    have htake := take_agreement xs ys
    rwa [h, List.take_length, List.take_of_length_le (le_of_eq hlen.symm)] at htake
  · rintro rfl
    exact le_antisymm (agreement_le_left xs xs)
      ((le_agreement_iff xs xs _).mpr ⟨le_rfl, le_rfl, rfl⟩)

/-- Elements that are the same when they have one image agree as their images do. -/
theorem agreement_eq_map {β : Type} {same : β → β → Bool} {f : β → α}
    (hsame : ∀ a b, same a b = decide (f a = f b)) (as bs : List β) :
    agreement same as bs = agreement (fun a b => a = b) (as.map f) (bs.map f) := by
  induction as generalizing bs with
  | nil => cases bs <;> rfl
  | cons a as ih =>
    cases bs with
    | nil => rfl
    | cons b bs => simp only [List.map_cons, agreement, hsame, decide_eq_true_eq, ih]

/-- **One element between front and back.**  Lists that leave one element each between their common
front and their common back differ in that element only. -/
theorem differOnlyAt_of_agreement {front back : Nat}
    (hfront : front = agreement (fun a b => a = b) xs ys)
    (hback : back = agreement (fun a b => a = b) (xs.drop front).reverse (ys.drop front).reverse)
    (hxs : xs.length - back - front = 1) (hys : ys.length - back - front = 1) :
    DifferOnlyAt front xs ys := by
  have hleft := agreement_le_left (xs.drop front).reverse (ys.drop front).reverse
  have hright := agreement_le_right (xs.drop front).reverse (ys.drop front).reverse
  rw [← hback, List.length_reverse, List.length_drop] at hleft hright
  have hlen : xs.length = ys.length := by omega
  have hdrop : ∀ zs : List α, zs.length - back - front = 1 →
      zs.drop (front + 1) = (((zs.drop front).reverse).take back).reverse := by
    intro zs hzs
    rw [List.take_reverse, List.reverse_reverse, List.drop_drop, List.length_drop]
    congr 1
    omega
  refine differOnlyAt_iff.mpr ⟨hlen, fun heq => ?_, by omega, ?_⟩
  · have := (agreement_eq_length_iff hlen).mpr heq
    omega
  · refine (eraseIdx_eq_iff hlen front).mpr ⟨?_, ?_⟩
    · rw [hfront]
      exact take_agreement xs ys
    · rw [hdrop xs hxs, hdrop ys hys, hback, take_agreement]

/-- A line whose removal turns `ys` into `xs` lies on the common front or right behind it. -/
theorem le_agreement_of_eraseIdx {i : Nat} (hi : i < ys.length) (h : ys.eraseIdx i = xs) :
    i ≤ agreement (fun a b => a = b) xs ys := by
  rw [le_agreement_iff]
  subst h
  have hlen : (ys.eraseIdx i).length = ys.length - 1 := List.length_eraseIdx_of_lt hi
  refine ⟨by omega, by omega, ?_⟩
  rw [List.eraseIdx_eq_take_drop_succ, List.take_append_of_le_length (by simp; omega),
    List.take_take, min_self]

/-- **Removing at the front is enough.**  If the removal of any line turns `ys` into `xs`,
the removal of the line behind the common front does. -/
theorem drop_agreement_of_eraseIdx {i : Nat} (hi : i < ys.length) (h : ys.eraseIdx i = xs) :
    xs.drop (agreement (fun a b => a = b) xs ys) =
      ys.drop (agreement (fun a b => a = b) xs ys + 1) := by
  have hle := le_agreement_of_eraseIdx hi h
  obtain ⟨d, hd⟩ := Nat.exists_eq_add_of_le hle
  have hdrop : xs.drop i = ys.drop (i + 1) := by
    rw [← h, List.eraseIdx_eq_take_drop_succ, List.drop_append_of_le_length (by simp; omega)]
    simp
  rw [hd, ← List.drop_drop, hdrop, List.drop_drop]
  congr 1
  omega

/-- The removal of the line behind the common front, said by what follows it. -/
theorem eraseIdx_agreement_iff :
    ys.eraseIdx (agreement (fun a b => a = b) xs ys) = xs ↔
      xs.drop (agreement (fun a b => a = b) xs ys) =
        ys.drop (agreement (fun a b => a = b) xs ys + 1) := by
  have htake := take_agreement xs ys
  have hsplit := List.take_append_drop (agreement (fun a b => a = b) xs ys) xs
  rw [List.eraseIdx_eq_take_drop_succ, ← htake]
  constructor
  · intro h
    exact (List.append_cancel_left (h.trans hsplit.symm)).symm
  · intro h
    rw [← h, hsplit]

end Agreement

/-! ### The answers of `lineEdit` -/

variable {xs ys : List Text} {i : Nat}

/-- How the alignment of two lists can end: with the edit at the end of their common front, if that
makes them equal, or without one. -/
inductive Aligned (xs ys : List Text) : Except Mismatch (Option LineEdit) → Prop
  | equal (heq : xs = ys) : Aligned xs ys (.ok none)
  | substituted (i : Nat) (hlen : xs.length = ys.length) (hne : xs ≠ ys) (hi : i < xs.length)
      (herase : xs.eraseIdx i = ys.eraseIdx i) : Aligned xs ys (.ok (some (.substituted i)))
  | inserted (i : Nat) (hi : i < ys.length) (herase : ys.eraseIdx i = xs)
      (hlast : ∀ j < ys.length, ys.eraseIdx j = xs → j ≤ i) :
      Aligned xs ys (.ok (some (.inserted i)))
  | deleted (i : Nat) (hi : i < xs.length) (herase : xs.eraseIdx i = ys) :
      Aligned xs ys (.ok (some (.deleted i)))
  | lines (hright : xs.length ≤ ys.length + 1) (hleft : ys.length ≤ xs.length + 1) :
      Aligned xs ys (.error .lines)
  | lineCount (hfar : xs.length + 2 ≤ ys.length ∨ ys.length + 2 ≤ xs.length) :
      Aligned xs ys (.error .lineCount)

/-- **Every alignment ends in one of these ways.**  The first position in which the lists differ is
found, and what stands behind it decides. -/
theorem aligned_lineEdit (xs ys : List Text) : Aligned xs ys (lineEdit xs ys) := by
  have hleft := agreement_le_left xs ys
  have hright := agreement_le_right xs ys
  unfold lineEdit
  dsimp only
  split
  · rename_i hlen
    split
    · rename_i hfront
      exact .equal ((agreement_eq_length_iff hlen).mp hfront)
    · rename_i hfront
      split
      · rename_i hdrop
        exact .substituted _ hlen (fun heq => hfront ((agreement_eq_length_iff hlen).mpr heq))
          (lt_of_le_of_ne hleft hfront)
          ((eraseIdx_eq_iff hlen _).mpr ⟨take_agreement xs ys, hdrop⟩)
      · exact .lines (by omega) (by omega)
  · split
    · split
      · rename_i hdrop
        exact .inserted _ (by omega) (eraseIdx_agreement_iff.mpr hdrop)
          fun j hj herase => le_agreement_of_eraseIdx hj herase
      · exact .lines (by omega) (by omega)
    · split
      · split
        · rename_i hdrop
          refine .deleted _ (by omega) ?_
          rw [agreement_comm] at hdrop ⊢
          exact eraseIdx_agreement_iff.mpr hdrop.symm
        · exact .lines (by omega) (by omega)
      · exact .lineCount (by omega)

/-- There is no edit if and only if the lists are the same. -/
theorem lineEdit_eq_none_iff : lineEdit xs ys = .ok none ↔ xs = ys := by
  constructor
  · intro h
    have hends := aligned_lineEdit xs ys
    rw [h] at hends
    cases hends with
    | equal heq => exact heq
  · rintro rfl
    have hall : agreement (fun a b => a = b) xs xs = xs.length :=
      (agreement_eq_length_iff rfl).mpr rfl
    simp [lineEdit, hall]

/-- From the other side the lines differ in the same place.  A line that is inserted from one side
is deleted from the other. -/
theorem lineEdit_flip (xs ys : List Text) :
    lineEdit ys xs = (lineEdit xs ys).map (Option.map LineEdit.flip) := by
  simp only [lineEdit, agreement_comm ys xs]
  by_cases hlen : xs.length = ys.length
  · simp only [hlen, if_true, eq_comm (a := List.drop _ ys)]
    split
    · rfl
    · split <;> rfl
  · simp only [hlen, Ne.symm hlen, if_false]
    by_cases hlonger : xs.length + 1 = ys.length
    · have : ¬ys.length + 1 = xs.length := by omega
      simp only [hlonger, this, if_true, if_false, eq_comm (a := List.drop _ ys)]
      split <;> rfl
    · by_cases hshorter : ys.length + 1 = xs.length
      · simp only [hlonger, hshorter, if_true, if_false, eq_comm (a := List.drop _ ys)]
        split <;> rfl
      · simp only [hlonger, hshorter, if_false]
        rfl

/-- **Substituted.**  The lists differ in one line of one number, and nowhere else.  The position
is the first in which they differ, and since the rest agrees there is no other. -/
theorem lineEdit_eq_substituted_iff :
    lineEdit xs ys = .ok (some (.substituted i)) ↔
      xs.length = ys.length ∧ xs ≠ ys ∧ i < xs.length ∧ xs.eraseIdx i = ys.eraseIdx i := by
  constructor
  · intro h
    have hends := aligned_lineEdit xs ys
    rw [h] at hends
    cases hends with
    | substituted _ hlen hne hi herase => exact ⟨hlen, hne, hi, herase⟩
  · rintro ⟨hlen, hne, hi, herase⟩
    have hfront : agreement (fun a b => a = b) xs ys ≠ xs.length :=
      fun h => hne ((agreement_eq_length_iff hlen).mp h)
    obtain ⟨htake, hdrop⟩ := (eraseIdx_eq_iff hlen i).mp herase
    have hle : i ≤ agreement (fun a b => a = b) xs ys :=
      (le_agreement_iff xs ys i).mpr ⟨by omega, by omega, htake⟩
    have heq : agreement (fun a b => a = b) xs ys = i := by
      by_contra hlt
      have hat : xs.take (i + 1) = ys.take (i + 1) :=
        ((le_agreement_iff xs ys (i + 1)).mp (by omega)).2.2
      apply hne
      rw [← List.take_append_drop (i + 1) xs, ← List.take_append_drop (i + 1) ys, hat, hdrop]
    have hdrop' : xs.drop (agreement (fun a b => a = b) xs ys + 1) =
        ys.drop (agreement (fun a b => a = b) xs ys + 1) := by rw [heq, hdrop]
    simp only [lineEdit, if_pos hlen, if_neg hfront, if_pos hdrop']
    rw [heq]

/-- **Inserted.**  The number is that of the last line whose removal makes the lists equal.  In a
run of equal lines each of them could be the new one; the first difference is behind the run. -/
theorem lineEdit_eq_inserted_iff :
    lineEdit xs ys = .ok (some (.inserted i)) ↔
      i < ys.length ∧ ys.eraseIdx i = xs ∧ ∀ j < ys.length, ys.eraseIdx j = xs → j ≤ i := by
  constructor
  · intro h
    have hends := aligned_lineEdit xs ys
    rw [h] at hends
    cases hends with
    | inserted _ hi herase hlast => exact ⟨hi, herase, hlast⟩
  · rintro ⟨hi, herase, hlast⟩
    have hlen : xs.length + 1 = ys.length := by
      have := List.length_eraseIdx_of_lt hi
      rw [herase] at this
      omega
    have hne : xs.length ≠ ys.length := by omega
    have hdrop := drop_agreement_of_eraseIdx hi herase
    have hle := agreement_le_left xs ys
    have heq : agreement (fun a b => a = b) xs ys = i :=
      le_antisymm (hlast _ (by omega) (eraseIdx_agreement_iff.mpr hdrop))
        (le_agreement_of_eraseIdx hi herase)
    simp only [lineEdit, if_neg hne, if_pos hlen, if_pos hdrop]
    rw [heq]

/-- **Deleted.**  An insertion seen from the other side.  Of equal lines next to each other the
last one counts as deleted. -/
theorem lineEdit_eq_deleted_iff :
    lineEdit xs ys = .ok (some (.deleted i)) ↔
      i < xs.length ∧ xs.eraseIdx i = ys ∧ ∀ j < xs.length, xs.eraseIdx j = ys → j ≤ i := by
  rw [← lineEdit_eq_inserted_iff, lineEdit_flip xs ys]
  constructor
  · intro h
    rw [h]
    rfl
  · intro h
    rcases hedit : lineEdit xs ys with _ | _ | (_ | _ | _) <;> rw [hedit] at h <;>
      simp_all [Except.map, LineEdit.flip]

/-- **Too many lines.**  There is no edit because one list is longer by two lines or more.  Only
then the contents are not looked at. -/
theorem lineEdit_eq_lineCount_iff :
    lineEdit xs ys = .error .lineCount ↔
      xs.length + 2 ≤ ys.length ∨ ys.length + 2 ≤ xs.length := by
  have hends := aligned_lineEdit xs ys
  constructor
  · intro h
    rw [h] at hends
    cases hends with
    | lineCount hfar => exact hfar
  · intro hfar
    generalize lineEdit xs ys = ending at hends ⊢
    cases hends with
    | equal heq =>
      rw [heq] at hfar
      omega
    | substituted _ hlen => omega
    | inserted _ hi herase =>
      have := List.length_eraseIdx_of_lt hi
      rw [herase] at this
      omega
    | deleted _ hi herase =>
      have := List.length_eraseIdx_of_lt hi
      rw [herase] at this
      omega
    | lines => omega
    | lineCount => rfl

/-! ### Similar functions -/

/-- One edit of one line at most makes the lists equal. -/
def OneLineApart (xs ys : List Text) : Prop :=
  xs = ys ∨ (xs.length = ys.length ∧ ∃ i, xs.eraseIdx i = ys.eraseIdx i) ∨
    (∃ i < ys.length, ys.eraseIdx i = xs) ∨ ∃ i < xs.length, xs.eraseIdx i = ys

/-- Being one line apart is symmetric. -/
theorem OneLineApart.symm {xs ys : List Text} (h : OneLineApart xs ys) : OneLineApart ys xs := by
  rcases h with h | ⟨hlen, i, h⟩ | h | h
  · exact .inl h.symm
  · exact .inr (.inl ⟨hlen.symm, i, h.symm⟩)
  · exact .inr (.inr (.inr h))
  · exact .inr (.inr (.inl h))

/-- **The alignment misses nothing.**  If the removal of any line makes the lists equal, the one
alignment at the end of the common front finds an inserted line. -/
theorem lineEdit_of_eraseIdx (hi : i < ys.length) (herase : ys.eraseIdx i = xs) :
    lineEdit xs ys = .ok (some (.inserted (agreement (fun a b => a = b) xs ys))) := by
  have hle := agreement_le_left xs ys
  have hlen := List.length_eraseIdx_of_lt hi
  rw [herase] at hlen
  exact lineEdit_eq_inserted_iff.mpr ⟨by omega,
    eraseIdx_agreement_iff.mpr (drop_agreement_of_eraseIdx hi herase),
    fun j hj hj' => le_agreement_of_eraseIdx hj hj'⟩

/-- The alignment finds an edit whenever there is one.  It looks at the first difference only, and
that is enough: what agrees in front of it agrees in every alignment. -/
theorem exists_lineEdit_iff : (∃ edit, lineEdit xs ys = .ok edit) ↔ OneLineApart xs ys := by
  constructor
  · rintro ⟨_ | _ | _ | _, h⟩
    · exact .inl (lineEdit_eq_none_iff.mp h)
    · obtain ⟨hlen, _, _, herase⟩ := lineEdit_eq_substituted_iff.mp h
      exact .inr (.inl ⟨hlen, _, herase⟩)
    · obtain ⟨hi, herase, _⟩ := lineEdit_eq_inserted_iff.mp h
      exact .inr (.inr (.inl ⟨_, hi, herase⟩))
    · obtain ⟨hi, herase, _⟩ := lineEdit_eq_deleted_iff.mp h
      exact .inr (.inr (.inr ⟨_, hi, herase⟩))
  · by_cases heq : xs = ys
    · exact fun _ => ⟨_, lineEdit_eq_none_iff.mpr heq⟩
    rintro (heq' | ⟨hlen, i, herase⟩ | ⟨i, hi, herase⟩ | ⟨i, hi, herase⟩)
    · exact absurd heq' heq
    · have hi : i < xs.length := by
        by_contra hge
        rw [List.eraseIdx_of_length_le (by omega), List.eraseIdx_of_length_le (by omega)]
          at herase
        exact heq herase
      exact ⟨_, lineEdit_eq_substituted_iff.mpr ⟨hlen, heq, hi, herase⟩⟩
    · exact ⟨_, lineEdit_of_eraseIdx hi herase⟩
    · rw [lineEdit_flip ys xs, lineEdit_of_eraseIdx hi herase]
      exact ⟨_, rfl⟩

/-- Signatures are not compared by the alignment. -/
theorem lineEdit_ne_signature : lineEdit xs ys ≠ .error .signature := by
  intro h
  have hends := aligned_lineEdit xs ys
  rw [h] at hends
  cases hends

/-- **More than one line.**  The lists have one length, or nearly, and there is no edit.  Lists
whose lengths differ by more have the verdict of their lengths instead. -/
theorem lineEdit_eq_lines_iff :
    lineEdit xs ys = .error .lines ↔
      ¬OneLineApart xs ys ∧ xs.length ≤ ys.length + 1 ∧ ys.length ≤ xs.length + 1 := by
  rw [← exists_lineEdit_iff]
  have hcount : lineEdit xs ys = .error .lineCount ↔ _ := lineEdit_eq_lineCount_iff
  rcases hedit : lineEdit xs ys with (_ | _ | _) | edit
  · exact absurd hedit lineEdit_ne_signature
  · have hfar := hcount.mp hedit
    simp only [reduceCtorEq, Except.error.injEq, exists_const, not_false_eq_true, true_and,
      false_iff]
    omega
  · have hnear : ¬(xs.length + 2 ≤ ys.length ∨ ys.length + 2 ≤ xs.length) := by
      rw [← hcount, hedit]
      exact fun h => nomatch h
    simp only [reduceCtorEq, exists_const, not_false_eq_true, true_and, true_iff]
    omega
  · simp

/-! ### Verdicts -/

namespace Verdict

/-- What a verdict tells of the lines: the edit between them, if there is one, or why the functions
are not similar. -/
def edit : Verdict → Except Mismatch (Option LineEdit)
  | .identical => .ok none
  | .nearDuplicate edit _ => .ok (some edit)
  | .notSimilar why => .error why

variable {v : Verdict}

theorem edit_eq_none_iff : v.edit = .ok none ↔ v = .identical := by
  cases v <;> simp [edit]

theorem edit_eq_some_iff {e : LineEdit} :
    v.edit = .ok (some e) ↔ ∃ difference, v = .nearDuplicate e difference := by
  cases v <;> simp [edit]

theorem edit_eq_error_iff {why : Mismatch} : v.edit = .error why ↔ v = .notSimilar why := by
  cases v <;> simp [edit]

theorem exists_edit_iff : (∃ e, v.edit = .ok e) ↔ v.isSimilar := by
  cases v <;> simp [edit, isSimilar]

end Verdict

namespace FunctionForm

@[simp] theorem length_keys (f : FunctionForm) : f.keys.length = f.lines.length := by
  simp [keys]

variable {f g : FunctionForm}

/-- Where one line is substituted, both functions have a line of that number. -/
theorem exists_lines_of_substituted (h : lineEdit f.keys g.keys = .ok (some (.substituted i))) :
    ∃ l r, f.lines[i]? = some l ∧ g.lines[i]? = some r := by
  obtain ⟨hlen, -, hi, -⟩ := lineEdit_eq_substituted_iff.mp h
  rw [f.length_keys] at hi hlen
  rw [g.length_keys] at hlen
  exact ⟨_, _, List.getElem?_eq_getElem hi, List.getElem?_eq_getElem (hlen ▸ hi)⟩

/-- **The verdict tells the edit.**  Functions with one signature are compared by their lines.
What differs within the line has no part in it. -/
theorem edit_compare (hsig : f.signature = g.signature) :
    (f.compare g).edit = lineEdit f.keys g.keys := by
  unfold compare
  rw [if_pos hsig]
  rcases hedit : lineEdit f.keys g.keys with _ | _ | (i | _ | _)
  · rfl
  · rfl
  · obtain ⟨l, r, hl, hr⟩ := exists_lines_of_substituted hedit
    simp only [hl, hr]
    rfl
  · rfl
  · rfl

/-- Functions with different signatures are not similar. -/
theorem compare_of_signature_ne (hsig : f.signature ≠ g.signature) :
    f.compare g = .notSimilar .signature :=
  if_neg hsig

/-- **A substituted line.**  What a verdict tells about it is what the lines of that number differ
in. -/
theorem exists_of_compare_substituted {difference : Difference}
    (h : f.compare g = .nearDuplicate (.substituted i) difference) :
    f.signature = g.signature ∧ lineEdit f.keys g.keys = .ok (some (.substituted i)) ∧
      ∃ l r, f.lines[i]? = some l ∧ g.lines[i]? = some r ∧
        difference = substitution f l g r := by
  by_cases hsig : f.signature = g.signature
  · have hedit : lineEdit f.keys g.keys = .ok (some (.substituted i)) := by
      rw [← edit_compare hsig, h]
      rfl
    obtain ⟨l, r, hl, hr⟩ := exists_lines_of_substituted hedit
    unfold compare at h
    simp only [if_pos hsig, hedit, hl, hr, Verdict.nearDuplicate.injEq, true_and] at h
    exact ⟨hsig, hedit, l, r, hl, hr, h.symm⟩
  · rw [compare_of_signature_ne hsig] at h
    cases h

end FunctionForm

/-- **Similar functions.**  The signatures agree and the lines are one edit apart.  Lines count by
their keys. -/
theorem isSimilar_compare_iff (f g : FunctionForm) :
    (f.compare g).isSimilar ↔ f.signature = g.signature ∧ OneLineApart f.keys g.keys := by
  rw [← exists_lineEdit_iff]
  by_cases hsig : f.signature = g.signature
  · rw [← Verdict.exists_edit_iff, FunctionForm.edit_compare hsig]
    exact ⟨fun h => ⟨hsig, h⟩, And.right⟩
  · simp [FunctionForm.compare_of_signature_ne hsig, hsig, Verdict.isSimilar]

/-- **Identical functions.**  The signatures and all lines agree.  Line breaks and spaces that keys
leave out may be different. -/
theorem compare_eq_identical_iff (f g : FunctionForm) :
    f.compare g = .identical ↔ f.signature = g.signature ∧ f.keys = g.keys := by
  rw [← lineEdit_eq_none_iff]
  by_cases hsig : f.signature = g.signature
  · rw [← Verdict.edit_eq_none_iff, FunctionForm.edit_compare hsig]
    exact ⟨fun h => ⟨hsig, h⟩, And.right⟩
  · simp [FunctionForm.compare_of_signature_ne hsig, hsig]

end Twinfold
