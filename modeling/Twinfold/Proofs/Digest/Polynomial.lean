import Mathlib.Data.List.Basic
import Mathlib.Data.UInt
import Mathlib.Tactic.Ring
import Twinfold.Digest

/-!
# Hashes of edited sequences

The hashes of a neighbourhood are what their names say: the masked hash at a position is
the polynomial hash of the sequence with the mask there, and the deleted hash is that of
the sequence without its element there.

The base is odd, hence invertible modulo 2^64, and so is every weight.  The polynomial hash
may collide, but not for two sequences that differ in one place only:

* `masked_neighbourhood`, `deleted_neighbourhood` — the hashes of the edited sequences;
* `polynomial_set_inj` — one changed element changes the hash.
-/

namespace Twinfold

open scoped UInt64.CommRing

/-- Hashing goes on from the hash of what precedes. -/
theorem polynomial_append (h : UInt64) (xs ys : List UInt64) :
    polynomial h (xs ++ ys) = polynomial (polynomial h xs) ys := by
  induction xs generalizing h with
  | nil => rfl
  | cons x xs ih => exact ih _

/-- What precedes a sequence counts with the weight of its length. -/
theorem polynomial_eq_weight (h : UInt64) (xs : List UInt64) :
    polynomial h xs = h * lineWeight xs.length + polynomial 0 xs := by
  induction xs generalizing h with
  | nil => simp [polynomial, lineWeight]
  | cons x xs ih =>
    simp only [polynomial, List.length_cons, lineWeight]
    rw [ih (h * polynomialBase + x), ih (0 * polynomialBase + x)]
    ring

/-- The hash of a sequence around one of its elements. -/
theorem polynomial_around (h x : UInt64) (front back : List UInt64) :
    polynomial h (front ++ x :: back) =
      (polynomial h front * polynomialBase + x) * lineWeight back.length +
        polynomial 0 back := by
  rw [polynomial_append, polynomial, polynomial_eq_weight]

/-! ### Weights are invertible -/

/-- The inverse of the base modulo 2^64. -/
def baseInverse : UInt64 := 0xf1de83e19937733d

/-- **The base is invertible.**  It is odd, and numbers are counted modulo 2^64. -/
theorem base_mul_inverse : polynomialBase * baseInverse = 1 := by decide

/-- The weights can be divided by, since the base is odd. -/
theorem weight_mul_inverse (n : Nat) : lineWeight n * baseInverse ^ n = 1 := by
  induction n with
  | zero => rfl
  | succ n ih =>
    calc lineWeight (n + 1) * baseInverse ^ (n + 1)
        = (lineWeight n * baseInverse ^ n) * (polynomialBase * baseInverse) := by
          rw [lineWeight, pow_succ]; ring
      _ = 1 := by rw [ih, base_mul_inverse, mul_one]

/-- A weight can be cancelled. -/
theorem mul_weight_inj {x y : UInt64} {n : Nat} (h : x * lineWeight n = y * lineWeight n) :
    x = y := by
  calc x = x * lineWeight n * baseInverse ^ n := by
          rw [mul_assoc, weight_mul_inverse, mul_one]
    _ = y * lineWeight n * baseInverse ^ n := by rw [h]
    _ = y := by rw [mul_assoc, weight_mul_inverse, mul_one]

/-- A list around its element at a position. -/
theorem exists_around {α : Type} {xs : List α} {i : Nat} (hi : i < xs.length) :
    ∃ front x back, xs = front ++ x :: back ∧ front.length = i := by
  refine ⟨xs.take i, xs[i], xs.drop (i + 1), ?_, by simp [le_of_lt hi]⟩
  rw [List.cons_getElem_drop_succ, List.take_append_drop]

/-- **One change shows.**  Sequences that differ at one position have different hashes.  Their
difference is a power of the base times the difference of the elements. -/
theorem polynomial_set_inj {xs : List UInt64} {i : Nat} {x y : UInt64} (hi : i < xs.length)
    (h : polynomial 0 (xs.set i x) = polynomial 0 (xs.set i y)) : x = y := by
  obtain ⟨front, z, back, rfl, rfl⟩ := exists_around hi
  simp only [List.set_append_right _ _ le_rfl, Nat.sub_self, List.set_cons_zero,
    polynomial_around] at h
  have hweighted := mul_weight_inj (add_right_cancel h)
  exact add_left_cancel hweighted

/-! ### The neighbourhood of a sequence -/

/-- There are as many edited hashes as elements. -/
@[simp] theorem length_editedHashes (whole front : UInt64) (xs : List UInt64) :
    (editedHashes whole front xs).length = xs.length := by
  induction xs generalizing front with
  | nil => rfl
  | cons x xs ih => simp [editedHashes, ih]

@[simp] theorem length_masked (xs : List UInt64) :
    (neighbourhood xs).masked.length = xs.length := by
  simp [neighbourhood]

@[simp] theorem length_deleted (xs : List UInt64) :
    (neighbourhood xs).deleted.length = xs.length := by
  simp [neighbourhood]

/-- What is computed at an element with `front` before it and `back` behind it. -/
theorem getElem?_editedHashes (whole h x : UInt64) (front back : List UInt64) :
    (editedHashes whole h (front ++ x :: back))[front.length]? =
      some (whole - x * lineWeight back.length + maskValue * lineWeight back.length,
        polynomial h front * lineWeight back.length +
          (whole - (polynomial h front * polynomialBase + x) * lineWeight back.length)) := by
  induction front generalizing h with
  | nil => rfl
  | cons y front ih => exact ih _

/-- **Masked hashes.**  They hash the sequence with the mask at a position.  They are made from the
whole hash, without going over the sequence again. -/
theorem masked_neighbourhood {xs : List UInt64} {i : Nat} (hi : i < xs.length) :
    (neighbourhood xs).masked[i]? = some (polynomial 0 (xs.set i maskValue)) := by
  obtain ⟨front, x, back, rfl, rfl⟩ := exists_around hi
  simp only [neighbourhood, List.getElem?_map, getElem?_editedHashes, Option.map_some,
    List.set_append_right _ _ le_rfl, Nat.sub_self, List.set_cons_zero, polynomial_around]
  congr 1
  ring

/-- **Deleted hashes.**  They hash the sequence without the element at a position.  They are put
together from the hash of what is in front of it and from the share of what is behind it. -/
theorem deleted_neighbourhood {xs : List UInt64} {i : Nat} (hi : i < xs.length) :
    (neighbourhood xs).deleted[i]? = some (polynomial 0 (xs.eraseIdx i)) := by
  obtain ⟨front, x, back, rfl, rfl⟩ := exists_around hi
  have herase : (front ++ x :: back).eraseIdx front.length = front ++ back := by
    rw [List.eraseIdx_append_of_length_le le_rfl, Nat.sub_self, List.eraseIdx_cons_zero]
  simp only [neighbourhood, List.getElem?_map, getElem?_editedHashes, Option.map_some, herase,
    polynomial_append, polynomial]
  rw [polynomial_eq_weight (polynomial 0 front) back,
    polynomial_eq_weight (polynomial 0 front * polynomialBase + x) back]
  congr 1
  ring

end Twinfold
