import Mathlib.Data.Nat.Digits.Defs
import Twinfold.Proofs.Digest.Polynomial

/-!
# Neighbouring sequences

The hash of a sequence is the number whose digits, in the fixed base, are the elements, modulo 2^64
(`toNat_polynomial`).  What a neighbourhood holds by position are hashes of the same kind, those of
the edited sequences.

So sequences that differ at one position share the hash with that position masked.  The hash with
another position masked still sees the difference, since weights can be cancelled: it is shared
only if the sequences are the same (`masked_eq_iff`).
-/

namespace Twinfold

/-- Horner's rule: each element is a digit, the last one for the units, and `h` stands in front of
them. -/
theorem toNat_polynomial (h : UInt64) (xs : List UInt64) :
    (polynomial h xs).toNat =
      (Nat.ofDigits polynomialBase.toNat (xs.reverse.map UInt64.toNat) +
        polynomialBase.toNat ^ xs.length * h.toNat) % 2 ^ 64 := by
  induction xs generalizing h with
  | nil => simp [polynomial]
  | cons x xs ih =>
    have hstep : (h * polynomialBase + x).toNat ≡ h.toNat * polynomialBase.toNat + x.toNat
        [MOD 2 ^ 64] := by
      rw [UInt64.toNat_add, UInt64.toNat_mul]
      exact (Nat.mod_modEq _ _).trans ((Nat.mod_modEq _ _).add_right _)
    have hdigits : Nat.ofDigits polynomialBase.toNat ((x :: xs).reverse.map UInt64.toNat) =
        Nat.ofDigits polynomialBase.toNat (xs.reverse.map UInt64.toNat) +
          polynomialBase.toNat ^ xs.length * x.toNat := by
      simp [Nat.ofDigits_append]
    rw [polynomial, ih, hdigits]
    calc _ ≡ Nat.ofDigits polynomialBase.toNat (xs.reverse.map UInt64.toNat) +
          polynomialBase.toNat ^ xs.length * (h.toNat * polynomialBase.toNat + x.toNat)
            [MOD 2 ^ 64] := (hstep.mul_left _).add_left _
      _ = _ := by
        rw [List.length_cons, pow_succ]
        ring

/-- A list that is known at each of its positions. -/
theorem eq_map_range {α : Type} {xs : List α} {n : Nat} {f : Nat → α} (hlen : xs.length = n)
    (h : ∀ i < n, xs[i]? = some (f i)) : xs = (List.range n).map f := by
  apply List.ext_getElem?
  intro i
  by_cases hi : i < n
  · rw [h i hi, List.getElem?_map, List.getElem?_range hi, Option.map_some]
  · rw [List.getElem?_eq_none (by omega), List.getElem?_eq_none (by simpa using hi)]

/-- Where nothing else differs, one element makes up the difference. -/
theorem eq_set_of_agree {α : Type} {xs ys : List α} {q : Nat} {y : α}
    (hagree : ∀ j, j ≠ q → xs[j]? = ys[j]?) (hq : q < xs.length) (hy : ys[q]? = some y) :
    ys = xs.set q y := by
  apply List.ext_getElem?
  intro j
  by_cases hj : j = q
  · rw [hj, hy, List.getElem?_set_self hq]
  · rw [List.getElem?_set_ne (Ne.symm hj), hagree j hj]

section

variable {xs ys : List UInt64} {p q : Nat}

/-- The hash with the differing position masked is shared. -/
theorem masked_eq_of_agree (hlen : ys.length = xs.length)
    (hagree : ∀ j, j ≠ q → xs[j]? = ys[j]?) :
    (neighbourhood xs).masked[q]? = (neighbourhood ys).masked[q]? := by
  by_cases hq : q < xs.length
  · have hq' : q < ys.length := hlen.symm ▸ hq
    rw [masked_neighbourhood hq, masked_neighbourhood hq',
      eq_set_of_agree hagree hq (List.getElem?_eq_getElem hq'), List.set_set]
  · rw [List.getElem?_eq_none (by simpa using hq), List.getElem?_eq_none (by simpa [hlen] using hq)]

/-- **A mask elsewhere hides nothing.**  The hash with another position masked is shared only if the
sequences are the same. -/
theorem masked_eq_iff (hlen : ys.length = xs.length) (hagree : ∀ j, j ≠ q → xs[j]? = ys[j]?)
    (hp : p < xs.length) (hne : p ≠ q) :
    (neighbourhood xs).masked[p]? = (neighbourhood ys).masked[p]? ↔ xs[q]? = ys[q]? := by
  constructor
  · intro h
    by_cases hq : q < xs.length
    · have hp' : p < ys.length := hlen.symm ▸ hp
      obtain ⟨x, hx⟩ : ∃ x, xs[q]? = some x := ⟨_, List.getElem?_eq_getElem hq⟩
      obtain ⟨y, hy⟩ : ∃ y, ys[q]? = some y := ⟨_, List.getElem?_eq_getElem (hlen.symm ▸ hq)⟩
      have hself : xs.set p maskValue = (xs.set p maskValue).set q x :=
        eq_set_of_agree (fun _ _ => rfl) (by simpa using hq) (by rw [List.getElem?_set_ne hne, hx])
      have hother : ys.set p maskValue = (xs.set p maskValue).set q y := by
        rw [List.set_comm _ _ hne, ← eq_set_of_agree hagree hq hy]
      rw [masked_neighbourhood hp, masked_neighbourhood hp', Option.some_inj, hself, hother] at h
      rw [hx, hy, polynomial_set_inj (by simpa using hq) h]
    · rw [List.getElem?_eq_none (by omega), List.getElem?_eq_none (by omega)]
  · intro h
    have hsame : xs = ys := by
      apply List.ext_getElem?
      intro j
      by_cases hj : j = q
      · rw [hj, h]
      · exact hagree j hj
    rw [hsame]

end

/-- **Neighbourhoods hold the hashes of edited sequences.**  All hashes are taken modulo 2^64.  The
whole hash is the number whose digits are the elements, the last one for the units; the masked and
the deleted hashes are the whole hashes of the sequences that are edited at each position.
Sequences of one length that differ at most at one position share the hash masked there, and they
share a hash masked elsewhere if and only if they do not differ. -/
theorem neighbourhood_of_edits (xs : List UInt64) :
    (neighbourhood xs).whole.toNat =
        Nat.ofDigits polynomialBase.toNat (xs.reverse.map UInt64.toNat) % 2 ^ 64 ∧
      (neighbourhood xs).masked = (List.range xs.length).map (fun i =>
        (neighbourhood (xs.set i maskValue)).whole) ∧
      (neighbourhood xs).deleted = (List.range xs.length).map (fun i =>
        (neighbourhood (xs.eraseIdx i)).whole) ∧
      ∀ (ys : List UInt64) (q : Nat), ys.length = xs.length → (∀ j, j ≠ q → xs[j]? = ys[j]?) →
        (neighbourhood xs).masked[q]? = (neighbourhood ys).masked[q]? ∧
        ∀ p < xs.length, p ≠ q →
          ((neighbourhood xs).masked[p]? = (neighbourhood ys).masked[p]? ↔ xs[q]? = ys[q]?) := by
  refine ⟨?whole, ?masked, ?deleted, ?differing⟩
  case whole =>
    change (polynomial 0 xs).toNat = _
    rw [toNat_polynomial, UInt64.toNat_zero, Nat.mul_zero, Nat.add_zero]
  case masked =>
    apply eq_map_range (length_masked xs)
    intro i hi
    exact masked_neighbourhood hi
  case deleted =>
    apply eq_map_range (length_deleted xs)
    intro i hi
    exact deleted_neighbourhood hi
  case differing =>
    intro ys q hlen hagree
    refine ⟨masked_eq_of_agree hlen hagree, ?_⟩
    intro p hp hne
    exact masked_eq_iff hlen hagree hp hne

/-- Sequences that differ in the middle: the masked hashes are shared there, and nowhere else. -/
theorem neighbourhood_of_partners :
    (neighbourhood [1, 2, 3]).masked[1]? = (neighbourhood [1, 9, 3]).masked[1]? ∧
      (neighbourhood [1, 2, 3]).masked[0]? ≠ (neighbourhood [1, 9, 3]).masked[0]? ∧
      (neighbourhood [1, 2, 3]).masked[2]? ≠ (neighbourhood [1, 9, 3]).masked[2]? := by
  have hagree : ∀ j, j ≠ 1 → ([1, 2, 3] : List UInt64)[j]? = ([1, 9, 3] : List UInt64)[j]? := by
    intro j hj
    rcases j with _ | _ | j
    · rfl
    · exact absurd rfl hj
    · rfl
  have hdiffer : ([1, 2, 3] : List UInt64)[1]? ≠ ([1, 9, 3] : List UInt64)[1]? := by decide
  obtain ⟨-, -, -, hall⟩ := neighbourhood_of_edits [1, 2, 3]
  obtain ⟨hshared, hother⟩ := hall [1, 9, 3] 1 rfl hagree
  exact ⟨hshared, mt (hother 0 (by decide) (by decide)).mp hdiffer,
    mt (hother 2 (by decide) (by decide)).mp hdiffer⟩

end Twinfold
