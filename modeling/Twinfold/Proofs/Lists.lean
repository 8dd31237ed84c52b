import Mathlib.Data.List.Forall2
import Twinfold.Text.Basic

/-!
# Lists

Sorting permutes (`perm_sortList`), and what comes out ascends (`pairwise_sortList`) when
`before` orders the elements.  If it tells all elements apart, the order in which they come does
not matter (`sortList_eq_of_perm`).

A partial function that makes something of a list makes it of the elements one by one
(`forall₂_of_mapM`).
-/

namespace Twinfold

/-! ### Sorted lists -/

section

variable {α : Type} {before : α → α → Bool}

/-- Putting an element in its place is a permutation. -/
theorem perm_insertSorted (before : α → α → Bool) (a : α) (as : List α) :
    (insertSorted before a as).Perm (a :: as) := by
  induction as with
  | nil => exact .refl _
  | cons b bs ih =>
    unfold insertSorted
    split
    · exact (ih.cons b).trans (.swap a b bs)
    · exact .refl _

/-- **Sorting permutes.**  Nothing is lost and nothing is added, whatever `before` says. -/
theorem perm_sortList (before : α → α → Bool) (as : List α) : (sortList before as).Perm as := by
  induction as with
  | nil => exact .refl _
  | cons a as ih => exact (perm_insertSorted before a _).trans (ih.cons a)

@[simp] theorem mem_sortList {a : α} {as : List α} : a ∈ sortList before as ↔ a ∈ as :=
  (perm_sortList before as).mem_iff

@[simp] theorem length_sortList (before : α → α → Bool) (as : List α) :
    (sortList before as).length = as.length :=
  (perm_sortList before as).length_eq

/-- Putting an element in its place keeps a sorted list sorted.  The order need not be total; that
two elements come in neither order is all that is known of equal ones. -/
theorem pairwise_insertSorted (hasymm : ∀ a b, before a b → ¬before b a)
    (htrans : ∀ a b c, ¬before b a → ¬before c b → ¬before c a) (a : α) {as : List α}
    (hsorted : as.Pairwise fun a b => ¬before b a) :
    (insertSorted before a as).Pairwise fun a b => ¬before b a := by
  induction as with
  | nil => simp [insertSorted]
  | cons b bs ih =>
    unfold insertSorted
    have hbs := List.pairwise_cons.mp hsorted
    split
    · rename_i hlt
      refine List.pairwise_cons.mpr ⟨?_, ih hbs.2⟩
      intro c hc
      rcases List.mem_cons.mp ((perm_insertSorted before a bs).mem_iff.mp hc) with rfl | hc
      · exact hasymm b c hlt
      · exact hbs.1 c hc
    · rename_i hge
      refine List.pairwise_cons.mpr ⟨?_, hsorted⟩
      intro c hc
      rcases List.mem_cons.mp hc with rfl | hc
      · exact hge
      · exact htrans a b c hge (hbs.1 c hc)

/-- **Sorted lists ascend.**  No element comes strictly before an earlier one. -/
theorem pairwise_sortList (hasymm : ∀ a b, before a b → ¬before b a)
    (htrans : ∀ a b c, ¬before b a → ¬before c b → ¬before c a) (as : List α) :
    (sortList before as).Pairwise fun a b => ¬before b a := by
  induction as with
  | nil => exact .nil
  | cons a as ih => exact pairwise_insertSorted hasymm htrans a ih

/-- **Sorting forgets the order.**  Lists of the same elements are sorted to the same list, if of
two different elements one comes before the other. -/
theorem sortList_eq_of_perm (hasymm : ∀ a b, before a b → ¬before b a)
    (htrans : ∀ a b c, ¬before b a → ¬before c b → ¬before c a) {as bs : List α}
    (hantisymm : ∀ a ∈ as, ∀ b ∈ as, ¬before b a → ¬before a b → a = b) (h : as.Perm bs) :
    sortList before as = sortList before bs := by
  have hperm : (sortList before as).Perm (sortList before bs) :=
    (perm_sortList before as).trans (h.trans (perm_sortList before bs).symm)
  refine hperm.eq_of_pairwise ?_ (pairwise_sortList hasymm htrans as)
    (pairwise_sortList hasymm htrans bs)
  intro a b ha hb
  exact hantisymm a (mem_sortList.mp ha) b (h.mem_iff.mpr (mem_sortList.mp hb))

end

/-! ### Partial functions on lists -/

section

variable {α β : Type} {f : α → Option β} {as : List α} {bs : List β}

/-- A partial function that makes something of a list makes it of the elements, one by one. -/
theorem forall₂_of_mapM (h : as.mapM f = some bs) :
    List.Forall₂ (fun a b => f a = some b) as bs := by
  induction as generalizing bs with
  | nil =>
    obtain rfl : [] = bs := by simpa using h
    exact .nil
  | cons a as ih =>
    rw [List.mapM_cons] at h
    simp only [bind, Option.bind_eq_some_iff, pure, Option.some.injEq] at h
    obtain ⟨b, hb, bs, hbs, rfl⟩ := h
    exact .cons hb (ih hbs)

/-- The values of a partial function on a list, as values that it may fail to have. -/
theorem map_eq_of_mapM (h : as.mapM f = some bs) : as.map f = bs.map some := by
  have hall := forall₂_of_mapM h
  clear h
  induction hall with
  | nil => rfl
  | cons hb _ ih => rw [List.map_cons, List.map_cons, hb, ih]

/-- What a partial function makes of a list is made of its elements. -/
theorem exists_of_mem_mapM (h : as.mapM f = some bs) : ∀ b ∈ bs, ∃ a ∈ as, f a = some b := by
  intro b hb
  have hmem := List.mem_map_of_mem (f := some) hb
  rwa [← map_eq_of_mapM h, List.mem_map] at hmem

/-- A partial function that makes something of a list makes something of each element. -/
theorem exists_of_mapM (h : as.mapM f = some bs) : ∀ a ∈ as, ∃ b, f a = some b := by
  intro a ha
  have hmem := List.mem_map_of_mem (f := f) ha
  rw [map_eq_of_mapM h, List.mem_map] at hmem
  obtain ⟨b, -, hb⟩ := hmem
  exact ⟨b, hb.symm⟩

end

end Twinfold
