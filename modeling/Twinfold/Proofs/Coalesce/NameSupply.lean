import Mathlib.Data.List.Nodup
import Mathlib.Data.List.Perm.Subperm
import Mathlib.Order.Nat
import Twinfold.Coalesce.Generated

/-!
# Names are handed out once

Numbers tell names apart (`nameAt_injective`): a name of one character has no shorter one in front
of it, and of a longer one the last character tells the remainder and the others tell the quotient.

So among as many names as are avoided, and one more, there is one that is not avoided, and the
search for a free name ends there (`nameAt_firstFree_not_mem`).  A supply goes on behind the number
of the name it has handed out.  Whatever it hands out, one name or many, are names with ascending
numbers that are not avoided (`NameSupply.HandsOut`); hence they are all different.
-/

namespace Twinfold

/-! ### Numbers and names -/

theorem length_firstChars : firstChars.length = 54 := by decide +kernel

theorem length_laterChars : laterChars.length = 64 := by decide +kernel

/-- Neighbours tell that all characters of a list are different, if they ascend. -/
theorem nodup_of_ascending {cs : List Char} (h : cs.IsChain (· < ·)) : cs.Nodup :=
  (List.isChain_iff_pairwise.mp h).imp Char.ne_of_lt

theorem nodup_firstChars : firstChars.Nodup := nodup_of_ascending (by decide +kernel)

theorem nodup_laterChars : laterChars.Nodup := nodup_of_ascending (by decide +kernel)

/-- Positions tell the characters of a list apart. -/
theorem eq_of_getD_eq_getD {cs : List Char} (hnodup : cs.Nodup) {i j : Nat} (hi : i < cs.length)
    (hj : j < cs.length) (h : cs.getD i '$' = cs.getD j '$') : i = j := by
  rw [List.getD_eq_getElem?_getD, List.getD_eq_getElem?_getD, List.getElem?_eq_getElem hi,
    List.getElem?_eq_getElem hj] at h
  exact hnodup.getElem_inj_iff.mp h

theorem nameAt_ne_nil (n : Nat) : nameAt n ≠ [] := by
  rw [nameAt]
  split <;> simp

/-- **Numbers tell names apart.**  A name of one character is told by the character, a longer one
by its last character and by what stands in front of it. -/
theorem nameAt_injective : Function.Injective nameAt := by
  intro m n h
  induction m using nameAt.induct generalizing n with
  | case1 m hm =>
    rw [nameAt, if_pos hm] at h
    rw [nameAt] at h
    split at h
    · rename_i hn
      rw [← length_firstChars] at hm hn
      exact eq_of_getD_eq_getD nodup_firstChars hm hn (List.cons.inj h).1
    · have hlength := congrArg List.length h
      have hpos := List.length_pos_iff.mpr (nameAt_ne_nil ((n - 54) / 64))
      simp only [List.length_append, List.length_singleton] at hlength
      omega
  | case2 m hm ih =>
    rw [nameAt, if_neg hm] at h
    rw [nameAt.eq_def n] at h
    split at h
    · have hlength := congrArg List.length h
      have hpos := List.length_pos_iff.mpr (nameAt_ne_nil ((m - 54) / 64))
      simp only [List.length_append, List.length_singleton] at hlength
      omega
    · obtain ⟨hfront, hlast⟩ := List.append_singleton_inj.mp h
      have hquotient := ih hfront
      have hbound : ∀ k, k % 64 < laterChars.length := by
        intro k
        rw [length_laterChars]
        exact Nat.mod_lt k (by decide)
      have hremainder := eq_of_getD_eq_getD nodup_laterChars (hbound _) (hbound _) hlast
      omega

/-- What names are made of.  It begins with a character that a name begins with, and goes on with
those that a name goes on with. -/
theorem nameAt_cases (n : Nat) :
    ∃ c body, nameAt n = c :: body ∧ c ∈ firstChars ∧ ∀ d ∈ body, d ∈ laterChars := by
  have hlater : ∀ i, laterChars.getD i '$' ∈ laterChars := by
    intro i
    rw [List.getD_eq_getElem?_getD]
    rcases hi : laterChars[i]? with _ | c
    · decide
    · exact List.mem_of_getElem? hi
  have hfirst : ∀ i, firstChars.getD i '$' ∈ firstChars := by
    intro i
    rw [List.getD_eq_getElem?_getD]
    rcases hi : firstChars[i]? with _ | c
    · decide
    · exact List.mem_of_getElem? hi
  induction n using nameAt.induct with
  | case1 n h =>
    rw [nameAt, if_pos h]
    exact ⟨_, [], rfl, hfirst n, by simp⟩
  | case2 n h ih =>
    obtain ⟨c, body, hname, hc, hbody⟩ := ih
    rw [nameAt, if_neg h, hname]
    refine ⟨c, body ++ [laterChars.getD ((n - 54) % 64) '$'], rfl, hc, ?_⟩
    intro d hd
    rcases List.mem_append.mp hd with hd | hd
    · exact hbody d hd
    · rw [List.mem_singleton.mp hd]
      exact hlater _

/-! ### Free names -/

namespace NameSupply

variable {avoided : List Text}

/-- A search only goes on. -/
theorem le_firstFree (avoided : List Text) (skips n : Nat) : n ≤ firstFree avoided skips n := by
  induction skips generalizing n with
  | zero => exact le_rfl
  | succ skips ih =>
    rw [firstFree]
    split
    · exact (Nat.le_succ n).trans (ih (n + 1))
    · exact le_rfl

/-- If a search ends at a name that is avoided, all the names passed are.  A search with more steps
than there are names to avoid can therefore not end so. -/
theorem mem_of_firstFree_mem {skips n : Nat} (h : nameAt (firstFree avoided skips n) ∈ avoided) :
    ∀ i ≤ skips, nameAt (n + i) ∈ avoided := by
  induction skips generalizing n with
  | zero =>
    intro i hi
    obtain rfl := Nat.le_zero.mp hi
    exact h
  | succ skips ih =>
    rw [firstFree] at h
    split at h
    · rename_i hfirst
      intro i hi
      cases i with
      | zero => exact List.contains_iff_mem.mp hfirst
      | succ i =>
        rw [← Nat.add_assoc, Nat.add_right_comm]
        exact ih h i (Nat.le_of_succ_le_succ hi)
    · rename_i hfree
      exact absurd (List.contains_iff_mem.mpr h) hfree

/-- **The search finds a free name.**  There are not enough names to avoid all that are passed.  A
search that ended at one would have passed more names than the list has. -/
theorem nameAt_firstFree_not_mem (avoided : List Text) (n : Nat) :
    nameAt (firstFree avoided avoided.length n) ∉ avoided := by
  intro h
  have hnodup : ((List.range (avoided.length + 1)).map fun i => nameAt (n + i)).Nodup := by
    refine List.nodup_range.map fun i j hij => ?_
    exact Nat.add_left_cancel (nameAt_injective hij)
  have hsubset : ((List.range (avoided.length + 1)).map fun i => nameAt (n + i)) ⊆ avoided := by
    intro name hname
    obtain ⟨i, hi, rfl⟩ := List.mem_map.mp hname
    exact mem_of_firstFree_mem h i (Nat.le_of_lt_succ (List.mem_range.mp hi))
  have hlength := (List.subperm_of_subset hnodup hsubset).length_le
  simp only [List.length_map, List.length_range] at hlength
  omega

/-! ### What is handed out -/

/-- From one state of a supply to another these names are handed out: names with ascending numbers
between those of the two states, none of them avoided. -/
structure HandsOut (s : NameSupply) (names : List Text) (s' : NameSupply) : Prop where
  avoided_eq : s'.avoided = s.avoided
  next_le : s.next ≤ s'.next
  numbers : ∃ ns : List Nat, names = ns.map nameAt ∧ ns.Pairwise (· < ·) ∧
    ∀ n ∈ ns, s.next ≤ n ∧ n < s'.next ∧ nameAt n ∉ s.avoided

variable {s s' s'' : NameSupply} {names names' : List Text}

theorem HandsOut.nil (s : NameSupply) : s.HandsOut [] s :=
  ⟨rfl, le_rfl, [], rfl, .nil, by simp⟩

/-- What is handed out first has smaller numbers. -/
theorem HandsOut.append (h : s.HandsOut names s') (h' : s'.HandsOut names' s'') :
    s.HandsOut (names ++ names') s'' := by
  obtain ⟨havoided, hle, ns, rfl, hns, hnumbers⟩ := h
  obtain ⟨havoided', hle', ns', rfl, hns', hnumbers'⟩ := h'
  refine ⟨havoided'.trans havoided, hle.trans hle', ns ++ ns', List.map_append.symm, ?_, ?_⟩
  · refine List.pairwise_append.mpr ⟨hns, hns', fun n hn n' hn' => ?_⟩
    exact (hnumbers n hn).2.1.trans_le (hnumbers' n' hn').1
  · intro n hn
    rcases List.mem_append.mp hn with hn | hn
    · obtain ⟨hfrom, hto, hfree⟩ := hnumbers n hn
      exact ⟨hfrom, hto.trans_le hle', hfree⟩
    · obtain ⟨hfrom, hto, hfree⟩ := hnumbers' n hn
      exact ⟨hle.trans hfrom, hto, havoided ▸ hfree⟩

/-- One name is handed out, and the supply goes on behind it. -/
theorem handsOut_fresh (s : NameSupply) : s.HandsOut [s.fresh.1] s.fresh.2 := by
  have hle := le_firstFree s.avoided s.avoided.length s.next
  refine ⟨rfl, hle.trans (Nat.le_succ _), [_], rfl, List.pairwise_singleton _ _, ?_⟩
  intro n hn
  obtain rfl := List.mem_singleton.mp hn
  exact ⟨hle, Nat.lt_succ_self _, nameAt_firstFree_not_mem s.avoided s.next⟩

/-- So many names are handed out, and the supply goes on behind the last one. -/
theorem handsOut_freshList (s : NameSupply) (count : Nat) :
    s.HandsOut (s.freshList count).1 (s.freshList count).2 := by
  induction count generalizing s with
  | zero => exact .nil s
  | succ count ih => exact s.handsOut_fresh.append (ih s.fresh.2)

/-- **Names are handed out once.**  The search for a name goes on behind the one that was found
before. -/
theorem HandsOut.nodup (h : s.HandsOut names s') : names.Nodup := by
  obtain ⟨_, _, ns, rfl, hns, _⟩ := h
  exact List.Nodup.map nameAt_injective (hns.imp Nat.ne_of_lt)

/-- Names that are handed out are not avoided. -/
theorem HandsOut.not_mem_avoided (h : s.HandsOut names s') : ∀ name ∈ names, name ∉ s.avoided := by
  obtain ⟨_, _, ns, rfl, _, hnumbers⟩ := h
  intro name hname
  obtain ⟨n, hn, rfl⟩ := List.mem_map.mp hname
  exact (hnumbers n hn).2.2

/-- Names that are handed out have numbers. -/
theorem HandsOut.exists_number (h : s.HandsOut names s') :
    ∀ name ∈ names, ∃ n, name = nameAt n := by
  obtain ⟨_, _, ns, rfl, _, _⟩ := h
  intro name hname
  obtain ⟨n, _, rfl⟩ := List.mem_map.mp hname
  exact ⟨n, rfl⟩

end NameSupply

end Twinfold
