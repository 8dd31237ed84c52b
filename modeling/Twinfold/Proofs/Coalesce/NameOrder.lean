import Mathlib.Data.Nat.Nth
import Twinfold.Proofs.Coalesce.NameSupply

/-!
# Names come in their order

A text is spelled like a name if its first character is one that a name begins with and the others
are those that a name goes on with (`Spelled`).  Names are ordered by length, and then by the first
position in which they differ (`Shortlex`).

The names are numbered in this order (`shortlex_nameAt`), and every spelled text has a number
(`exists_nameAt`).  A counter that starts with one digit shows the names in their order
(`spell_digitsAt`, `countUp_digitsAt`): the last digit is counted up, a digit at its end goes back to
the beginning and carries, and a carry out of the first digit adds a digit.

A supply hands out the names whose numbers are free, one after the other (`freshList_eq`).

* `freshList_in_order` — every search for a name ends, and it finds the first spelled text that is
  neither reserved nor taken nor handed out before.
-/

namespace Twinfold

/-! ### The order of names -/

/-- The characters that can stand at a position of a name. -/
def charsAt : (position : Nat) → List Char
  | 0 => firstChars
  | _ + 1 => laterChars

/-- A text that is spelled like a name. -/
def Spelled : Text → Prop
  | [] => False
  | c :: body => c ∈ firstChars ∧ ∀ d ∈ body, d ∈ laterChars

instance : DecidablePred Spelled
  | [] => isFalse id
  | _ :: _ => inferInstanceAs (Decidable (_ ∧ _))

/-- The order of names: the shorter one comes first, and of two that are equally long the one that
has the earlier character in the first position in which they differ. -/
inductive Shortlex (t u : Text) : Prop
  | shorter (h : t.length < u.length)
  | differs (i : Nat) (c d : Char) (hlength : t.length = u.length) (hfront : t.take i = u.take i)
      (hc : t[i]? = some c) (hd : u[i]? = some d) (hlt : (charsAt i).idxOf c < (charsAt i).idxOf d)

/-- A character at the end does not change the order: the shorter name stays the shorter one, and
the first difference stays where it was. -/
theorem Shortlex.append_singleton {t u : Text} (h : Shortlex t u) (c d : Char) :
    Shortlex (t ++ [c]) (u ++ [d]) := by
  cases h with
  | shorter h => exact .shorter (by simpa using h)
  | differs i a b hlength hfront ha hb hlt =>
    have hi : i < t.length := (List.getElem?_eq_some_iff.mp ha).1
    have hj : i < u.length := (List.getElem?_eq_some_iff.mp hb).1
    refine .differs i a b (by simpa using hlength) ?_ ?_ ?_ hlt
    · rw [List.take_append_of_le_length (Nat.le_of_lt hi),
        List.take_append_of_le_length (Nat.le_of_lt hj), hfront]
    · rw [List.getElem?_append_left hi, ha]
    · rw [List.getElem?_append_left hj, hb]

/-! ### Numbers and ranks -/

/-- A position is found again from the character there. -/
theorem idxOf_getD {cs : List Char} (hnodup : cs.Nodup) {i : Nat} (hi : i < cs.length) :
    cs.idxOf (cs.getD i '$') = i := by
  rw [List.getD_eq_getElem?_getD, List.getElem?_eq_getElem hi, Option.getD_some]
  exact hnodup.idxOf_getElem i hi

/-- The number of a name with one more character. -/
theorem nameAt_append {r : Nat} (n : Nat) (hr : r < 64) :
    nameAt (54 + 64 * n + r) = nameAt n ++ [laterChars.getD r '$'] := by
  rw [nameAt, if_neg (by omega)]
  have hquotient : (54 + 64 * n + r - 54) / 64 = n := by omega
  have hremainder : (54 + 64 * n + r - 54) % 64 = r := by omega
  rw [hquotient, hremainder]

/-- Names with numbers are spelled like names. -/
theorem spelled_nameAt (n : Nat) : Spelled (nameAt n) := by
  obtain ⟨c, body, hname, hc, hbody⟩ := nameAt_cases n
  rw [hname]
  exact ⟨hc, hbody⟩

/-- **Every spelled text has a number.**  The last character is the digit of lowest value, so the
number is found from the front on. -/
theorem exists_nameAt {t : Text} (h : Spelled t) : ∃ n, nameAt n = t := by
  induction t using List.reverseRecOn with
  | nil => exact h.elim
  | append_singleton t c ih =>
    cases t with
    | nil =>
      obtain ⟨hc, -⟩ := h
      have hlt := List.idxOf_lt_length_of_mem hc
      refine ⟨firstChars.idxOf c, ?_⟩
      rw [nameAt, if_pos (length_firstChars ▸ hlt), List.getD_eq_getElem?_getD,
        List.getElem?_eq_getElem hlt, List.getElem_idxOf]
      rfl
    | cons a body =>
      obtain ⟨ha, hbody⟩ := h
      obtain ⟨n, hn⟩ := ih ⟨ha, fun d hd => hbody d (List.mem_append_left _ hd)⟩
      have hlt := List.idxOf_lt_length_of_mem (hbody c (by simp))
      refine ⟨54 + 64 * n + laterChars.idxOf c, ?_⟩
      rw [nameAt_append n (length_laterChars ▸ hlt), hn, List.getD_eq_getElem?_getD,
        List.getElem?_eq_getElem hlt, List.getElem_idxOf]
      rfl

/-- **The order of numbers.**  Greater numbers are those of later names.  The induction follows the
recursion of the names: either what stands in front of the last character comes earlier, or it is
the same and the last character does. -/
theorem shortlex_nameAt {m n : Nat} (h : m < n) : Shortlex (nameAt m) (nameAt n) := by
  induction n using nameAt.induct generalizing m with
  | case1 n hn =>
    rw [nameAt, if_pos (h.trans hn), nameAt, if_pos hn]
    refine .differs 0 _ _ rfl rfl rfl rfl ?_
    rw [charsAt, idxOf_getD nodup_firstChars (by rw [length_firstChars]; omega),
      idxOf_getD nodup_firstChars (by rw [length_firstChars]; omega)]
    exact h
  | case2 n hn ih =>
    have hpos := List.length_pos_iff.mpr (nameAt_ne_nil ((n - 54) / 64))
    rw [nameAt.eq_def n, if_neg hn]
    by_cases hm : m < 54
    · refine .shorter ?_
      rw [nameAt, if_pos hm, List.length_append]
      simpa using hpos
    · rw [nameAt, if_neg hm]
      rcases Nat.lt_or_eq_of_le (Nat.div_le_div_right (c := 64) (Nat.sub_le_sub_right h.le 54)) with
        hlt | heq
      · exact (ih hlt).append_singleton _ _
      · -- The names differ in their last characters, which are not their first.
        obtain ⟨k, hk⟩ := Nat.exists_eq_add_one.mpr hpos
        rw [heq]
        refine .differs (nameAt ((n - 54) / 64)).length _ _ (by simp) (by simp)
          (List.getElem?_concat_length ..) (List.getElem?_concat_length ..) ?_
        rw [hk, charsAt, idxOf_getD nodup_laterChars (by rw [length_laterChars]; omega),
          idxOf_getD nodup_laterChars (by rw [length_laterChars]; omega)]
        omega

/-! ### The counter -/

/-- Counts up a row of digits, of which the last one stands in front. -/
def countUp : List Nat → List Nat
  | [] => [0]
  | [d] => if d + 1 < 54 then [d + 1] else [0, 0]
  | d :: e :: ds => if d + 1 < 64 then (d + 1) :: e :: ds else 0 :: countUp (e :: ds)

/-- The name that a row of digits shows. -/
def spell : List Nat → Text
  | [] => []
  | [d] => [firstChars.getD d '$']
  | d :: e :: ds => spell (e :: ds) ++ [laterChars.getD d '$']

/-- The digits of the name with a given number. -/
def digitsAt (n : Nat) : List Nat :=
  if n < 54 then [n] else (n - 54) % 64 :: digitsAt ((n - 54) / 64)
termination_by n

theorem exists_digitsAt (n : Nat) : ∃ d ds, digitsAt n = d :: ds := by
  rw [digitsAt]
  split <;> exact ⟨_, _, rfl⟩

/-- The digits of a number show the name with that number. -/
theorem spell_digitsAt (n : Nat) : spell (digitsAt n) = nameAt n := by
  induction n using digitsAt.induct with
  | case1 n hn =>
    rw [digitsAt, if_pos hn, nameAt, if_pos hn]
    rfl
  | case2 n hn ih =>
    obtain ⟨d, ds, hdigits⟩ := exists_digitsAt ((n - 54) / 64)
    rw [digitsAt, if_neg hn, nameAt, if_neg hn, ← ih, hdigits]
    rfl

/-- **Counting up goes on to the next name**, with a carry into the digit in front and, from the
first digit, into a new one. -/
theorem countUp_digitsAt (n : Nat) : countUp (digitsAt n) = digitsAt (n + 1) := by
  induction n using digitsAt.induct with
  | case1 n hn =>
    rw [digitsAt, if_pos hn, countUp]
    by_cases hlast : n + 1 < 54
    · rw [if_pos hlast, digitsAt, if_pos hlast]
    · obtain rfl : n = 53 := by omega
      rw [if_neg hlast, digitsAt, if_neg hlast, digitsAt]
      rfl
  | case2 n hn ih =>
    obtain ⟨d, ds, hdigits⟩ := exists_digitsAt ((n - 54) / 64)
    rw [hdigits] at ih
    have hnext : ¬n + 1 < 54 := by omega
    rw [digitsAt, if_neg hn, hdigits, countUp]
    by_cases hlast : (n - 54) % 64 + 1 < 64
    · have hquotient : (n + 1 - 54) / 64 = (n - 54) / 64 := by omega
      have hremainder : (n + 1 - 54) % 64 = (n - 54) % 64 + 1 := by omega
      rw [if_pos hlast, digitsAt, if_neg hnext, hquotient, hremainder, hdigits]
    · have hquotient : (n + 1 - 54) / 64 = (n - 54) / 64 + 1 := by omega
      have hremainder : (n + 1 - 54) % 64 = 0 := by omega
      rw [if_neg hlast, digitsAt, if_neg hnext, hquotient, hremainder, ih]

/-! ### Drawing names -/

/-- The name is passed over where some names are taken. -/
def PassedOver (taken : List Text) (name : Text) : Prop := name ∈ reservedWords ∨ name ∈ taken

/-- A name is drawn from a counter: as long as the name that it shows is passed over, the digits are
counted up, and once more behind the name that is drawn. -/
inductive Draw (taken : List Text) : (digits : List Nat) → (name : Text) → (left : List Nat) → Prop
  | found {digits : List Nat} (h : ¬PassedOver taken (spell digits)) :
      Draw taken digits (spell digits) (countUp digits)
  | skipped {digits left : List Nat} {name : Text} (h : PassedOver taken (spell digits))
      (hmore : Draw taken (countUp digits) name left) : Draw taken digits name left

/-- Names are drawn one after the other, and each of them is taken from then on. -/
inductive Draws : (taken : List Text) → (digits : List Nat) → (names : List Text) → Prop
  | none {taken : List Text} {digits : List Nat} : Draws taken digits []
  | more {taken names : List Text} {digits left : List Nat} {name : Text}
      (h : Draw taken digits name left) (hmore : Draws (name :: taken) left names) :
      Draws taken digits (name :: names)

/-- The search ends at the first number whose name is not passed over.  The digits are then those
of the number behind it, from which the next search goes on. -/
theorem draw_digitsAt {taken : List Text} {n skips : Nat}
    (hskip : ∀ i < skips, PassedOver taken (nameAt (n + i)))
    (hfound : ¬PassedOver taken (nameAt (n + skips))) :
    Draw taken (digitsAt n) (nameAt (n + skips)) (digitsAt (n + skips + 1)) := by
  induction skips generalizing n with
  | zero =>
    rw [Nat.add_zero] at hfound ⊢
    rw [← spell_digitsAt] at hfound ⊢
    rw [← countUp_digitsAt]
    exact .found hfound
  | succ skips ih =>
    have hmore : n + (skips + 1) = n + 1 + skips := by omega
    have hfirst := hskip 0 (Nat.succ_pos _)
    rw [Nat.add_zero, ← spell_digitsAt] at hfirst
    rw [hmore] at hfound ⊢
    refine .skipped hfirst ?_
    rw [countUp_digitsAt]
    refine ih (fun i hi => ?_) hfound
    rw [Nat.add_assoc, Nat.add_comm 1 i]
    exact hskip (i + 1) (Nat.succ_lt_succ hi)

/-! ### The numbers of free names -/

/-- The name with the number is not avoided. -/
def FreeAt (avoided : List Text) (n : Nat) : Prop := nameAt n ∉ avoided

instance (avoided : List Text) : DecidablePred (FreeAt avoided) :=
  fun n => inferInstanceAs (Decidable (nameAt n ∉ avoided))

namespace NameSupply

variable {avoided : List Text}

/-- What a search passes is avoided. -/
theorem mem_of_lt_firstFree {skips n i : Nat} (hle : n ≤ i) (hlt : i < firstFree avoided skips n) :
    nameAt i ∈ avoided := by
  induction skips generalizing n with
  | zero =>
    rw [firstFree] at hlt
    omega
  | succ skips ih =>
    rw [firstFree] at hlt
    split at hlt
    · rename_i hfirst
      rcases Nat.lt_or_eq_of_le hle with hnext | rfl
      · exact ih hnext hlt
      · exact List.contains_iff_mem.mp hfirst
    · omega

/-- There are always more free names. -/
theorem infinite_freeAt (avoided : List Text) : (Set.ofPred (FreeAt avoided)).Infinite := by
  refine Set.infinite_of_forall_exists_gt fun n => ?_
  exact ⟨firstFree avoided avoided.length (n + 1), nameAt_firstFree_not_mem avoided (n + 1),
    le_firstFree avoided avoided.length (n + 1)⟩

/-- A search finds the free number that comes next. -/
theorem firstFree_eq_nth (avoided : List Text) (n : Nat) :
    firstFree avoided avoided.length n =
      Nat.nth (FreeAt avoided) (Nat.count (FreeAt avoided) n) := by
  have hleast : IsLeast {i | FreeAt avoided i ∧ n ≤ i} (firstFree avoided avoided.length n) := by
    refine ⟨⟨nameAt_firstFree_not_mem avoided n, le_firstFree _ _ _⟩, ?_⟩
    rintro i ⟨hfree, hle⟩
    by_contra hlt
    exact hfree (mem_of_lt_firstFree hle (Nat.lt_of_not_le hlt))
  rw [Nat.nth_count_eq_sInf, hleast.csInf_eq]

/-- **The names with the free numbers are handed out**, one after the other.  The supply goes on
from where it stands, and there are infinitely many free numbers. -/
theorem freshList_eq (s : NameSupply) (count : Nat) :
    (s.freshList count).1 = (List.range count).map fun i =>
      nameAt (Nat.nth (FreeAt s.avoided) (Nat.count (FreeAt s.avoided) s.next + i)) := by
  induction count generalizing s with
  | zero => rfl
  | succ count ih =>
    have hfound := firstFree_eq_nth s.avoided s.next
    have hfree : FreeAt s.avoided (firstFree s.avoided s.avoided.length s.next) :=
      nameAt_firstFree_not_mem s.avoided s.next
    have hcount : Nat.count (FreeAt s.avoided) s.fresh.2.next =
        Nat.count (FreeAt s.avoided) s.next + 1 := by
      rw [fresh, Nat.count_succ, if_pos hfree, hfound,
        Nat.count_nth_of_infinite (infinite_freeAt s.avoided)]
    have hsame : s.fresh.2.avoided = s.avoided := rfl
    have hmore := ih s.fresh.2
    rw [hsame, hcount] at hmore
    rw [List.range_succ_eq_map, List.map_cons, List.map_map, freshList, Nat.add_zero, ← hfound]
    refine congrArg (nameAt _ :: ·) (hmore.trans (List.map_congr_left fun i _ => ?_))
    rw [Function.comp_apply, Nat.succ_eq_add_one, Nat.add_right_comm]
    rfl

/-- **A new supply** hands out the names with free numbers, from the first one on.  Free is what is
neither reserved nor taken. -/
theorem freshList_avoiding (taken : List Text) (count : Nat) :
    ((avoiding taken).freshList count).1 = (List.range count).map fun i =>
      nameAt (Nat.nth (FreeAt (reservedWords ++ taken)) i) := by
  have hnone : Nat.count (FreeAt (avoiding taken).avoided) (avoiding taken).next = 0 :=
    Nat.count_zero _
  rw [freshList_eq, hnone]
  exact List.map_congr_left fun i _ => by rw [Nat.zero_add]; rfl

/-- The names that a supply hands out are drawn from a counter, if from its number on the same names
are passed over. -/
theorem draws_freshList (s : NameSupply) {taken : List Text} (count : Nat)
    (h : ∀ n, s.next ≤ n → (PassedOver taken (nameAt n) ↔ nameAt n ∈ s.avoided)) :
    Draws taken (digitsAt s.next) (s.freshList count).1 := by
  induction count generalizing s taken with
  | zero => exact .none
  | succ count ih =>
    have hle := le_firstFree s.avoided s.avoided.length s.next
    obtain ⟨skips, hskips⟩ := Nat.exists_eq_add_of_le hle
    have hdraw : Draw taken (digitsAt s.next) s.fresh.1 (digitsAt s.fresh.2.next) := by
      rw [fresh, hskips]
      refine draw_digitsAt (fun i hi => (h _ (Nat.le_add_right _ _)).mpr ?_) fun hpassed => ?_
      · exact mem_of_lt_firstFree (Nat.le_add_right _ _) (hskips ▸ Nat.add_lt_add_left hi _)
      · rw [← hskips] at hpassed
        exact nameAt_firstFree_not_mem s.avoided s.next ((h _ hle).mp hpassed)
    refine .more hdraw (ih s.fresh.2 fun n hn => ?_)
    -- The name that was drawn has a smaller number.
    have hlt : firstFree s.avoided s.avoided.length s.next < n := hn
    have hother : nameAt n ≠ nameAt (firstFree s.avoided s.avoided.length s.next) := fun heq =>
      hlt.ne' (nameAt_injective heq)
    rw [PassedOver, List.mem_cons, or_iff_right hother]
    exact h n (hle.trans hlt.le)

end NameSupply

/-! ### The first free name -/

/-- The name can be handed out behind the names `before`. -/
structure IsFree (taken before : List Text) (name : Text) : Prop where
  spelled : Spelled name
  not_reserved : name ∉ reservedWords
  not_taken : name ∉ taken
  not_before : name ∉ before

/-- The name is the first in the order of names that can be handed out behind the names `before`. -/
structure IsFirstFree (taken before : List Text) (name : Text) : Prop where
  free : IsFree taken before name
  first : ∀ other, IsFree taken before other → other ≠ name → Shortlex name other

/-- The name with the next free number is the first free name behind those with smaller ones.  A
free name has a number that is the next but so many among the free ones, and none of the smaller
numbers is left for it. -/
theorem isFirstFree_nth (taken : List Text) (i : Nat) :
    IsFirstFree taken
      ((List.range i).map fun j => nameAt (Nat.nth (FreeAt (reservedWords ++ taken)) j))
      (nameAt (Nat.nth (FreeAt (reservedWords ++ taken)) i)) := by
  have hinfinite := NameSupply.infinite_freeAt (reservedWords ++ taken)
  have hfree := Nat.nth_mem_of_infinite hinfinite i
  rw [FreeAt, List.mem_append, not_or] at hfree
  refine ⟨⟨spelled_nameAt _, hfree.1, hfree.2, fun hmem => ?_⟩, fun other hother hne => ?_⟩
  · obtain ⟨j, hj, hsame⟩ := List.mem_map.mp hmem
    have heq := Nat.nth_injective hinfinite (nameAt_injective hsame)
    exact (List.mem_range.mp hj).ne heq
  · obtain ⟨m, rfl⟩ := exists_nameAt hother.spelled
    have hm : FreeAt (reservedWords ++ taken) m := by
      rw [FreeAt, List.mem_append, not_or]
      exact ⟨hother.not_reserved, hother.not_taken⟩
    -- Its number is the next but so many among the free ones.
    have hnth := Nat.nth_count hm
    generalize Nat.count (FreeAt (reservedWords ++ taken)) m = k at hnth
    subst hnth
    refine shortlex_nameAt ((Nat.nth_lt_nth hinfinite).mpr ?_)
    rcases Nat.lt_trichotomy i k with hlt | rfl | hlt
    · exact hlt
    · exact absurd rfl hne
    · exact absurd (List.mem_map.mpr ⟨k, List.mem_range.mpr hlt, rfl⟩) hother.not_before

/-- **Names come in their order.**  Any number of names can be drawn, whatever names are taken, and
each of them is the first spelled text that is neither reserved nor taken nor drawn before. -/
theorem freshList_in_order (taken : List Text) (count : Nat) :
    Draws taken [0] ((NameSupply.avoiding taken).freshList count).1 ∧
      ∀ i < count, ∃ name, ((NameSupply.avoiding taken).freshList count).1[i]? = some name ∧
        IsFirstFree taken (((NameSupply.avoiding taken).freshList count).1.take i) name := by
  have hdigits : digitsAt 0 = [0] := by rw [digitsAt, if_pos (by decide)]
  constructor
  · rw [← hdigits]
    exact (NameSupply.avoiding taken).draws_freshList count fun n _ => List.mem_append.symm
  · intro i hi
    refine ⟨nameAt (Nat.nth (FreeAt (reservedWords ++ taken)) i), ?_, ?_⟩
    · rw [NameSupply.freshList_avoiding, List.getElem?_map, List.getElem?_range hi]
      rfl
    · rw [NameSupply.freshList_avoiding, ← List.map_take, List.take_range, Nat.min_eq_left hi.le]
      exact isFirstFree_nth taken i

end Twinfold
