import Mathlib.Combinatorics.Pigeonhole
import Mathlib.Data.List.Induction
import Mathlib.Logic.Function.Iterate
import Twinfold.Grouping

/-!
# Forests stay forests

A forest is **grounded** if some measure gets smaller from every position to its parent, up to the
roots, and no parent is out of range.  Then the way from a position to its root has no more steps
than there are positions (`Grounded.parent_root`): it passes no position twice.

A grounded forest is changed in two ways only, and stays grounded:

* a position is hung under its own root, which changes no root (`Grounded.hang_root`).  Repeated,
  that is what `find` does (`Grounded.find`);
* a root is hung under another root, which moves its tree there (`Grounded.hang_other`).  That is
  what `unite` does, whatever the ranks are (`Grounded.unite`).

Every forest that comes up is grounded (`Reachable.grounded`), so both loops of `find` come to an
end by themselves, not at the bound on their steps (`Grounded.findEnds`).
-/

namespace Twinfold

namespace Forest

variable {f f' : Forest}

/-! ### Parents -/

/-- Whoever has another parent is in range. -/
theorem lt_size_of_parent_ne {i : Nat} (h : f.parent i ≠ i) : i < f.size := by
  by_contra hge
  rw [parent, Array.getElem?_eq_none (Nat.not_lt.mp hge)] at h
  exact h rfl

@[simp] theorem size_hang (f : Forest) (i p : Nat) : (f.hang i p).size = f.size :=
  Array.size_setIfInBounds

/-- Hanging a tree changes the parent of one element. -/
theorem parent_hang {i : Nat} (hi : i < f.size) (p j : Nat) :
    (f.hang i p).parent j = if j = i then p else f.parent j := by
  unfold parent hang
  rw [Array.getElem?_setIfInBounds]
  by_cases hj : i = j
  · subst hj
    rw [if_pos rfl, if_pos (show i < f.parents.size from hi), if_pos rfl]
    rfl
  · rw [if_neg hj, if_neg (Ne.symm hj)]

@[simp] theorem size_singletons (n : Nat) : (singletons n).size = n := Array.size_range

@[simp] theorem parent_singletons (n i : Nat) : (singletons n).parent i = i := by
  rw [parent, singletons, Array.getElem?_range]
  split <;> rfl

/-! ### Ways to the root -/

/-- Climbing is going on to parents: roots do not move. -/
theorem climb_eq_iterate (f : Forest) (steps i : Nat) :
    f.climb steps i = f.parent^[steps] i := by
  induction steps generalizing i with
  | zero => rfl
  | succ steps ih =>
    rw [climb, Function.iterate_succ_apply]
    split
    · rename_i hroot
      rw [hroot]
      exact (Function.iterate_fixed hroot steps).symm
    · exact ih (f.parent i)

theorem root_eq_iterate (f : Forest) (i : Nat) : f.root i = f.parent^[f.size] i :=
  f.climb_eq_iterate f.size i

/-- Whoever is its own parent is its own root. -/
theorem root_of_parent_eq {r : Nat} (h : f.parent r = r) : f.root r = r := by
  rw [root_eq_iterate]
  exact Function.iterate_fixed h f.size

/-- Roots have their root for a parent. -/
theorem parent_ne_of_ne_root {i : Nat} (h : f.parent i ≠ f.root i) : f.parent i ≠ i := by
  intro hself
  rw [root_of_parent_eq hself, hself] at h
  exact h rfl

/-- The measure gets smaller from every position to its parent, up to the roots. -/
def Descends (f : Forest) (depth : Nat → Nat) : Prop :=
  ∀ i, f.parent i ≠ i → depth (f.parent i) < depth i

/-- Parents are in range, and going on to them comes to rest. -/
structure Grounded (f : Forest) : Prop where
  parent_lt : ∀ i < f.size, f.parent i < f.size
  descends : ∃ depth, f.Descends depth

section

variable {depth : Nat → Nat}

/-- On the way up the depth does not grow. -/
theorem Descends.iterate_le (h : f.Descends depth) (steps i : Nat) :
    depth (f.parent^[steps] i) ≤ depth i := by
  induction steps generalizing i with
  | zero => exact Nat.le_refl _
  | succ steps ih =>
    rw [Function.iterate_succ_apply]
    refine Nat.le_trans (ih (f.parent i)) ?_
    by_cases hroot : f.parent i = i
    · rw [hroot]
    · exact Nat.le_of_lt (h i hroot)

/-- Nobody comes back to a position after leaving it. -/
theorem Descends.iterate_lt (h : f.Descends depth) {i : Nat} (hi : f.parent i ≠ i) (steps : Nat) :
    depth (f.parent^[steps] (f.parent i)) < depth i :=
  Nat.lt_of_le_of_lt (h.iterate_le steps (f.parent i)) (h i hi)

/-- The root of an element is less deep than the element, unless it is the element. -/
theorem Descends.root_lt (h : f.Descends depth) {i : Nat} (hi : f.root i ≠ i) :
    depth (f.root i) < depth i := by
  have hmoves : f.parent i ≠ i := fun hroot => hi (root_of_parent_eq hroot)
  have hsize := lt_size_of_parent_ne hmoves
  rw [root_eq_iterate, ← Nat.sub_add_cancel (Nat.lt_of_le_of_lt (Nat.zero_le i) hsize),
    Function.iterate_succ_apply]
  exact h.iterate_lt hmoves _

end

namespace Grounded

/-- **Roots are reached.**  After as many steps as there are positions the way has come to rest.
The depths along the way fall until it rests, and a way with more steps than positions would visit
one of them twice. -/
theorem parent_root (h : f.Grounded) (i : Nat) : f.parent (f.root i) = f.root i := by
  obtain ⟨depth, hdepth⟩ := h.descends
  by_contra hmoves
  -- Otherwise the way moves all the time, and passes one position more than there are.
  have hall : ∀ k ≤ f.size, f.parent (f.parent^[k] i) ≠ f.parent^[k] i := by
    intro k hk hrests
    have hroot : f.root i = f.parent^[k] i := by
      rw [root_eq_iterate, ← Nat.sub_add_cancel hk, Function.iterate_add_apply]
      exact Function.iterate_fixed hrests _
    exact hmoves (by rw [hroot, hrests])
  have hinside : ∀ k ∈ Finset.range (f.size + 1), f.parent^[k] i ∈ Finset.range f.size := by
    intro k hk
    rw [Finset.mem_range] at hk ⊢
    exact lt_size_of_parent_ne (hall k (Nat.le_of_lt_succ hk))
  have hapart : ∀ k l, k < l → l ≤ f.size → f.parent^[k] i ≠ f.parent^[l] i := by
    intro k l hkl hl heq
    have hlt := hdepth.iterate_lt (hall k (by omega)) (l - k - 1)
    rw [← Function.iterate_succ_apply, ← Function.iterate_add_apply,
      show (l - k - 1).succ + k = l by omega, heq] at hlt
    exact Nat.lt_irrefl _ hlt
  obtain ⟨k, hk, l, hl, hne, heq⟩ :=
    Finset.exists_ne_map_eq_of_card_lt_of_maps_to (by simp) hinside
  rw [Finset.mem_range] at hk hl
  rcases Nat.lt_or_gt_of_ne hne with hlt | hlt
  · exact hapart k l hlt (by omega) heq
  · exact hapart l k hlt (by omega) heq.symm

theorem root_root (h : f.Grounded) (i : Nat) : f.root (f.root i) = f.root i :=
  root_of_parent_eq (h.parent_root i)

/-- Parents have the root of their position. -/
theorem root_parent (h : f.Grounded) (i : Nat) : f.root (f.parent i) = f.root i := by
  have hroot := h.parent_root i
  rw [root_eq_iterate] at hroot
  rw [root_eq_iterate, root_eq_iterate, ← Function.iterate_succ_apply,
    Function.iterate_succ_apply', hroot]

/-- The root of an element of a grounded forest is an element. -/
theorem root_lt (h : f.Grounded) {i : Nat} (hi : i < f.size) : f.root i < f.size := by
  have hway : ∀ steps, f.parent^[steps] i < f.size := by
    intro steps
    induction steps with
    | zero => exact hi
    | succ steps ih =>
      rw [Function.iterate_succ_apply']
      exact h.parent_lt _ ih
  rw [root_eq_iterate]
  exact hway f.size

/-- A value that parents share with their positions, and that is a root's own, is the root. -/
theorem root_eq_of (h : f.Grounded) {g : Nat → Nat} (hparent : ∀ i, g (f.parent i) = g i)
    (hroot : ∀ r, f.parent r = r → g r = r) (i : Nat) : f.root i = g i := by
  have hway : ∀ steps, g (f.parent^[steps] i) = g i := by
    intro steps
    induction steps with
    | zero => rfl
    | succ steps ih => rw [Function.iterate_succ_apply', hparent, ih]
  rw [← hway f.size, ← root_eq_iterate]
  exact (hroot _ (h.parent_root i)).symm

end Grounded

theorem Grounded.singletons (n : Nat) : (singletons n).Grounded where
  parent_lt i hi := by rwa [parent_singletons]
  descends := ⟨id, fun i hi => absurd (parent_singletons n i) hi⟩

/-! ### Shorter ways -/

/-- The second forest is grounded too, and its trees are those of the first one. -/
structure SameTrees (f f' : Forest) : Prop where
  grounded : f'.Grounded
  size_eq : f'.size = f.size
  root_eq : ∀ i, f'.root i = f.root i

theorem Grounded.sameTrees (h : f.Grounded) : f.SameTrees f := ⟨h, rfl, fun _ => rfl⟩

theorem SameTrees.trans {f'' : Forest} (h : f.SameTrees f') (h' : f'.SameTrees f'') :
    f.SameTrees f'' :=
  ⟨h'.grounded, h'.size_eq.trans h.size_eq, fun i => (h'.root_eq i).trans (h.root_eq i)⟩

namespace Grounded

/-- **Hanging a position under its own root** changes no tree.  Ways through the position become
shorter and end at the same root. -/
theorem hang_root (h : f.Grounded) {i : Nat} (hi : i < f.size) :
    f.SameTrees (f.hang i (f.root i)) := by
  have hgrounded : (f.hang i (f.root i)).Grounded := by
    obtain ⟨depth, hdepth⟩ := h.descends
    refine ⟨?_, depth, ?_⟩
    · intro j hj
      rw [size_hang] at hj ⊢
      rw [parent_hang hi]
      split
      · exact h.root_lt hi
      · exact h.parent_lt j hj
    · intro j
      rw [parent_hang hi]
      split
      · rename_i heq
        rw [heq]
        exact hdepth.root_lt
      · exact hdepth j
  refine ⟨hgrounded, size_hang f i _, hgrounded.root_eq_of ?_ ?_⟩
  · intro j
    rw [parent_hang hi]
    split
    · rename_i heq
      rw [heq, h.root_root]
    · exact h.root_parent j
  · intro r hr
    rw [parent_hang hi] at hr
    split at hr
    · rename_i heq
      rw [heq] at hr ⊢
      exact hr
    · exact root_of_parent_eq hr

/-- **Compression keeps the trees**, however many steps it has.  Every position on the way gets the
root for a parent, which is where it leads anyway. -/
theorem compress (h : f.Grounded) (steps i : Nat) :
    f.SameTrees (f.compress (f.root i) steps i) := by
  induction steps generalizing f i with
  | zero => exact h.sameTrees
  | succ steps ih =>
    rw [Forest.compress]
    split
    · exact h.sameTrees
    · rename_i hmoves
      have hhang := h.hang_root (lt_size_of_parent_ne (parent_ne_of_ne_root hmoves))
      have hroot : (f.hang i (f.root i)).root (f.parent i) = f.root i := by
        rw [hhang.root_eq, h.root_parent]
      have hrest := ih hhang.grounded (f.parent i)
      rw [hroot] at hrest
      exact hhang.trans hrest

theorem find (h : f.Grounded) (i : Nat) : f.SameTrees (f.find i).2 := h.compress f.size i

end Grounded

/-! ### Both loops come to an end -/

/-- Further steps do not move a root. -/
theorem Grounded.climb_of_size_le (h : f.Grounded) {steps : Nat} (hsteps : f.size ≤ steps)
    (i : Nat) : f.climb steps i = f.root i := by
  rw [climb_eq_iterate, ← Nat.sub_add_cancel hsteps, Function.iterate_add_apply,
    ← root_eq_iterate]
  exact Function.iterate_fixed (h.parent_root i) _

/-- Hanging a position elsewhere does not change the way from its former parent. -/
theorem Grounded.iterate_hang (h : f.Grounded) {i : Nat} (hi : f.parent i ≠ i) (p steps : Nat) :
    (f.hang i p).parent^[steps] (f.parent i) = f.parent^[steps] (f.parent i) := by
  obtain ⟨depth, hdepth⟩ := h.descends
  induction steps with
  | zero => rfl
  | succ steps ih =>
    have hlt := hdepth.iterate_lt hi steps
    rw [Function.iterate_succ_apply', Function.iterate_succ_apply', ih,
      parent_hang (lt_size_of_parent_ne hi), if_neg]
    intro heq
    rw [heq] at hlt
    exact Nat.lt_irrefl _ hlt

/-- Compression needs no more steps than lead to the root.  From the root on every further step
hangs the root under itself. -/
theorem Grounded.compress_of_le (h : f.Grounded) {way steps i : Nat}
    (hway : f.parent^[way] i = f.root i) (hsteps : way ≤ steps) :
    f.compress (f.root i) steps i = f.compress (f.root i) way i := by
  induction way generalizing f steps i with
  | zero =>
    have hroot : f.parent i = f.root i := by
      have hrests := h.parent_root i
      rwa [← show i = f.root i from hway] at hrests ⊢
    cases steps with
    | zero => rfl
    | succ steps => exact if_pos hroot
  | succ way ih =>
    obtain ⟨steps, rfl⟩ : ∃ rest, steps = rest + 1 := ⟨steps - 1, by omega⟩
    rw [Forest.compress, Forest.compress]
    split
    · rfl
    · rename_i hmoves
      have hmoves' := parent_ne_of_ne_root hmoves
      have hhang := h.hang_root (lt_size_of_parent_ne hmoves')
      have hroot : (f.hang i (f.root i)).root (f.parent i) = f.root i := by
        rw [hhang.root_eq, h.root_parent]
      have hway' : (f.hang i (f.root i)).parent^[way] (f.parent i) =
          (f.hang i (f.root i)).root (f.parent i) := by
        rw [h.iterate_hang hmoves', hroot, ← hway, Function.iterate_succ_apply]
      have hrest := ih hhang.grounded hway' (Nat.le_of_succ_le_succ hsteps)
      rwa [hroot] at hrest

/-- To find the root of a position takes no more steps than there are positions: climbing ends at
a root, and neither loop would go on if it could. -/
structure FindEnds (f : Forest) (i : Nat) : Prop where
  parent_root : f.parent (f.root i) = f.root i
  climb_eq : ∀ steps, f.size ≤ steps → f.climb steps i = f.root i
  compress_eq : ∀ steps, f.size ≤ steps → f.compress (f.root i) steps i = (f.find i).2

/-- **Finding ends.**  There are at most as many parents on the way as there are positions. -/
theorem Grounded.findEnds (h : f.Grounded) (i : Nat) : f.FindEnds i where
  parent_root := h.parent_root i
  climb_eq _ hsteps := h.climb_of_size_le hsteps i
  compress_eq _ hsteps := h.compress_of_le (f.root_eq_iterate i).symm hsteps

/-! ### United trees -/

/-- The second forest is grounded too.  Its trees are those of the first one, but the trees of `a`
and `b` are one. -/
structure Unites (f : Forest) (a b : Nat) (f' : Forest) : Prop where
  grounded : f'.Grounded
  size_eq : f'.size = f.size
  root_eq_iff : ∀ i j, f'.root i = f'.root j ↔ f.root i = f.root j ∨
    ((f.root i = f.root a ∨ f.root i = f.root b) ∧ (f.root j = f.root a ∨ f.root j = f.root b))

/-- Uniting is symmetric. -/
theorem Unites.symm {a b : Nat} (h : f.Unites a b f') : f.Unites b a f' where
  grounded := h.grounded
  size_eq := h.size_eq
  root_eq_iff i j := by
    rw [h.root_eq_iff, or_comm (a := f.root i = f.root a), or_comm (a := f.root j = f.root a)]

/-- Ways may get shorter before trees are united. -/
theorem SameTrees.unites {g : Forest} {a b : Nat} (h : f.SameTrees g) (h' : g.Unites a b f') :
    f.Unites a b f' where
  grounded := h'.grounded
  size_eq := h'.size_eq.trans h.size_eq
  root_eq_iff i j := by
    rw [h'.root_eq_iff]
    simp only [h.root_eq]

namespace Grounded

/-- **Hanging a root under another root** moves its tree, and nothing else.  A way to the one root
now goes on to the other, and the other root is still at rest. -/
theorem hang_other (h : f.Grounded) {p q : Nat} (hp : f.parent p = p) (hq : f.parent q = q)
    (hps : p < f.size) (hqs : q < f.size) (hne : p ≠ q) :
    (f.hang q p).Grounded ∧ ∀ i, (f.hang q p).root i = if f.root i = q then p else f.root i := by
  have hroot_p : f.root p = p := root_of_parent_eq hp
  have hroot_q : f.root q = q := root_of_parent_eq hq
  have hgrounded : (f.hang q p).Grounded := by
    obtain ⟨depth, hdepth⟩ := h.descends
    -- The tree that moves becomes deeper than its new root.
    refine ⟨?_, fun i => if f.root i = q then depth i + depth p + 1 else depth i, ?_⟩
    · intro i hi
      rw [size_hang] at hi ⊢
      rw [parent_hang hqs]
      split
      · exact hps
      · exact h.parent_lt i hi
    · intro i
      rw [parent_hang hqs]
      split
      · rename_i heq
        intro _
        simp only [heq, hroot_q, hroot_p, hne, if_true, if_false]
        omega
      · intro hmoves
        have hlt := hdepth i hmoves
        simp only [h.root_parent]
        split <;> omega
  refine ⟨hgrounded, hgrounded.root_eq_of ?_ ?_⟩
  · intro i
    rw [parent_hang hqs]
    split
    · rename_i heq
      rw [heq, hroot_p, hroot_q, if_neg hne, if_pos rfl]
    · rw [h.root_parent]
  · intro r hr
    rw [parent_hang hqs] at hr
    split at hr
    · rename_i heq
      exact absurd (hr.trans heq) hne
    · rename_i hother
      rw [root_of_parent_eq hr, if_neg hother]

/-- Two roots, one hung under the other. -/
theorem unites_hang (h : f.Grounded) {a b : Nat} (ha : a < f.size) (hb : b < f.size)
    (hne : f.root a ≠ f.root b) : f.Unites a b (f.hang (f.root b) (f.root a)) := by
  obtain ⟨hgrounded, hroot⟩ := h.hang_other (h.parent_root a) (h.parent_root b) (h.root_lt ha)
    (h.root_lt hb) hne
  refine ⟨hgrounded, size_hang f _ _, ?_⟩
  intro i j
  rw [hroot, hroot]
  split <;> split <;> omega

/-- Ranks do not count for what the trees are. -/
theorem raise (h : f.Grounded) (i : Nat) : f.SameTrees (f.raise i) := by
  have hroot : ∀ j, (f.raise i).root j = f.root j := by
    intro j
    rw [root_eq_iterate, root_eq_iterate]
    rfl
  exact ⟨⟨h.parent_lt, h.descends⟩, rfl, hroot⟩

/-- **Linking two roots unites their trees** and no others: what was connected stays connected, the
two are connected now, and the forest is grounded again. -/
theorem link (h : f.Grounded) {a b : Nat} (ha : a < f.size) (hb : b < f.size) :
    f.Unites a b (f.link (f.root a) (f.root b)) := by
  unfold Forest.link
  split
  · rename_i heq
    refine ⟨h, rfl, fun i j => ?_⟩
    omega
  · rename_i hne
    split
    · exact (h.unites_hang hb ha (Ne.symm hne)).symm
    · exact h.unites_hang ha hb hne
    · have hhang := h.unites_hang ha hb hne
      have hraise := hhang.grounded.raise (f.root a)
      exact ⟨hraise.grounded, hraise.size_eq.trans hhang.size_eq, fun i j => by
        rw [hraise.root_eq, hraise.root_eq, hhang.root_eq_iff]⟩

/-- **Uniting two trees.**  Finding the roots changes nothing, and linking them is what counts.
Positions are connected afterwards if they were before, or by the two. -/
theorem unite (h : f.Grounded) {a b : Nat} (ha : a < f.size) (hb : b < f.size) :
    f.Unites a b (f.unite a b) := by
  have hfind := h.find a
  have hfinds := hfind.trans (hfind.grounded.find b)
  have hlink := hfinds.grounded.link (hfinds.size_eq ▸ ha) (hfinds.size_eq ▸ hb)
  rw [hfinds.root_eq, hfinds.root_eq, ← hfind.root_eq b] at hlink
  exact hfinds.unites hlink

end Grounded

/-! ### The forests of a run -/

/-- The forests that come up among `n` positions, when roots are found and trees united. -/
inductive Reachable (n : Nat) : Forest → Prop
  | singletons : Reachable n (singletons n)
  | find {f : Forest} (i : Nat) (h : Reachable n f) : Reachable n (f.find i).2
  | unite {f : Forest} {a b : Nat} (ha : a < n) (hb : b < n) (h : Reachable n f) :
      Reachable n (f.unite a b)

/-- **Every forest is grounded**, and none gains or loses a position.  It begins with single trees,
and every find and every union keeps it so. -/
theorem Reachable.grounded {n : Nat} (h : Reachable n f) : f.Grounded ∧ f.size = n := by
  induction h with
  | singletons => exact ⟨.singletons n, size_singletons n⟩
  | find i _ ih =>
    have hfind := ih.1.find i
    exact ⟨hfind.grounded, hfind.size_eq.trans ih.2⟩
  | unite ha hb _ ih =>
    have hunite := ih.1.unite (ih.2 ▸ ha) (ih.2 ▸ hb)
    exact ⟨hunite.grounded, hunite.size_eq.trans ih.2⟩

/-- Joining the ends of an edge leads from a reachable forest to a reachable one. -/
theorem Reachable.join {n : Nat} (h : Reachable n f) (e : Edge) : Reachable n (f.join e) := by
  unfold Forest.join
  split
  · rename_i hends
    rw [h.grounded.2, Bool.and_eq_true, decide_eq_true_eq, decide_eq_true_eq] at hends
    exact h.unite hends.1 hends.2
  · exact h

/-- So does joining the ends of all edges. -/
theorem reachable_ofEdges (n : Nat) (edges : List Edge) : Reachable n (ofEdges n edges) := by
  unfold ofEdges
  induction edges using List.reverseRecOn with
  | nil => exact .singletons
  | append_singleton edges e ih =>
    rw [List.foldl_concat]
    exact ih.join e

end Forest

/-- Calling positions only finds roots. -/
theorem Roll.reachable_foldl_call {n : Nat} (is : List Nat) {roll : Roll}
    (h : roll.forest.Reachable n) : (is.foldl Roll.call roll).forest.Reachable n := by
  induction is generalizing roll with
  | nil => exact h
  | cons i is ih =>
    have hcall : (roll.call i).forest = (roll.forest.find i).2 := by
      unfold Roll.call
      dsimp only
      split <;> rfl
    exact ih (hcall ▸ h.find i)

end Twinfold
