import Mathlib.Data.List.Nodup
import Mathlib.Logic.Relation
import Mathlib.Order.Nat
import Twinfold.Proofs.Grouping.Forest

/-!
# Groups are connected components

`Components n adj groups` says of a list of groups that it lists the connected components
of a graph on the positions below `n`: every position is covered, a group holds exactly the
positions connected to any of its members, members ascend, and groups ascend by their first
members.  Only one list can do that (`Components.unique`).

* `Forest.root_ofEdges_eq_iff` — two positions have one root if and only if edges connect them;
* `Roll.Called.call` — calling a position puts it where the positions of its tree are, and nothing
  else changes;
* `components_ofEdges` — `Group.ofEdges` lists the components of its edges.
-/

namespace Twinfold

/-! ### The forest of a list of edges -/

/-- Two positions below `n` are joined by an edge of the list. -/
def Joined (n : Nat) (edges : List Edge) (i j : Nat) : Prop :=
  i < n ∧ j < n ∧ ∃ e ∈ edges, e.a = i ∧ e.b = j

/-- Two positions are connected by a path. -/
abbrev Connected (adj : Nat → Nat → Prop) : Nat → Nat → Prop := Relation.EqvGen adj

/-- Whoever is connected in one graph is connected in every graph that connects the ends of
its edges. -/
theorem connected_of_edges {adj adj' : Nat → Nat → Prop}
    (hedge : ∀ i j, adj i j → Connected adj' i j) {i j : Nat} (h : Connected adj i j) :
    Connected adj' i j := by
  induction h with
  | rel i j hij => exact hedge i j hij
  | refl i => exact .refl i
  | symm i j _ ih => exact .symm _ _ ih
  | trans i j k _ _ ihij ihjk => exact .trans _ _ _ ihij ihjk

/-- A value that agrees along edges agrees along paths. -/
theorem eq_of_connected {α : Type} {adj : Nat → Nat → Prop} {f : Nat → α}
    (hedge : ∀ i j, adj i j → f i = f j) {i j : Nat} (h : Connected adj i j) : f i = f j := by
  induction h with
  | rel i j hij => exact hedge i j hij
  | refl i => rfl
  | symm i j _ ih => exact ih.symm
  | trans i j k _ _ ihij ihjk => exact ihij.trans ihjk

namespace Forest

variable {n : Nat} {edges : List Edge}

theorem grounded_ofEdges (n : Nat) (edges : List Edge) : (ofEdges n edges).Grounded :=
  (reachable_ofEdges n edges).grounded.1

@[simp] theorem size_ofEdges (n : Nat) (edges : List Edge) : (ofEdges n edges).size = n :=
  (reachable_ofEdges n edges).grounded.2

theorem ofEdges_concat (n : Nat) (edges : List Edge) (e : Edge) :
    ofEdges n (edges ++ [e]) = (ofEdges n edges).join e :=
  List.foldl_concat ..

/-- One more edge unites the trees of its ends. -/
theorem unites_ofEdges {e : Edge} (he : e.a < n ∧ e.b < n) :
    (ofEdges n edges).Unites e.a e.b (ofEdges n (edges ++ [e])) := by
  have hunite := (grounded_ofEdges n edges).unite (by simpa using he.1) (by simpa using he.2)
  rwa [ofEdges_concat, join, if_pos (by simpa using he)]

/-- An edge that leads out of the range changes nothing. -/
theorem ofEdges_concat_of_out {e : Edge} (he : ¬(e.a < n ∧ e.b < n)) :
    ofEdges n (edges ++ [e]) = ofEdges n edges := by
  rw [ofEdges_concat, join, if_neg (by simpa using he)]

/-- The ends of an edge have one root. -/
theorem root_eq_of_joined {i j : Nat} (h : Joined n edges i j) :
    (ofEdges n edges).root i = (ofEdges n edges).root j := by
  obtain ⟨hi, hj, e, he, rfl, rfl⟩ := h
  induction edges using List.reverseRecOn with
  | nil => cases he
  | append_singleton edges f ih =>
    rcases List.mem_append.mp he with he | he
    · have hold := ih he
      by_cases hf : f.a < n ∧ f.b < n
      · exact ((unites_ofEdges hf).root_eq_iff _ _).mpr (.inl hold)
      · rwa [ofEdges_concat_of_out hf]
    · obtain rfl : e = f := by simpa using he
      exact ((unites_ofEdges ⟨hi, hj⟩).root_eq_iff _ _).mpr (.inr ⟨.inl rfl, .inr rfl⟩)

/-- Positions with one root are connected.  The induction is on the edges: joining the ends of an
edge makes two roots the same only for what the edge connects. -/
theorem connected_of_root_eq {i j : Nat}
    (h : (ofEdges n edges).root i = (ofEdges n edges).root j) :
    Connected (Joined n edges) i j := by
  induction edges using List.reverseRecOn generalizing i j with
  | nil =>
    have hself : ∀ k, (ofEdges n []).root k = k := fun k =>
      root_of_parent_eq (parent_singletons n k)
    rw [hself, hself] at h
    exact h ▸ .refl _
  | append_singleton edges e ih =>
    have hmono : ∀ {i j}, (ofEdges n edges).root i = (ofEdges n edges).root j →
        Connected (Joined n (edges ++ [e])) i j := fun h =>
      connected_of_edges (fun i j ⟨hi, hj, f, hf, hfij⟩ =>
        .rel _ _ ⟨hi, hj, f, List.mem_append_left _ hf, hfij⟩) (ih h)
    by_cases he : e.a < n ∧ e.b < n
    · have hlink : Connected (Joined n (edges ++ [e])) e.a e.b :=
        .rel _ _ ⟨he.1, he.2, e, by simp, rfl, rfl⟩
      have hend : ∀ {i}, (ofEdges n edges).root i = (ofEdges n edges).root e.a ∨
          (ofEdges n edges).root i = (ofEdges n edges).root e.b →
          Connected (Joined n (edges ++ [e])) i e.a := by
        rintro i (hi | hi)
        · exact hmono hi
        · exact .trans _ _ _ (hmono hi) (.symm _ _ hlink)
      rcases ((unites_ofEdges he).root_eq_iff i j).mp h with h | ⟨hi, hj⟩
      · exact hmono h
      · exact .trans _ _ _ (hend hi) (.symm _ _ (hend hj))
    · rw [ofEdges_concat_of_out he] at h
      exact hmono h

/-- **Roots are components.**  Two positions have one root if and only if edges connect
them. -/
theorem root_ofEdges_eq_iff (n : Nat) (edges : List Edge) (i j : Nat) :
    (ofEdges n edges).root i = (ofEdges n edges).root j ↔ Connected (Joined n edges) i j :=
  ⟨connected_of_root_eq, eq_of_connected fun _ _ h => root_eq_of_joined h⟩

end Forest

/-! ### Calling the roll -/

/-- A group is given by its members. -/
theorem Group.eq_of_members {g h : Group} (heq : g.members = h.members) : g = h := by
  obtain ⟨_, _⟩ := g
  obtain ⟨_, _⟩ := h
  simpa [Group.members] using heq

theorem Group.members_add (g : Group) (i : Nat) : (g.add i).members = g.members ++ [i] := rfl

/-- Of the groups only one gets a member more, and keeps its first one. -/
theorem Group.exists_of_getElem?_modify {groups : Array Group} {m m' i : Nat} {g' : Group}
    (h : (groups.modify m (·.add i))[m']? = some g') :
    ∃ g, groups[m']? = some g ∧ (g' = g ∨ m' = m ∧ g' = g.add i) := by
  rw [Array.getElem?_modify] at h
  split at h
  · rename_i heq
    obtain ⟨g, hg, rfl⟩ := Option.map_eq_some_iff.mp h
    exact ⟨g, hg, .inr ⟨heq.symm, rfl⟩⟩
  · exact ⟨g', h, .inl rfl⟩

namespace Roll

variable {f : Forest} {roll : Roll} {k : Nat}

theorem call_eq_of_some {i m : Nat} (h : roll.number? (roll.forest.root i) = some m) :
    roll.call i = ⟨(roll.forest.find i).2, roll.numbers, roll.groups.modify m (·.add i)⟩ := by
  simp only [call, Forest.find, h]

/-- Calling an element of a new tree opens a group for it. -/
theorem call_eq_of_none {i : Nat} (h : roll.number? (roll.forest.root i) = none) :
    roll.call i = ⟨(roll.forest.find i).2,
      roll.numbers.setIfInBounds (roll.forest.root i) (some roll.groups.size),
      roll.groups.push ⟨i, []⟩⟩ := by
  simp only [call, Forest.find, h]

/-- One tree gets a number, and the others keep theirs. -/
theorem number?_setIfInBounds {r : Nat} (hr : r < roll.numbers.size) (forest : Forest)
    (groups : Array Group) (m s : Nat) :
    number? ⟨forest, roll.numbers.setIfInBounds r (some m), groups⟩ s =
      if s = r then some m else roll.number? s := by
  rw [number?, Array.getElem?_setIfInBounds]
  by_cases heq : r = s
  · subst heq
    rw [if_pos rfl, if_pos hr, if_pos rfl]
    rfl
  · rw [if_neg heq, if_neg (Ne.symm heq)]
    rfl

/-- The positions below `k` of a forest have been called, and stand in the groups of their
trees. -/
structure Called (f : Forest) (k : Nat) (roll : Roll) : Prop where
  sameTrees : f.SameTrees roll.forest
  size_numbers : roll.numbers.size = f.size
  /-- Whoever has been called is in a tree with a group. -/
  numbered : ∀ i < k, ∃ m, roll.number? (f.root i) = some m
  /-- The members of a group are those of its tree that have been called. -/
  grouped : ∀ r m, roll.number? r = some m →
    ∃ g, roll.groups[m]? = some g ∧ ∀ i, i ∈ g.members ↔ i < k ∧ f.root i = r
  /-- Every group is that of a tree. -/
  named : ∀ (m : Nat) (g : Group), roll.groups[m]? = some g → ∃ r, roll.number? r = some m
  ascending : ∀ (m : Nat) (g : Group), roll.groups[m]? = some g → g.members.Pairwise (· < ·)
  ordered : ∀ (m m' : Nat) (g g' : Group), m < m' → roll.groups[m]? = some g → roll.groups[m']? = some g' →
    g.canonical < g'.canonical

/-- The next position is one of its tree. -/
theorem called_own (i : Nat) :
    i < k + 1 ∧ f.root i = f.root k ↔ (i < k ∧ f.root i = f.root k) ∨ i = k := by
  rw [Nat.lt_succ_iff_lt_or_eq, or_and_right]
  exact or_congr_right ⟨And.left, fun hi => ⟨hi, by rw [hi]⟩⟩

/-- The next position is none of another tree. -/
theorem called_other {r : Nat} (hother : f.root k ≠ r) (i : Nat) :
    i < k + 1 ∧ f.root i = r ↔ i < k ∧ f.root i = r := by
  rw [Nat.lt_succ_iff_lt_or_eq, or_and_right, or_iff_left]
  rintro ⟨rfl, hroot⟩
  exact hother hroot

namespace Called

/-- At first nobody has been called.  The forest keeps its trees while the roll is called. -/
theorem start (h : f.Grounded) : Called f 0 (.start f) := by
  have hnumber : ∀ r, (Roll.start f).number? r = none := by
    intro r
    simp only [number?, Roll.start, Array.getElem?_replicate]
    split <;> rfl
  have hgroup : ∀ m : Nat, (Roll.start f).groups[m]? = none := fun m => by simp [Roll.start]
  refine ⟨h.sameTrees, Array.size_replicate, ?_, ?_, ?_, ?_, ?_⟩
  · intro i hi
    cases hi
  · intro r m hm
    rw [hnumber] at hm
    cases hm
  · intro m g hg
    rw [hgroup] at hg
    cases hg
  · intro m g hg
    rw [hgroup] at hg
    cases hg
  · intro m m' g g' _ hg
    rw [hgroup] at hg
    cases hg

/-- The members of a group are the elements called so far that have its root. -/
theorem members_iff (h : Called f k roll) {r m : Nat} {g : Group}
    (hm : roll.number? r = some m) (hg : roll.groups[m]? = some g) (i : Nat) :
    i ∈ g.members ↔ i < k ∧ f.root i = r := by
  obtain ⟨g', hg', hmembers⟩ := h.grouped r m hm
  cases hg.symm.trans hg'
  exact hmembers i

/-- Only those who have been called are members. -/
theorem lt_of_mem (h : Called f k roll) {m i : Nat} {g : Group} (hg : roll.groups[m]? = some g)
    (hi : i ∈ g.members) : i < k := by
  obtain ⟨r, hr⟩ := h.named m g hg
  exact ((h.members_iff hr hg i).mp hi).1

/-- Different trees have different groups. -/
theorem root_unique (h : Called f k roll) {r r' m : Nat} (hr : roll.number? r = some m)
    (hr' : roll.number? r' = some m) : r = r' := by
  obtain ⟨g, hg, hmembers⟩ := h.grouped r m hr
  have hfirst : g.canonical ∈ g.members := List.mem_cons_self
  rw [← ((hmembers _).mp hfirst).2, ← ((h.members_iff hr' hg _).mp hfirst).2]

/-- A position whose tree has a group joins it.  Its number goes behind those of the group, and
finding the root may shorten ways but changes no tree. -/
theorem call_of_some (h : Called f k roll) {m : Nat} (hm : roll.number? (f.root k) = some m) :
    Called f (k + 1) (roll.call k) := by
  rw [call_eq_of_some (by rw [h.sameTrees.root_eq, hm])]
  refine ⟨h.sameTrees.trans (h.sameTrees.grounded.find k), h.size_numbers, ?numbered, ?grouped,
    ?named, ?ascending, ?ordered⟩
  case numbered =>
    intro i hi
    rcases Nat.lt_succ_iff_lt_or_eq.mp hi with hi | rfl
    · exact h.numbered i hi
    · exact ⟨m, hm⟩
  case grouped =>
    intro r m' hm'
    obtain ⟨g, hg, hmembers⟩ := h.grouped r m' hm'
    by_cases heq : m' = m
    · subst heq
      obtain rfl := h.root_unique hm' hm
      refine ⟨g.add k, by simp [Array.getElem?_modify, hg], fun i => ?_⟩
      rw [Group.members_add, List.mem_append, hmembers, List.mem_singleton]
      exact (called_own i).symm
    · refine ⟨g, by rw [Array.getElem?_modify, if_neg (Ne.symm heq), hg], fun i => ?_⟩
      rw [hmembers]
      refine (called_other ?_ i).symm
      rintro rfl
      exact heq (Option.some.inj (hm'.symm.trans hm))
  case named =>
    intro m' g' hg'
    obtain ⟨g, hg, -⟩ := Group.exists_of_getElem?_modify hg'
    exact h.named m' g hg
  case ascending =>
    intro m' g' hg'
    obtain ⟨g, hg, rfl | ⟨-, rfl⟩⟩ := Group.exists_of_getElem?_modify hg'
    · exact h.ascending m' g' hg
    · rw [Group.members_add, List.pairwise_append]
      refine ⟨h.ascending m' g hg, List.pairwise_singleton _ _, ?_⟩
      intro i hi j hj
      rw [List.mem_singleton.mp hj]
      exact h.lt_of_mem hg hi
  case ordered =>
    have hcanonical : ∀ (m' : Nat) (g' : Group),
        (roll.groups.modify m (·.add k))[m']? = some g' →
        ∃ g, roll.groups[m']? = some g ∧ g'.canonical = g.canonical := by
      intro m' g' hg'
      obtain ⟨g, hg, rfl | ⟨-, rfl⟩⟩ := Group.exists_of_getElem?_modify hg'
      · exact ⟨g', hg, rfl⟩
      · exact ⟨g, hg, rfl⟩
    intro m₁ m₂ g₁ g₂ hlt hg₁ hg₂
    obtain ⟨g, hg, heq⟩ := hcanonical m₁ g₁ hg₁
    obtain ⟨g', hg', heq'⟩ := hcanonical m₂ g₂ hg₂
    rw [heq, heq']
    exact h.ordered m₁ m₂ g g' hlt hg hg'

/-- The first position of a tree begins its group.  The group gets the next number, which is
written down for the root of the tree. -/
theorem call_of_none (h : Called f k roll) (hf : f.Grounded) (hk : k < f.size)
    (hnone : roll.number? (f.root k) = none) : Called f (k + 1) (roll.call k) := by
  rw [call_eq_of_none (by rw [h.sameTrees.root_eq, hnone]), h.sameTrees.root_eq]
  have hroot : f.root k < roll.numbers.size := h.size_numbers ▸ hf.root_lt hk
  have hnumber := number?_setIfInBounds hroot (roll.forest.find k).2 (roll.groups.push ⟨k, []⟩)
    roll.groups.size
  have hin : ∀ {m : Nat} {g : Group}, roll.groups[m]? = some g → m < roll.groups.size :=
    fun hg => (Array.getElem?_eq_some_iff.mp hg).1
  refine ⟨h.sameTrees.trans (h.sameTrees.grounded.find k),
    Array.size_setIfInBounds.trans h.size_numbers, ?numbered, ?grouped, ?named, ?ascending,
    ?ordered⟩
  case numbered =>
    intro i hi
    rw [hnumber]
    split
    · exact ⟨_, rfl⟩
    · rename_i hother
      rcases Nat.lt_succ_iff_lt_or_eq.mp hi with hi | rfl
      · exact h.numbered i hi
      · exact absurd rfl hother
  case grouped =>
    intro r m hm
    rw [hnumber] at hm
    split at hm
    · rename_i heq
      cases hm
      subst heq
      refine ⟨⟨k, []⟩, by simp, fun i => ?_⟩
      -- Nobody of this tree has been called before.
      have hfirst : ¬(i < k ∧ f.root i = f.root k) := by
        rintro ⟨hi, hroot⟩
        obtain ⟨m, hm⟩ := h.numbered i hi
        rw [hroot, hnone] at hm
        cases hm
      rw [called_own, Group.members, List.mem_singleton]
      exact (or_iff_right hfirst).symm
    · rename_i hother
      obtain ⟨g, hg, hmembers⟩ := h.grouped r m hm
      refine ⟨g, by rw [Array.getElem?_push, if_neg (Nat.ne_of_lt (hin hg)), hg], fun i => ?_⟩
      rw [hmembers, called_other (Ne.symm hother)]
  case named =>
    intro m g hg
    rw [Array.getElem?_push] at hg
    split at hg
    · rename_i heq
      exact ⟨f.root k, by rw [hnumber, if_pos rfl, heq]⟩
    · obtain ⟨r, hr⟩ := h.named m g hg
      refine ⟨r, ?_⟩
      rw [hnumber, if_neg, hr]
      rintro rfl
      rw [hnone] at hr
      cases hr
  case ascending =>
    intro m g hg
    rw [Array.getElem?_push] at hg
    split at hg
    · cases hg
      exact List.pairwise_singleton _ _
    · exact h.ascending m g hg
  case ordered =>
    intro m m' g g' hlt hg hg'
    rw [Array.getElem?_push] at hg hg'
    split at hg'
    · rw [if_neg (by omega)] at hg
      cases hg'
      exact h.lt_of_mem hg List.mem_cons_self
    · have hin' := hin hg'
      rw [if_neg (by omega)] at hg
      exact h.ordered m m' g g' hlt hg hg'

/-- **Calling one position** puts it where the positions of its tree are.  It becomes the first
member of a new group if its root has not been met before. -/
theorem call (h : Called f k roll) (hf : f.Grounded) (hk : k < f.size) :
    Called f (k + 1) (roll.call k) := by
  rcases hnumber : roll.number? (f.root k) with _ | m
  · exact h.call_of_none hf hk hnumber
  · exact h.call_of_some hnumber

/-- **Calling the roll.**  In the end all positions have been called.  The induction is on how many
have been called, and `call` is its step. -/
theorem range (hf : f.Grounded) {k : Nat} (hk : k ≤ f.size) :
    Called f k ((List.range k).foldl Roll.call (.start f)) := by
  induction k with
  | zero => exact .start hf
  | succ k ih =>
    rw [List.range_succ, List.foldl_concat]
    exact (ih (Nat.le_of_lt hk)).call hf hk

end Called

end Roll

/-! ### Lists of components -/

/-- The groups are the connected components of a graph on the positions below `n`, each
with ascending members, in the order of their first members. -/
structure Components (n : Nat) (adj : Nat → Nat → Prop) (groups : List Group) : Prop where
  /-- Every position is in a group. -/
  covers : ∀ i < n, ∃ g ∈ groups, i ∈ g.members
  /-- There are no members but positions. -/
  lt_of_mem : ∀ g ∈ groups, ∀ i ∈ g.members, i < n
  /-- The members of a group are the positions connected to any one of them. -/
  mem_iff_connected : ∀ g ∈ groups, ∀ i ∈ g.members, ∀ j < n, j ∈ g.members ↔ Connected adj i j
  ascending : ∀ g ∈ groups, g.members.Pairwise (· < ·)
  ordered : groups.Pairwise fun g h => g.canonical < h.canonical

/-- **The groups of a list of edges are its components.**  The forest of the edges has one tree for
each component, and the roll calls the positions in their order. -/
theorem components_ofEdges (n : Nat) (edges : List Edge) :
    Components n (Joined n edges) (Group.ofEdges n edges) := by
  have hcalled := Roll.Called.range (Forest.grounded_ofEdges n edges) (Nat.le_refl _)
  rw [Forest.size_ofEdges] at hcalled
  -- Members of a group have one root, and whoever has that root is a member.
  have hgroup : ∀ g ∈ Group.ofEdges n edges, ∃ r, ∀ i, i ∈ g.members ↔
      i < n ∧ (Forest.ofEdges n edges).root i = r := by
    intro g hg
    obtain ⟨m, hm⟩ := List.mem_iff_getElem?.mp hg
    rw [Group.ofEdges, Array.getElem?_toList] at hm
    obtain ⟨r, hr⟩ := hcalled.named m g hm
    exact ⟨r, hcalled.members_iff hr hm⟩
  refine ⟨?covers, ?lt_of_mem, ?mem_iff_connected, ?ascending, ?ordered⟩
  case covers =>
    intro i hi
    obtain ⟨m, hm⟩ := hcalled.numbered i hi
    obtain ⟨g, hg, hmembers⟩ := hcalled.grouped _ m hm
    refine ⟨g, List.mem_iff_getElem?.mpr ⟨m, ?_⟩, (hmembers i).mpr ⟨hi, rfl⟩⟩
    rwa [Group.ofEdges, Array.getElem?_toList]
  case lt_of_mem =>
    intro g hg i hi
    obtain ⟨r, hr⟩ := hgroup g hg
    exact ((hr i).mp hi).1
  case mem_iff_connected =>
    intro g hg i hi j hj
    obtain ⟨r, hr⟩ := hgroup g hg
    rw [hr, ← Forest.root_ofEdges_eq_iff, ((hr i).mp hi).2]
    exact ⟨fun h => h.2.symm, fun h => ⟨hj, h.symm⟩⟩
  case ascending =>
    intro g hg
    obtain ⟨m, hm⟩ := List.mem_iff_getElem?.mp hg
    rw [Group.ofEdges, Array.getElem?_toList] at hm
    exact hcalled.ascending m g hm
  case ordered =>
    refine List.pairwise_iff_getElem.mpr fun m m' hm hm' hlt => ?_
    refine hcalled.ordered m m' _ _ hlt ?_ ?_
    · rw [← Array.getElem?_toList]
      exact List.getElem?_eq_getElem hm
    · rw [← Array.getElem?_toList]
      exact List.getElem?_eq_getElem hm'

namespace Components

variable {n : Nat} {adj adj' : Nat → Nat → Prop} {groups groups' : List Group}

/-- Graphs with the same connections have the same components. -/
theorem congr (h : Components n adj groups)
    (hsame : ∀ i j, i < n → j < n → (Connected adj i j ↔ Connected adj' i j)) :
    Components n adj' groups := by
  refine ⟨h.covers, h.lt_of_mem, ?_, h.ascending, h.ordered⟩
  intro g hg i hi j hj
  rw [h.mem_iff_connected g hg i hi j hj]
  exact hsame i j (h.lt_of_mem g hg i hi) hj

/-- The canonical function is the first of its group. -/
theorem canonical_le (h : Components n adj groups) {g : Group} (hg : g ∈ groups) {i : Nat}
    (hi : i ∈ g.members) : g.canonical ≤ i := by
  rcases List.mem_cons.mp hi with rfl | hi
  · exact Nat.le_refl _
  · exact Nat.le_of_lt ((List.pairwise_cons.mp (h.ascending g hg)).1 i hi)

/-- **Groups are apart.**  Every position is in one group, and once.  Two groups with a common
member would be connected, and so one group. -/
theorem nodup_members (h : Components n adj groups) : (groups.flatMap Group.members).Nodup := by
  refine List.nodup_flatMap.mpr ⟨fun g hg => ?_, ?_⟩
  · exact (h.ascending g hg).imp fun hlt => Nat.ne_of_lt hlt
  · refine List.Pairwise.imp_of_mem ?_ h.ordered
    intro g g' hg hg' hlt i hi hi'
    have hfirst : g.canonical ∈ g.members := List.mem_cons_self
    have hin := h.lt_of_mem g hg _ hfirst
    -- The first member of one group is in the other.
    have hconnected := (h.mem_iff_connected g hg i hi _ hin).mp hfirst
    have hmem := (h.mem_iff_connected g' hg' i hi' _ hin).mpr hconnected
    have hle := h.canonical_le hg' hmem
    omega

/-- Two lists of the components of one graph hold the same groups.  Its first member is in a group
of the other list, which has the same members, in the same order. -/
theorem mem_of_mem (h : Components n adj groups) (h' : Components n adj groups') {g : Group}
    (hg : g ∈ groups) : g ∈ groups' := by
  have hlt := h.lt_of_mem g hg
  have hfirst : g.canonical ∈ g.members := List.mem_cons_self
  obtain ⟨g', hg', hmem⟩ := h'.covers g.canonical (hlt _ hfirst)
  have hsame : ∀ i, i ∈ g.members ↔ i ∈ g'.members := by
    intro i
    constructor
    · intro hi
      exact (h'.mem_iff_connected g' hg' _ hmem i (hlt i hi)).mpr
        ((h.mem_iff_connected g hg _ hfirst i (hlt i hi)).mp hi)
    · intro hi
      have hin := h'.lt_of_mem g' hg' i hi
      exact (h.mem_iff_connected g hg _ hfirst i hin).mpr
        ((h'.mem_iff_connected g' hg' _ hmem i hin).mp hi)
  have hmembers : g.members = g'.members := by
    refine List.Perm.eq_of_pairwise ?_ (h.ascending g hg) (h'.ascending g' hg') ?_
    · intro a b _ _ hab hba
      omega
    · exact (List.perm_ext_iff_of_nodup ((h.ascending g hg).imp fun hab => by omega)
        ((h'.ascending g' hg').imp fun hab => by omega)).mpr hsame
  exact Group.eq_of_members hmembers ▸ hg'

/-- **One list of components.**  A graph determines the list of its components.  The groups are its
classes, members ascend in each, and the groups are ordered by their first members. -/
theorem unique (h : Components n adj groups) (h' : Components n adj groups') :
    groups = groups' := by
  refine List.Perm.eq_of_pairwise ?_ h.ordered h'.ordered ?_
  · intro a b _ _ hab hba
    omega
  · have hne : ∀ {g g' : Group}, g.canonical < g'.canonical → g ≠ g' := by
      rintro g g' hlt rfl
      omega
    exact (List.perm_ext_iff_of_nodup (h.ordered.imp hne) (h'.ordered.imp hne)).mpr
      fun g => ⟨h.mem_of_mem h', h'.mem_of_mem h⟩

/-- A position without edges is a group of its own.  It is in some group, and every other member of
that group would be connected to it. -/
theorem singleton_of_no_edges (h : Components n adj groups) {i : Nat} (hi : i < n)
    (hout : ∀ j, ¬adj i j) (hin : ∀ j, ¬adj j i) : (⟨i, []⟩ : Group) ∈ groups := by
  have halone : ∀ {j k}, Connected adj j k → (j = i ↔ k = i) := by
    intro j k hjk
    have hedge : ∀ j k, adj j k → decide (j = i) = decide (k = i) := by
      intro j k hjk
      by_cases hj : j = i
      · subst hj
        exact absurd hjk (hout k)
      · by_cases hk : k = i
        · subst hk
          exact absurd hjk (hin j)
        · simp [hj, hk]
    simpa using eq_of_connected hedge hjk
  obtain ⟨g, hg, hmem⟩ := h.covers i hi
  have honly : ∀ j ∈ g.members, j = i := by
    intro j hj
    have hconn := (h.mem_iff_connected g hg i hmem j (h.lt_of_mem g hg j hj)).mp hj
    exact (halone hconn).mp rfl
  obtain ⟨canonical, others⟩ := g
  have hcanonical : canonical = i := honly canonical List.mem_cons_self
  have hothers : others = [] := by
    apply List.eq_nil_iff_forall_not_mem.mpr
    intro j hj
    have hlt : canonical < j := List.rel_of_pairwise_cons (h.ascending _ hg) hj
    have hj : j = i := honly j (List.mem_cons_of_mem _ hj)
    omega
  rwa [hcanonical, hothers] at hg

end Components

end Twinfold
