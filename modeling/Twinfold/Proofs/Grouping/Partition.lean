import Twinfold.Proofs.Grouping.Components

/-!
# Groups partition the positions

The groups are components, and a graph has one list of components.  Hence nothing but the
connections counts: neither the order of the edges nor their number, on both of which the forest
depends, nor edges that lead out of the range (`ofEdges_eq_of_connected_iff`).  Put together, the
groups list every position once (`perm_members_ofEdges`).

* `ofEdges_partitions` — all that the groups of a list of edges are.
-/

namespace Twinfold

variable {n : Nat} {edges edges' : List Edge}

/-- **Every position once.**  The members of the groups, put together, are the positions.  None is
left out, however the edges are. -/
theorem perm_members_ofEdges (n : Nat) (edges : List Edge) :
    ((Group.ofEdges n edges).flatMap Group.members).Perm (List.range n) := by
  have hcomponents := components_ofEdges n edges
  refine (List.perm_ext_iff_of_nodup hcomponents.nodup_members List.nodup_range).mpr fun i => ?_
  rw [List.mem_flatMap, List.mem_range]
  constructor
  · rintro ⟨g, hg, hi⟩
    exact hcomponents.lt_of_mem g hg i hi
  · exact hcomponents.covers i

/-- Two positions are in one group if and only if they are connected. -/
theorem Components.exists_common_iff {adj : Nat → Nat → Prop} {groups : List Group}
    (h : Components n adj groups) {i j : Nat} (hi : i < n) (hj : j < n) :
    (∃ g ∈ groups, i ∈ g.members ∧ j ∈ g.members) ↔ Connected adj i j := by
  constructor
  · rintro ⟨g, hg, hig, hjg⟩
    exact (h.mem_iff_connected g hg i hig j hj).mp hjg
  · intro hconnected
    obtain ⟨g, hg, hig⟩ := h.covers i hi
    exact ⟨g, hg, hig, (h.mem_iff_connected g hg i hig j hj).mpr hconnected⟩

/-- **Only connections count.**  Edges that connect the same positions have the same groups.  The
order of the edges does not matter, and neither does an edge more between positions that are
connected already. -/
theorem ofEdges_eq_of_connected_iff
    (h : ∀ i j, i < n → j < n →
      (Connected (Joined n edges') i j ↔ Connected (Joined n edges) i j)) :
    Group.ofEdges n edges' = Group.ofEdges n edges :=
  ((components_ofEdges n edges').congr h).unique (components_ofEdges n edges)

/-- The order of the edges does not count. -/
theorem joined_iff_of_perm (h : edges'.Perm edges) (i j : Nat) :
    Joined n edges' i j ↔ Joined n edges i j := by
  simp only [Joined, h.mem_iff]

/-- **Groups are components.**  To find a root takes no more than `n` steps in any forest that comes
up, and all that comes up while the roll is called is such a forest.  The groups list every position
below `n` once; two positions are in one group if and only if a path of edges between positions
below `n` connects them; members ascend, and groups ascend by their first members.  In another order
the edges have the same groups. -/
theorem ofEdges_partitions (n : Nat) (edges : List Edge) :
    (∀ f : Forest, f.Reachable n → f.size = n ∧ ∀ i, f.FindEnds i) ∧
    (∀ is : List Nat, (is.foldl Roll.call (.start (.ofEdges n edges))).forest.Reachable n) ∧
    ((Group.ofEdges n edges).flatMap Group.members).Perm (List.range n) ∧
    (∀ i < n, ∀ j < n, (∃ g ∈ Group.ofEdges n edges, i ∈ g.members ∧ j ∈ g.members) ↔
      Connected (Joined n edges) i j) ∧
    (∀ g ∈ Group.ofEdges n edges, g.members.Pairwise (· < ·)) ∧
    (Group.ofEdges n edges).Pairwise (fun g h => g.canonical < h.canonical) ∧
    ∀ edges' : List Edge, edges'.Perm edges → Group.ofEdges n edges' = Group.ofEdges n edges := by
  have hcomponents := components_ofEdges n edges
  refine ⟨?ends, ?roll, perm_members_ofEdges n edges, ?common, hcomponents.ascending,
    hcomponents.ordered, ?perm⟩
  case ends =>
    intro f hf
    exact ⟨hf.grounded.2, hf.grounded.1.findEnds⟩
  case roll =>
    intro is
    exact Roll.reachable_foldl_call is (Forest.reachable_ofEdges n edges)
  case common =>
    intro i hi j hj
    exact hcomponents.exists_common_iff hi hj
  case perm =>
    intro edges' hperm
    have hsame : Joined n edges' = Joined n edges :=
      funext₂ fun i j => propext (joined_iff_of_perm hperm i j)
    exact ofEdges_eq_of_connected_iff fun i j _ _ => by rw [hsame]

/-- Edges among six positions: a chain, an edge that comes twice, from both sides, an edge from a
position to itself, and one that leads out of the range. -/
def chainAndStray : List Edge :=
  [⟨3, 5, none⟩, ⟨0, 3, some 1⟩, ⟨1, 4, none⟩, ⟨4, 1, some 0⟩, ⟨2, 2, none⟩, ⟨2, 6, none⟩]

/-- Backwards these edges have another forest, and the same groups.  The edges make one component
of three, one of two and one of a single element. -/
theorem ofEdges_backwards :
    chainAndStray.reverse.Perm chainAndStray ∧
      Forest.ofEdges 6 chainAndStray.reverse ≠ Forest.ofEdges 6 chainAndStray ∧
      (Forest.ofEdges 6 chainAndStray).FindEnds 5 ∧
      Group.ofEdges 6 chainAndStray = [⟨0, [3, 5]⟩, ⟨1, [4]⟩, ⟨2, []⟩] ∧
      Group.ofEdges 6 chainAndStray.reverse = Group.ofEdges 6 chainAndStray ∧
      Connected (Joined 6 chainAndStray) 5 0 ∧ ¬Connected (Joined 6 chainAndStray) 5 1 := by
  have hgroups : Group.ofEdges 6 chainAndStray = [⟨0, [3, 5]⟩, ⟨1, [4]⟩, ⟨2, []⟩] := by
    decide +kernel
  have hperm : chainAndStray.reverse.Perm chainAndStray := List.reverse_perm _
  obtain ⟨hends, hroll, -, hcommon, -, -, horder⟩ := ofEdges_partitions 6 chainAndStray
  refine ⟨hperm, by decide +kernel, (hends _ (hroll [])).2 5, hgroups, horder _ hperm, ?_, ?_⟩
  · rw [← hcommon 5 (by decide) 0 (by decide), hgroups]
    decide
  · rw [← hcommon 5 (by decide) 1 (by decide), hgroups]
    decide

end Twinfold
