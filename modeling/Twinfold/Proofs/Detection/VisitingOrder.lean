import Twinfold.Proofs.Detection.Completeness

/-!
# The order in which buckets are visited

Buckets come out of a table in no particular order, and several of them may be looked at at the
same time.  Nothing of what a search finds depends on that: neither the edges nor any of the
numbers (`searchBuckets_of_perm`).

What buckets yield is put together by steps that commute (`foldr_of_perm`), but for the order of
representatives and edges.  Representatives are then put in the order of their positions, in
which no two agree, and edges in an order that tells all of them apart
(`Edge.eq_of_not_before`).
-/

namespace Twinfold

/-! ### Findings put together in another order -/

/-- Steps that commute up to an equivalence lead to equivalent results in every order. -/
theorem foldr_of_perm {α β : Type} {alike : β → β → Prop} (hequiv : Equivalence alike)
    {step : α → β → β} (hstep : ∀ a {x y}, alike x y → alike (step a x) (step a y))
    (hcomm : ∀ a b x, alike (step a (step b x)) (step b (step a x))) {as bs : List α}
    (h : as.Perm bs) (x : β) : alike (as.foldr step x) (bs.foldr step x) := by
  induction h with
  | nil => exact hequiv.refl _
  | cons a _ ih => exact hstep a ih
  | swap a b as => exact hcomm b a _
  | trans _ _ ih ih' => exact hequiv.trans ih ih'

/-- The same findings in shape buckets, perhaps in another order. -/
structure Confirmed.Alike (x y : Confirmed) : Prop where
  representatives : x.representatives.Perm y.representatives
  edges : x.edges.Perm y.edges
  comparisons : x.comparisons = y.comparisons

/-- Alike is an equivalence of what was confirmed, -/
theorem Confirmed.equivalence_alike : Equivalence Confirmed.Alike where
  refl _ := ⟨.refl _, .refl _, rfl⟩
  symm h := ⟨h.1.symm, h.2.symm, h.3.symm⟩
  trans h h' := ⟨h.1.trans h'.1, h.2.trans h'.2, h.3.trans h'.3⟩

/-- Shape buckets yield the same in every order. -/
theorem alike_confirmAll {bs bs' : List (List Candidate)} (h : bs.Perm bs') :
    (confirmAll bs).Alike (confirmAll bs') := by
  refine foldr_of_perm Confirmed.equivalence_alike ?_ ?_ h _
  · intro bucket x y hxy
    exact ⟨hxy.1.append_left _, hxy.2.append_left _, congrArg (_ + ·) hxy.3⟩
  · intro bucket bucket' x
    exact ⟨List.perm_append_comm_assoc _ _ _, List.perm_append_comm_assoc _ _ _,
      Nat.add_left_comm _ _ _⟩

/-- The same findings in masked buckets, perhaps in another order. -/
structure Linked.Alike (x y : Linked) : Prop where
  edges : x.edges.Perm y.edges
  comparisons : x.comparisons = y.comparisons

/-- and of what was linked. -/
theorem Linked.equivalence_alike : Equivalence Linked.Alike where
  refl _ := ⟨.refl _, rfl⟩
  symm h := ⟨h.1.symm, h.2.symm⟩
  trans h h' := ⟨h.1.trans h'.1, h.2.trans h'.2⟩

/-- Masked buckets yield the same in every order. -/
theorem alike_linkAll {bs bs' : List (List Candidate)} (h : bs.Perm bs') :
    (linkAll bs).Alike (linkAll bs') := by
  refine foldr_of_perm Linked.equivalence_alike ?_ ?_ h _
  · intro bucket x y hxy
    exact ⟨hxy.1.append_left _, congrArg (_ + ·) hxy.2⟩
  · intro bucket bucket' x
    exact ⟨List.perm_append_comm_assoc _ _ _, Nat.add_left_comm _ _ _⟩

/-! ### Orders that tell everything apart -/

/-- Representatives are put in one order if no two of them stand at one position. -/
theorem sorted_of_alike {x y : Confirmed} (h : x.Alike y)
    (hindex : ∀ r ∈ x.representatives, ∀ s ∈ x.representatives, r.index = s.index → r = s) :
    x.sorted = y.sorted := by
  refine sortList_eq_of_perm ?_ ?_ ?_ h.representatives
  · intro r s
    simp only [decide_eq_true_eq]
    omega
  · intro r s t
    simp only [decide_eq_true_eq]
    omega
  · intro r hr s hs
    simp only [decide_eq_true_eq]
    intro hsr hrs
    exact hindex r hr s hs (by omega)

namespace Edge

/-- Of two different edges one comes before the other. -/
theorem eq_of_not_before {e f : Edge} (hfe : ¬f.before e) (hef : ¬e.before f) : e = f := by
  obtain ⟨a, b, changed⟩ := e
  obtain ⟨a', b', changed'⟩ := f
  grind [before]

/-- Edges are merged to one list in every order.  Of repeated edges the same one is kept. -/
theorem merge_eq_of_perm {es fs : List Edge} (h : es.Perm fs) : merge es = merge fs := by
  unfold merge
  rw [sortList_eq_of_perm before_asymm not_before_trans (fun _ _ _ _ => eq_of_not_before) h]

end Edge

/-! ### Searches -/

section

variable {cs : List Candidate}

/-- The representatives in their order are the same in whatever order shape buckets are
visited. -/
theorem sorted_confirmAll_of_perm (hascending : cs.Pairwise fun c d => c.index < d.index)
    {shapes : List (List Candidate)} (hshapes : shapes.Perm (shapeBuckets cs)) :
    (confirmAll shapes).sorted = representatives cs := by
  refine (sorted_of_alike (alike_confirmAll hshapes.symm) ?_).symm
  intro r hr s hs
  have hmem : ∀ r ∈ (confirmAll (shapeBuckets cs)).representatives, r ∈ cs := fun r hr =>
    mem_of_mem_representatives (mem_sortList.mpr hr)
  exact eq_of_index_eq hascending (hmem r hr) (hmem s hs)

/-- **Visiting order.**  A search among candidates whose positions ascend finds the same edges and
counts the same work in whatever order the shape buckets and then the masked buckets are
visited. -/
theorem searchBuckets_of_perm (hascending : cs.Pairwise fun c d => c.index < d.index)
    {shapes masked : List (List Candidate)} (hshapes : shapes.Perm (shapeBuckets cs))
    (hmasked : masked.Perm (maskedBuckets (confirmAll shapes).sorted)) :
    searchBuckets shapes masked = searchEdges cs := by
  have hsorted := sorted_confirmAll_of_perm hascending hshapes
  rw [hsorted] at hmasked
  have hconfirmed := alike_confirmAll hshapes
  have hlinked := alike_linkAll hmasked
  have hedges : ∀ found : List Edge,
      Edge.merge ((confirmAll shapes).edges ++ (linkAll masked).edges ++ found) =
        Edge.merge ((confirmAll (shapeBuckets cs)).edges ++
          (linkAll (maskedBuckets (representatives cs))).edges ++ found) := fun found =>
    Edge.merge_eq_of_perm ((hconfirmed.edges.append hlinked.edges).append_right found)
  simp only [searchEdges, searchBuckets, hsorted, hedges, hconfirmed.comparisons,
    hconfirmed.representatives.length_eq, hconfirmed.edges.length_eq, hlinked.comparisons,
    hshapes.length_eq]
  rfl

/-- Five functions: the first and the last are copies, two more differ from them in one line each,
and one has a line less. -/
def copiesAndVariants : List Declaration :=
  [.withLines ["a = 1;", "b"], .withLines ["a = 2;", "b"], .withLines ["a = 1;", "c"],
    .withLines ["a = 1;"], .withLines ["a = 1;", "b"]]

/-- A text with copies and variants, whose buckets are searched from the last to the first. -/
theorem searchBuckets_backwards : ∃ shapes masked,
    shapes = (shapeBuckets (candidates {} copiesAndVariants)).reverse ∧
      masked = (maskedBuckets (confirmAll shapes).sorted).reverse ∧ shapes.length = 4 ∧
      masked.length = 2 ∧
      searchBuckets shapes masked = searchEdges (candidates {} copiesAndVariants) := by
  have hascending : (candidates {} copiesAndVariants).Pairwise fun c d => c.index < d.index := by
    decide +kernel
  refine ⟨_, _, rfl, rfl, by decide +kernel, by decide +kernel, ?_⟩
  exact searchBuckets_of_perm hascending (List.reverse_perm _) (List.reverse_perm _)

end

end Twinfold
