import Twinfold.Detection.Search
import Twinfold.Proofs.Detection.Buckets
import Twinfold.Proofs.Lists

/-!
# Edges are matches

Copies are joined to their representatives, hubs to those who are like them, and the two of a
deletion pair to each other.  All three kinds of edges come from comparisons, and they lead from
a function to a later one: buckets keep the order of the functions, and so do representatives
(`compared_of_mem_searchEdges`).  Hashes say which pairs are compared and nothing else, so none of
this depends on them.

A pair may be found several times.  Merging sorts the edges by their ends and keeps the first of
each pair; what is left ascends strictly, whatever the edges say about their lines
(`pairwise_merge`).

* `edges_of_detection` — edges ascend, and each is a match between functions with enough lines,
  labelled with the line in which they differ.
-/

namespace Twinfold

/-! ### Merged edges -/

/-- Of neighbouring edges some are left out, and none is moved. -/
theorem sublist_dropRepeats (last : Option Edge) (es : List Edge) :
    (Edge.dropRepeats last es).Sublist es := by
  induction es generalizing last with
  | nil => exact .slnil
  | cons e es ih =>
    unfold Edge.dropRepeats
    split
    · exact (ih last).cons e
    · exact (ih (some e)).cons_cons e

/-- Of the edges between two functions one is kept, or the last one before them was.  The induction
is on the edges, with the last one that was kept as a parameter. -/
theorem exists_mem_dropRepeats {last : Option Edge} {es : List Edge} {e : Edge} (h : e ∈ es) :
    (∃ f, last = some f ∧ f.a = e.a ∧ f.b = e.b) ∨
      ∃ f ∈ Edge.dropRepeats last es, f.a = e.a ∧ f.b = e.b := by
  induction es generalizing last with
  | nil => cases h
  | cons g es ih =>
    unfold Edge.dropRepeats
    split
    · rename_i hlast
      rcases List.mem_cons.mp h with rfl | h
      · cases last with
        | none => cases hlast
        | some f =>
          simp only [Option.any_some, Edge.samePair, Bool.and_eq_true, decide_eq_true_eq] at hlast
          exact .inl ⟨f, rfl, hlast.1.symm, hlast.2.symm⟩
      · exact ih h
    · rcases List.mem_cons.mp h with rfl | h
      · exact .inr ⟨e, List.mem_cons_self, rfl, rfl⟩
      · rcases @ih (some g) h with ⟨f, hf, hfe⟩ | ⟨f, hf, hfe⟩
        · cases hf
          exact .inr ⟨g, List.mem_cons_self, hfe⟩
        · exact .inr ⟨f, List.mem_cons_of_mem _ hf, hfe⟩

theorem mem_of_mem_merge {es : List Edge} {e : Edge} (h : e ∈ Edge.merge es) : e ∈ es :=
  mem_sortList.mp ((sublist_dropRepeats _ _).subset h)

/-- Merging keeps an edge between any two functions that had one. -/
theorem exists_mem_merge {es : List Edge} {e : Edge} (h : e ∈ es) :
    ∃ f ∈ Edge.merge es, f.a = e.a ∧ f.b = e.b := by
  rcases @exists_mem_dropRepeats none _ _ (mem_sortList.mpr h) with ⟨_, hnone, _⟩ | hkept
  · cases hnone
  · exact hkept

namespace Edge

theorem before_asymm (e f : Edge) (h : e.before f) : ¬f.before e := by
  grind [before]

theorem not_before_trans (e f g : Edge) (hfe : ¬f.before e) (hgf : ¬g.before f) :
    ¬g.before e := by
  grind [before]

/-- Sorted edges, of which one is kept for each pair, ascend strictly by their ends.  Of edges with
the same ends the first is kept, so neighbours in what is left have different ends. -/
theorem pairwise_dropRepeats {last : Option Edge} {es : List Edge}
    (hsorted : (last.toList ++ es).Pairwise fun e f => ¬f.before e) :
    (last.toList ++ dropRepeats last es).Pairwise fun e f => e.a < f.a ∨ e.a = f.a ∧ e.b < f.b := by
  induction es generalizing last with
  | nil => cases last <;> simp [dropRepeats]
  | cons e es ih =>
    unfold dropRepeats
    split
    · refine ih (hsorted.sublist ?_)
      exact (List.sublist_cons_self e es).append_left _
    · rename_i hnew
      have hrest := @ih (some e) (hsorted.sublist (List.sublist_append_right _ _))
      cases last with
      | none => exact hrest
      | some l =>
        refine List.pairwise_cons.mpr ⟨?_, hrest⟩
        have hle : l.a < e.a ∨ l.a = e.a ∧ l.b < e.b := by
          have hbefore := (List.pairwise_cons.mp hsorted).1 e List.mem_cons_self
          grind [before, samePair]
        intro f hf
        rcases List.mem_cons.mp hf with rfl | hf
        · exact hle
        · have := (List.pairwise_cons.mp hrest).1 f hf
          omega

/-- **Merged edges ascend strictly.**  Of the edges between the same two positions one is left. -/
theorem pairwise_merge (es : List Edge) :
    (merge es).Pairwise fun e f => e.a < f.a ∨ e.a = f.a ∧ e.b < f.b :=
  @pairwise_dropRepeats none _ (pairwise_sortList before_asymm not_before_trans es)

end Edge

/-- What is numbered keeps the order of its numbers. -/
theorem pairwise_zipIdx {α : Type} (as : List α) : as.zipIdx.Pairwise fun p q => p.2 < q.2 := by
  refine List.pairwise_map.mp ?_
  rw [List.zipIdx_map_snd]
  exact List.pairwise_lt_range'

/-! ### Representatives -/

/-- The representatives of the shape buckets, by position. -/
def representatives (cs : List Candidate) : List Candidate := (confirmAll (shapeBuckets cs)).sorted

section

variable {cs : List Candidate} {c d : Candidate}

/-- Having the same shape is an equivalence, so buckets of one shape are its classes. -/
theorem equivalence_sameShape : Equivalence fun c d : Candidate => c.sameShape d = true := by
  refine ⟨?_, ?_, ?_⟩
  · intro c
    simp [Candidate.sameShape]
  · intro c d h
    simp only [Candidate.sameShape, Bool.and_eq_true, decide_eq_true_eq] at h ⊢
    exact ⟨h.1.symm, h.2.symm⟩
  · intro c d e h h'
    simp only [Candidate.sameShape, Bool.and_eq_true, decide_eq_true_eq] at h h' ⊢
    exact ⟨h.1.trans h'.1, h.2.trans h'.2⟩

theorem isBuckets_shapeBuckets (cs : List Candidate) :
    IsBuckets Candidate.sameShape cs (shapeBuckets cs) :=
  isBuckets_buckets equivalence_sameShape cs

theorem mem_representatives :
    c ∈ representatives cs ↔ ∃ b ∈ shapeBuckets cs, c ∈ (confirmBucket b).representatives := by
  rw [representatives, Confirmed.sorted, mem_sortList, mem_representatives_confirmAll]

theorem mem_of_mem_representatives (h : c ∈ representatives cs) : c ∈ cs := by
  obtain ⟨b, hb, hc⟩ := mem_representatives.mp h
  exact ((isBuckets_shapeBuckets cs).mem_iff c).mp ⟨b, hb, (covers_confirmBucket b).rep_mem c hc⟩

/-- Identical representatives of one shape are the same. -/
theorem eq_of_identical (hc : c ∈ representatives cs) (hd : d ∈ representatives cs)
    (hshape : c.sameShape d = true) (hident : c.Identical d) : c = d := by
  obtain ⟨b, hb, hcb⟩ := mem_representatives.mp hc
  obtain ⟨b', hb', hdb⟩ := mem_representatives.mp hd
  obtain rfl := (isBuckets_shapeBuckets cs).eq_of_same equivalence_sameShape hb hb'
    ((covers_confirmBucket b).rep_mem c hcb) ((covers_confirmBucket b').rep_mem d hdb) hshape
  by_contra hne
  have : Std.Symm fun r s : Candidate => ¬r.Identical s := by
    constructor
    intro r s hrs hsr
    obtain ⟨hsig, hkeys⟩ := Candidate.identical_iff.mp hsr
    exact hrs (Candidate.identical_iff.mpr ⟨hsig.symm, hkeys.symm⟩)
  exact (pairwise_confirmBucket b).forall hcb hdb hne hident

/-- Candidates whose positions ascend are told apart by them. -/
theorem eq_of_index_eq (hascending : cs.Pairwise fun c d => c.index < d.index) {c d : Candidate}
    (hc : c ∈ cs) (hd : d ∈ cs) (h : c.index = d.index) : c = d := by
  by_contra hne
  have hsymm : Std.Symm fun c d : Candidate => c.index ≠ d.index := ⟨fun _ _ => Ne.symm⟩
  exact (hascending.imp Nat.ne_of_lt).forall hc hd hne h

/-- Representatives keep the order of the functions. -/
theorem ascending_representatives (hascending : cs.Pairwise fun c d => c.index < d.index) :
    (representatives cs).Pairwise fun c d => c.index < d.index := by
  have hapart : (representatives cs).Pairwise fun c d => c.index ≠ d.index := by
    refine ((perm_sortList _ _).pairwise_iff Ne.symm).mpr ?_
    refine List.Pairwise.sublist (sublist_representatives_confirmAll (shapeBuckets cs)) ?_
    exact ((perm_flatten_buckets cs).pairwise_iff Ne.symm).mpr (hascending.imp Nat.ne_of_lt)
  have hsorted : (representatives cs).Pairwise fun c d => ¬(decide (d.index < c.index)) = true := by
    apply pairwise_sortList
    all_goals
      simp only [decide_eq_true_eq]
      omega
  refine (hapart.and hsorted).imp ?_
  rintro c d ⟨hne, hge⟩
  rw [decide_eq_true_eq] at hge
  omega

/-! ### Masked buckets -/

/-- Maskings are the same if the lines, one of them masked, have one hash and the masked position,
the number of lines and the signature agree. -/
theorem Masking.same_iff {m n : Masking} :
    m.same n = true ↔ m.hash = n.hash ∧ m.position = n.position ∧
      m.candidate.hood.masked.length = n.candidate.hood.masked.length ∧
      m.candidate.form.signature = n.candidate.form.signature := by
  simp only [same, Bool.and_eq_true, decide_eq_true_eq, and_assoc]

/-- Having the same masked hash at the same position is an equivalence, too. -/
theorem equivalence_sameMasking : Equivalence fun m n : Masking => m.same n = true := by
  refine ⟨?_, ?_, ?_⟩
  · intro m
    exact Masking.same_iff.mpr ⟨rfl, rfl, rfl, rfl⟩
  · intro m n h
    obtain ⟨h₁, h₂, h₃, h₄⟩ := Masking.same_iff.mp h
    exact Masking.same_iff.mpr ⟨h₁.symm, h₂.symm, h₃.symm, h₄.symm⟩
  · intro m n o h h'
    obtain ⟨h₁, h₂, h₃, h₄⟩ := Masking.same_iff.mp h
    obtain ⟨h₁', h₂', h₃', h₄'⟩ := Masking.same_iff.mp h'
    exact Masking.same_iff.mpr ⟨h₁.trans h₁', h₂.trans h₂', h₃.trans h₃', h₄.trans h₄'⟩

/-- A candidate has one masking for each of its lines, with the hash of the lines where that one is
masked. -/
theorem mem_maskings {c : Candidate} {m : Masking} :
    m ∈ c.maskings ↔ c.hood.masked[m.position]? = some m.hash ∧ m.candidate = c := by
  simp only [Candidate.maskings, List.mem_map, List.mem_zipIdx_iff_getElem?, Prod.exists]
  constructor
  · rintro ⟨hash, position, h, rfl⟩
    exact ⟨h, rfl⟩
  · rintro ⟨h, rfl⟩
    exact ⟨m.hash, m.position, h, rfl⟩

/-- The members of a masked bucket are candidates, each with a line masked. -/
theorem exists_masking_of_mem {b : List Candidate} (hb : b ∈ maskedBuckets cs) :
    ∃ ms : List Masking, b = ms.map Masking.candidate ∧
      (∀ m ∈ ms, m.candidate ∈ cs ∧ m ∈ m.candidate.maskings) ∧
      ∀ m ∈ ms, ∀ o ∈ ms, m.same o = true := by
  obtain ⟨hb, _⟩ := List.mem_filter.mp hb
  obtain ⟨ms, hms, rfl⟩ := List.mem_map.mp hb
  have hbuckets := isBuckets_buckets equivalence_sameMasking (cs.flatMap Candidate.maskings)
  refine ⟨ms, rfl, ?_, hbuckets.same_of_mem ms hms⟩
  intro m hm
  obtain ⟨c, hc, hmc⟩ := List.mem_flatMap.mp ((hbuckets.mem_iff m).mp ⟨ms, hms, hm⟩)
  obtain ⟨_, rfl⟩ := mem_maskings.mp hmc
  exact ⟨hc, hmc⟩

/-- Buckets hold nothing but candidates. -/
theorem mem_of_mem_maskedBuckets {b : List Candidate} (hb : b ∈ maskedBuckets cs) (hc : c ∈ b) :
    c ∈ cs := by
  obtain ⟨ms, rfl, hms, _⟩ := exists_masking_of_mem hb
  obtain ⟨m, hm, rfl⟩ := List.mem_map.mp hc
  exact (hms m hm).1

/-- In a masked bucket a candidate has one line masked, and candidates keep their order.  So no
candidate is twice in a bucket: its maskings are at different positions. -/
theorem ascending_of_mem_maskedBuckets (hascending : cs.Pairwise fun c d => c.index < d.index)
    {b : List Candidate} (hb : b ∈ maskedBuckets cs) : b.Pairwise fun c d => c.index < d.index := by
  have hmaskings : (cs.flatMap Candidate.maskings).Pairwise fun m o =>
      m.candidate.index < o.candidate.index ∨ m.position < o.position := by
    refine List.pairwise_flatMap.mpr ⟨?own, ?others⟩
    case own =>
      intro c _
      refine List.pairwise_map.mpr ?_
      refine (pairwise_zipIdx c.hood.masked).imp ?_
      exact fun hlt => .inr hlt
    case others =>
      refine hascending.imp fun hlt m hm o ho => .inl ?_
      rw [(mem_maskings.mp hm).2, (mem_maskings.mp ho).2]
      exact hlt
  obtain ⟨hb, _⟩ := List.mem_filter.mp hb
  obtain ⟨ms, hms, rfl⟩ := List.mem_map.mp hb
  refine List.pairwise_map.mpr ?_
  refine (hmaskings.sublist (sublist_of_mem_buckets hms)).imp_of_mem ?_
  intro m o hm ho hlt
  have hsame := (isBuckets_buckets equivalence_sameMasking _).same_of_mem ms hms m hm o ho
  obtain ⟨_, hposition, _⟩ := Masking.same_iff.mp hsame
  omega

/-! ### Where the edges come from -/

/-- A copy that is found in a bucket joins its pair in the end, perhaps by another edge. -/
theorem mem_searchEdges_of_copy {b : List Candidate} (hb : b ∈ shapeBuckets cs) {e : Edge}
    (he : e ∈ (confirmBucket b).edges) :
    ∃ f ∈ (searchEdges cs).edges, f.a = e.a ∧ f.b = e.b :=
  exists_mem_merge (List.mem_append_left _ (List.mem_append_left _
    (mem_edges_confirmAll.mpr ⟨b, hb, he⟩)))

/-- So does a variant. -/
theorem mem_searchEdges_of_masked {b : List Candidate}
    (hb : b ∈ maskedBuckets (representatives cs)) {e : Edge} (he : e ∈ (linkBucket b).edges) :
    ∃ f ∈ (searchEdges cs).edges, f.a = e.a ∧ f.b = e.b :=
  exists_mem_merge (List.mem_append_left _ (List.mem_append_right _
    (mem_edges_linkAll.mpr ⟨b, hb, he⟩)))

theorem mem_searchEdges_of_pair (hcd : (c, d) ∈ deletionPairs (representatives cs)) {e : Edge}
    (he : c.edge? d = some e) : ∃ f ∈ (searchEdges cs).edges, f.a = e.a ∧ f.b = e.b :=
  exists_mem_merge (List.mem_append_right _ (List.mem_filterMap.mpr ⟨(c, d), hcd, he⟩))

/-- A copy is joined to a candidate before it that has its shape and its lines. -/
theorem copy_of_mem_confirmAll (hascending : cs.Pairwise fun c d => c.index < d.index) {e : Edge}
    (he : e ∈ (confirmAll (shapeBuckets cs)).edges) :
    ∃ c ∈ cs, ∃ d ∈ cs, c.index < d.index ∧ c.sameShape d = true ∧ c.Identical d ∧
      e = ⟨c.index, d.index, none⟩ := by
  obtain ⟨b, hb, heb⟩ := mem_edges_confirmAll.mp he
  obtain ⟨c, d, hcd, hident, rfl⟩ := (covers_confirmBucket b).edge_sound e heb
  have hc : c ∈ b := hcd.subset (by simp)
  have hd : d ∈ b := hcd.subset (by simp)
  have hsub := sublist_of_mem_buckets hb
  exact ⟨c, hsub.subset hc, d, hsub.subset hd,
    List.pairwise_iff_forall_sublist.mp (hascending.sublist hsub) hcd,
    (isBuckets_shapeBuckets cs).same_of_mem b hb c hc d hd, hident, rfl⟩

/-- Edges join copies, or they come from comparing a representative with a later one.  The buckets
of the other searches hold representatives only, in ascending order. -/
theorem origin_of_mem_searchEdges (hascending : cs.Pairwise fun c d => c.index < d.index)
    {e : Edge} (he : e ∈ (searchEdges cs).edges) :
    e ∈ (confirmAll (shapeBuckets cs)).edges ∨
      ∃ c ∈ representatives cs, ∃ d ∈ representatives cs, c.index < d.index ∧
        c.edge? d = some e := by
  have hpairs : ∀ {bs : List Candidate}, bs.Pairwise (fun c d => c.index < d.index) →
      (∀ c ∈ bs, c ∈ representatives cs) → (∃ c d, [c, d].Sublist bs ∧ c.edge? d = some e) →
      ∃ c ∈ representatives cs, ∃ d ∈ representatives cs, c.index < d.index ∧
        c.edge? d = some e := by
    rintro bs hbs hmem ⟨c, d, hsub, hcd⟩
    exact ⟨c, hmem c (hsub.subset (by simp)), d, hmem d (hsub.subset (by simp)),
      List.pairwise_iff_forall_sublist.mp hbs hsub, hcd⟩
  have hreps := ascending_representatives hascending
  rcases List.mem_append.mp (mem_of_mem_merge he) with he | hpair
  · rcases List.mem_append.mp he with hcopy | hlink
    · exact .inl hcopy
    · obtain ⟨b, hb, heb⟩ := mem_edges_linkAll.mp hlink
      exact .inr (hpairs (ascending_of_mem_maskedBuckets hreps hb)
        (fun _ hc => mem_of_mem_maskedBuckets hb hc) (exists_of_mem_linkBucket heb))
  · obtain ⟨⟨c, d⟩, hcd, hedge⟩ := List.mem_filterMap.mp hpair
    exact .inr (hpairs hreps (fun _ hc => hc) ⟨c, d, sublist_of_mem_deletionPairs hcd, hedge⟩)

/-- **Soundness.**  Every edge is what the comparison of a candidate with a later one gives.  No
edge rests on hashes alone. -/
theorem compared_of_mem_searchEdges (hascending : cs.Pairwise fun c d => c.index < d.index)
    {e : Edge} (he : e ∈ (searchEdges cs).edges) :
    ∃ c ∈ cs, ∃ d ∈ cs, c.index < d.index ∧ c.edge? d = some e := by
  rcases origin_of_mem_searchEdges hascending he with hcopy | ⟨c, hc, d, hd, hlt, hedge⟩
  · obtain ⟨c, hc, d, hd, hlt, -, hident, rfl⟩ := copy_of_mem_confirmAll hascending hcopy
    exact ⟨c, hc, d, hd, hlt, hident.edge? hlt⟩
  · exact ⟨c, mem_of_mem_representatives hc, d, mem_of_mem_representatives hd, hlt, hedge⟩

end

/-! ### The edges of a detection -/

section

variable {options : Options} {ds : List Declaration}

/-- The candidates are the functions with enough lines. -/
theorem mem_candidates {c : Candidate} :
    c ∈ candidates options ds ↔ ∃ i d, ds[i]? = some d ∧ options.minLines ≤ d.lines.length ∧
      c = .of i (.of options.rules d) := by
  simp only [candidates, List.mem_map, List.mem_filter, Prod.exists,
    List.mem_zipIdx_iff_getElem?, decide_eq_true_eq]
  constructor
  · rintro ⟨d, i, ⟨hd, hlines⟩, rfl⟩
    exact ⟨i, d, hd, hlines, rfl⟩
  · rintro ⟨i, d, hd, hlines, rfl⟩
    exact ⟨d, i, ⟨hd, hlines⟩, rfl⟩

theorem Verdict.changedLine_eq_none_iff {verdict : Verdict} (h : verdict.isSimilar = true) :
    verdict.changedLine = none ↔ verdict = .identical := by
  cases verdict <;> simp_all [isSimilar, changedLine]

/-- Candidates stand in the order of the functions. -/
theorem ascending_candidates (options : Options) (ds : List Declaration) :
    (candidates options ds).Pairwise fun c d => c.index < d.index := by
  refine List.pairwise_map.mpr ?_
  exact (pairwise_zipIdx ds).sublist List.filter_sublist

/-- **Edges are matches.**  Whatever the hashes of the lines are, the edges ascend strictly by
their ends, so that no pair of functions comes twice.  Each leads from a function to a later one;
both have enough lines, and comparison says that they are similar.  An edge has no changed line if
and only if they are identical, and otherwise it has the number of the line in which they
differ. -/
theorem edges_of_detection (options : Options) (ds : List Declaration) :
    (Detection.of options ds).edges.Pairwise (fun e f => e.a < f.a ∨ e.a = f.a ∧ e.b < f.b) ∧
    ∀ e ∈ (Detection.of options ds).edges, e.a < e.b ∧
      ∃ f g, ds[e.a]? = some f ∧ ds[e.b]? = some g ∧
        options.minLines ≤ f.lines.length ∧ options.minLines ≤ g.lines.length ∧
        (f.compare options.rules g).isSimilar = true ∧
        (e.changedLine = none ↔ f.compare options.rules g = .identical) ∧
        ∀ edit difference, f.compare options.rules g = .nearDuplicate edit difference →
          e.changedLine = some edit.index := by
  refine ⟨Edge.pairwise_merge _, ?_⟩
  intro e he
  obtain ⟨c, hc, d, hd, hlt, hedge⟩ :=
    compared_of_mem_searchEdges (ascending_candidates options ds) he
  obtain ⟨i, f, hf, hfl, rfl⟩ := mem_candidates.mp hc
  obtain ⟨j, g, hg, hgl, rfl⟩ := mem_candidates.mp hd
  obtain ⟨hsim, rfl⟩ := Candidate.edge?_eq_some_iff hlt |>.mp hedge
  refine ⟨hlt, f, g, hf, hg, hfl, hgl, hsim, Verdict.changedLine_eq_none_iff hsim, ?_⟩
  intro edit difference hverdict
  exact congrArg Verdict.changedLine hverdict

end

end Twinfold
