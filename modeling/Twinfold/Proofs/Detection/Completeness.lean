import Twinfold.Proofs.Detection.Copies

/-!
# The search finds every group

The search compares few pairs, yet it connects the same functions as comparing all pairs
would.  Copies are joined to their representatives.  Two similar representatives either have
one length, and then they meet in a masked bucket, or one has a line more, and then they are
a deletion pair.

In a masked bucket there may be strangers, since polynomial hashes collide.  A stranger that
is similar to a hub would be taken away from its own class.  But sequences that differ in one
place never collide, so strangers are not similar (`similar_iff_of_same`), and similarity is
an equivalence in every masked bucket.

* `connected_of_similar` — candidates that are similar are connected by the edges found;
* `components_detection` — the groups are the components of the graph of all similar pairs.
-/

namespace Twinfold

/-- Different lines of two candidates have different hashes. -/
def Separated (c d : Candidate) : Prop :=
  ∀ k ∈ c.form.keys, ∀ l ∈ d.form.keys, fnv1a (Text.utf8 k) = fnv1a (Text.utf8 l) → k = l

/-- Candidates that differ in one line at most do not differ at all if their hashes agree where
another line is masked. -/
theorem keys_eq_of_masked {c d : Candidate} (hsep : Separated c d)
    (hlen : c.form.keys.length = d.form.keys.length) {p q : Nat} (hq : q < d.form.keys.length)
    (hqp : q ≠ p) (herase : c.form.keys.eraseIdx q = d.form.keys.eraseIdx q)
    (hmasked : polynomial 0 (c.lineHashes.set p maskValue) =
      polynomial 0 (d.lineHashes.set p maskValue)) : c.form.keys = d.form.keys := by
  have hset := eq_set_of_eraseIdx hlen hq herase
  have hq' : q < c.form.keys.length := hlen ▸ hq
  -- Both masked sequences are those of `c` with a hash put in at `q`.
  have hself : (c.lineHashes.set p maskValue).set q (fnv1a (Text.utf8 c.form.keys[q])) =
      c.lineHashes.set p maskValue := by
    rw [List.set_comm _ _ (Ne.symm hqp)]
    congr 1
    unfold Candidate.lineHashes
    rw [← List.map_set, List.set_getElem_self]
  have hother : d.lineHashes.set p maskValue =
      (c.lineHashes.set p maskValue).set q (fnv1a (Text.utf8 d.form.keys[q])) := by
    rw [List.set_comm _ _ (Ne.symm hqp)]
    congr 1
    unfold Candidate.lineHashes
    rw [← List.map_set, ← hset]
  rw [← hself, hother] at hmasked
  have hhash := polynomial_set_inj (by simpa [Candidate.lineHashes] using hq') hmasked
  have hkey := hsep _ (List.getElem_mem hq') _ (List.getElem_mem hq) hhash
  rw [hset, ← hkey, List.set_getElem_self]

/-- **No similar strangers.**  Two candidates that share the masked hash at a position are
similar if and only if they agree in all lines but the one there. -/
theorem similar_iff_of_same {c d : Candidate} (hc : c.Digested) (hd : d.Digested)
    (hsep : Separated c d) {m n : Masking} (hm : m ∈ c.maskings) (hn : n ∈ d.maskings)
    (hsame : m.same n = true) :
    c.Similar d ↔ c.form.keys.eraseIdx m.position = d.form.keys.eraseIdx m.position := by
  obtain ⟨hmask, rfl⟩ := mem_maskings.mp hm
  obtain ⟨hnask, rfl⟩ := mem_maskings.mp hn
  obtain ⟨hhash, hpos, hlen, hsig⟩ := Masking.same_iff.mp hsame
  rw [hc.length_masked, hd.length_masked] at hlen
  rw [← hpos, ← hhash] at hnask
  have hp : m.position < m.candidate.form.keys.length := by
    rw [← hc.length_masked]
    exact (List.getElem?_eq_some_iff.mp hmask).1
  rw [hc.masked_eq hp] at hmask
  rw [hd.masked_eq (hlen ▸ hp), ← hmask, Option.some_inj] at hnask
  rw [Candidate.similar_iff]
  constructor
  · rintro ⟨_, hkeys | ⟨_, q, herase⟩ | ⟨q, hq, herase⟩ | ⟨q, hq, herase⟩⟩
    · rw [hkeys]
    · by_cases hqp : q = m.position
      · rw [← hqp, herase]
      by_cases hq : q < n.candidate.form.keys.length
      · rw [keys_eq_of_masked hsep hlen hq hqp herase hnask.symm]
      · rw [List.eraseIdx_of_length_le (by omega), List.eraseIdx_of_length_le (by omega)] at herase
        rw [herase]
    · have := List.length_eraseIdx_of_lt hq
      rw [herase] at this
      omega
    · have := List.length_eraseIdx_of_lt hq
      rw [herase] at this
      omega
  · intro herase
    exact ⟨hsig, .inr (.inl ⟨hlen, _, herase⟩)⟩

/-! ### Representatives -/

/-- Candidates that the search can tell apart: they have their digests and a position below
`n`, and different lines have different hashes. -/
structure Searchable (n : Nat) (cs : List Candidate) : Prop where
  index_lt : ∀ c ∈ cs, c.index < n
  digested : ∀ c ∈ cs, c.Digested
  separated : ∀ c ∈ cs, ∀ d ∈ cs, Separated c d

theorem Searchable.listed {n : Nat} {cs : List Candidate} (h : Searchable n cs) : Listed n cs :=
  ⟨h.index_lt, h.digested⟩

section

variable {n : Nat} {cs : List Candidate} {c d : Candidate}

/-! ### No pair is lost -/

/-- Candidates that share a masked bucket and are similar are connected.  In a masked bucket, being
similar is being equal but for the masked line, so it is an equivalence. -/
theorem connected_of_maskedBucket (h : Searchable n cs) {b : List Candidate}
    (hb : b ∈ maskedBuckets (representatives cs)) (hc : c ∈ b) (hd : d ∈ b) (hsim : c.Similar d) :
    Connected (Joined n (searchEdges cs).edges) c.index d.index := by
  obtain ⟨ms, rfl, hms, hsame⟩ := exists_masking_of_mem hb
  have hcs : ∀ m ∈ ms, m.candidate ∈ cs := fun m hm => mem_of_mem_representatives (hms m hm).1
  have hiff : ∀ m ∈ ms, ∀ o ∈ ms, m.candidate.Similar o.candidate ↔
      m.candidate.form.keys.eraseIdx m.position = o.candidate.form.keys.eraseIdx m.position :=
    fun m hm o ho => similar_iff_of_same (h.digested _ (hcs m hm)) (h.digested _ (hcs o ho))
      (h.separated _ (hcs m hm) _ (hcs o ho)) (hms m hm).2 (hms o ho).2 (hsame m hm o ho)
  refine connected_of_alike h.listed hb (fun _ _ _ _ hsim => hsim) ?_ hc hd hsim
  intro c hc d hd e he hde
  obtain ⟨m, hm, rfl⟩ := List.mem_map.mp hc
  obtain ⟨o, ho, rfl⟩ := List.mem_map.mp hd
  obtain ⟨p, hp, rfl⟩ := List.mem_map.mp he
  obtain ⟨_, hpos, _⟩ := Masking.same_iff.mp (hsame m hm o ho)
  rw [hiff o ho p hp, ← hpos] at hde
  rw [hiff m hm o ho, hiff m hm p hp, hde]

/-- Two representatives of which one has a line more are a deletion pair.  The longer one has the
hash of the shorter one among those with a line deleted, so the two are compared. -/
theorem connected_of_deletion (h : Searchable n cs) (hc : c ∈ representatives cs)
    (hd : d ∈ representatives cs) (hsim : c.Similar d) {i : Nat} (hi : i < d.form.keys.length)
    (herase : d.form.keys.eraseIdx i = c.form.keys) :
    Connected (Joined n (searchEdges cs).edges) c.index d.index := by
  have hcd := h.digested c (mem_of_mem_representatives hc)
  have hdd := h.digested d (mem_of_mem_representatives hd)
  have hc' := h.index_lt c (mem_of_mem_representatives hc)
  have hd' := h.index_lt d (mem_of_mem_representatives hd)
  have hlen : c.form.keys.length + 1 = d.form.keys.length := by
    have := List.length_eraseIdx_of_lt hi
    rw [herase] at this
    omega
  have hwhole : c.hood.whole = polynomial 0 (d.lineHashes.eraseIdx i) := by
    rw [hcd.hood_eq, neighbourhood]
    unfold Candidate.lineHashes
    rw [← herase, List.eraseIdx_map]
  have hdeleted : d.hood.deleted.contains c.hood.whole = true := by
    rw [List.contains_iff_mem, hwhole, hdd.hood_eq]
    exact List.mem_of_getElem? (deleted_neighbourhood (by simpa [Candidate.lineHashes] using hi))
  have hdeletion : c.deletionOf d = true := by
    simp only [Candidate.deletionOf, Bool.and_eq_true, decide_eq_true_eq]
    rw [hcd.length_masked, hdd.length_masked]
    exact ⟨⟨hlen, hdeleted⟩, (Candidate.similar_iff.mp hsim).1⟩
  have hne : c ≠ d := by
    rintro rfl
    omega
  rcases exists_mem_deletionPairs hc hd hne (.inl hdeletion) with hpair | hpair
  · obtain ⟨e, he⟩ := Candidate.exists_edge?_iff.mpr hsim
    exact Candidate.connected_of_edge? hc' hd' he (mem_searchEdges_of_pair hpair he)
  · obtain ⟨e, he⟩ := Candidate.exists_edge?_iff.mpr hsim.symm
    exact .symm _ _ (Candidate.connected_of_edge? hd' hc' he (mem_searchEdges_of_pair hpair he))

/-- Similar representatives are connected. -/
theorem connected_of_similar_representatives (h : Searchable n cs) (hc : c ∈ representatives cs)
    (hd : d ∈ representatives cs) (hsim : c.Similar d) :
    Connected (Joined n (searchEdges cs).edges) c.index d.index := by
  obtain ⟨hsig, hkeys | ⟨hlen, i, herase⟩ | ⟨i, hi, herase⟩ | ⟨i, hi, herase⟩⟩ :=
    Candidate.similar_iff.mp hsim
  · exact connected_of_keys_eq h.listed hc hd hsig hkeys
  · by_cases hi : i < c.form.keys.length
    · by_cases heq : c = d
      · exact heq ▸ .refl _
      obtain ⟨b, hb, hcb, hdb⟩ := exists_maskedBucket h.listed hc hd heq hsig hlen hi herase
      exact connected_of_maskedBucket h hb hcb hdb hsim
    · rw [List.eraseIdx_of_length_le (by omega), List.eraseIdx_of_length_le (by omega)] at herase
      exact connected_of_keys_eq h.listed hc hd hsig herase
  · exact connected_of_deletion h hc hd hsim hi herase
  · exact .symm _ _ (connected_of_deletion h hd hc hsim.symm hi herase)

/-- **Completeness.**  Candidates that are similar are connected by the edges found.  They are
identical, or one line apart, and each case has a search that finds it. -/
theorem connected_of_similar (h : Searchable n cs) (hc : c ∈ cs) (hd : d ∈ cs)
    (hsim : c.Similar d) : Connected (Joined n (searchEdges cs).edges) c.index d.index := by
  obtain ⟨r, hr, hrc, hrcconn⟩ := exists_representative h.listed hc
  obtain ⟨s, hs, hsd, hsdconn⟩ := exists_representative h.listed hd
  have hrs : r.Similar s := by
    obtain ⟨hrcsig, hrckeys⟩ := Candidate.identical_iff.mp hrc
    obtain ⟨hsdsig, hsdkeys⟩ := Candidate.identical_iff.mp hsd
    rw [Candidate.similar_iff, hrcsig, hrckeys, hsdsig, hsdkeys]
    exact Candidate.similar_iff.mp hsim
  exact .trans _ _ _ (.symm _ _ hrcconn)
    (.trans _ _ _ (connected_of_similar_representatives h hr hs hrs) hsdconn)

end

/-! ### The groups of a detection -/

/-- Two functions that both have enough lines and of which comparison says that they are
similar. -/
def SimilarAt (options : Options) (ds : List Declaration) (i j : Nat) : Prop :=
  ∃ c d, ds[i]? = some c ∧ ds[j]? = some d ∧ options.minLines ≤ c.lines.length ∧
    options.minLines ≤ d.lines.length ∧ (c.compare options.rules d).isSimilar = true

/-- Different lines of the functions with enough lines have different hashes. -/
def DistinctHashes (options : Options) (ds : List Declaration) : Prop :=
  ∀ c ∈ ds, ∀ d ∈ ds, options.minLines ≤ c.lines.length → options.minLines ≤ d.lines.length →
    ∀ k ∈ (FunctionForm.of options.rules c).keys, ∀ l ∈ (FunctionForm.of options.rules d).keys,
      fnv1a (Text.utf8 k) = fnv1a (Text.utf8 l) → k = l

section

variable {options : Options} {ds : List Declaration}

/-- If the hashes of lines tell the lines, every pair of similar candidates can be found by a
bucket that both are in. -/
theorem searchable_candidates (hhash : DistinctHashes options ds) :
    Searchable ds.length (candidates options ds) := by
  have hlisted := listed_candidates options ds
  refine ⟨hlisted.index_lt, hlisted.digested, ?_⟩
  intro c hc c' hc'
  obtain ⟨i, d, hd, hlines, rfl⟩ := mem_candidates.mp hc
  obtain ⟨i', d', hd', hlines', rfl⟩ := mem_candidates.mp hc'
  exact hhash d (List.mem_of_getElem? hd) d' (List.mem_of_getElem? hd') hlines hlines'

/-- The edges found connect what comparison of all pairs connects.  Single edges may be missing
among those found, and a way around them is there. -/
theorem connected_searchEdges_iff (hhash : DistinctHashes options ds) (i j : Nat) :
    Connected (Joined ds.length (searchEdges (candidates options ds)).edges) i j ↔
      Connected (SimilarAt options ds) i j := by
  have hsearch := searchable_candidates hhash
  constructor
  · refine connected_of_edges fun i j hij => ?_
    obtain ⟨_, _, e, he, rfl, rfl⟩ := hij
    obtain ⟨c, hc, c', hc', hlt, hedge⟩ :=
      compared_of_mem_searchEdges (ascending_candidates options ds) he
    obtain ⟨i, d, hd, hlines, rfl⟩ := mem_candidates.mp hc
    obtain ⟨j, d', hd', hlines', rfl⟩ := mem_candidates.mp hc'
    obtain ⟨hsim, rfl⟩ := (Candidate.edge?_eq_some_iff hlt).mp hedge
    exact .rel _ _ ⟨d, d', hd, hd', hlines, hlines', hsim⟩
  · refine connected_of_edges fun i j hij => ?_
    obtain ⟨d, d', hd, hd', hlines, hlines', hsim⟩ := hij
    exact connected_of_similar hsearch (mem_candidates.mpr ⟨i, d, hd, hlines, rfl⟩)
      (mem_candidates.mpr ⟨j, d', hd', hlines', rfl⟩) hsim

/-- **Detection equals brute force.**  If different lines have different hashes, the groups
are the components of the graph of all similar pairs, and whoever has too few lines to be
compared is alone. -/
theorem components_detection (options : Options) (ds : List Declaration)
    (hhash : DistinctHashes options ds) :
    Components ds.length (SimilarAt options ds) (Detection.of options ds).groups ∧
      ∀ (i : Nat) (d : Declaration), ds[i]? = some d → d.lines.length < options.minLines →
        (⟨i, []⟩ : Group) ∈ (Detection.of options ds).groups := by
  have hgroups : Components ds.length (SimilarAt options ds) (Detection.of options ds).groups :=
    (components_ofEdges ds.length (searchEdges (candidates options ds)).edges).congr
      fun i j _ _ => connected_searchEdges_iff hhash i j
  refine ⟨hgroups, ?_⟩
  intro i d hd hfew
  have hout : ∀ j, ¬SimilarAt options ds i j := by
    rintro j ⟨c, _, hc, _, hlines, _⟩
    obtain rfl := Option.some_inj.mp (hd.symm.trans hc)
    omega
  have hin : ∀ j, ¬SimilarAt options ds j i := by
    rintro j ⟨_, c, _, hc, _, hlines, _⟩
    obtain rfl := Option.some_inj.mp (hd.symm.trans hc)
    omega
  exact hgroups.singleton_of_no_edges (List.getElem?_eq_some_iff.mp hd).1 hout hin

/-- Three functions: the first two differ in one line, and the third has none. -/
def twoAlikeAndOneEmpty : List Declaration :=
  [.withLines ["a = 1;", "b"], .withLines ["a = 2;", "b"], .withLines []]

/-- Two functions that are alike, and an empty one, which is alone. -/
theorem components_two_alike :
    DistinctHashes {} twoAlikeAndOneEmpty ∧
      Components 3 (SimilarAt {} twoAlikeAndOneEmpty) [⟨0, [1]⟩, ⟨2, []⟩] := by
  have hhash : DistinctHashes {} twoAlikeAndOneEmpty := by
    unfold DistinctHashes
    decide +kernel
  have hgroups : (Detection.of {} twoAlikeAndOneEmpty).groups = [⟨0, [1]⟩, ⟨2, []⟩] := by
    decide +kernel
  refine ⟨hhash, ?_⟩
  rw [← hgroups]
  exact (components_detection {} twoAlikeAndOneEmpty hhash).1

end

end Twinfold
