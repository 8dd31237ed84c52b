import Twinfold.Proofs.Detection.Edges
import Twinfold.Proofs.Grouping.Partition
import Twinfold.Proofs.Digest.Polynomial

/-!
# Copies always meet

Copies are joined to the representative of their shape bucket.  But functions with the same lines
may have different fingerprints, since a fingerprint also counts the tokens of a function as they
were read in the source; then there are two representatives with the same lines.  Without lines
there are no tokens, and otherwise the two agree whatever line is masked, so they share a masked
bucket (`exists_maskedBucket`).

Anybody may be in that bucket too, because hashes collide.  But comparison does not tell copies
apart: a hub that is like one of them is like the other, so hubs take away both of them or none
(`connected_of_linkBucket`).

* `identical_share_group` — identical functions with enough lines are in one group.
-/

namespace Twinfold

/-! ### Candidates with their digests -/

/-- The hashes of the lines of a candidate. -/
def Candidate.lineHashes (c : Candidate) : List UInt64 :=
  c.form.keys.map fun key => fnv1a (Text.utf8 key)

/-- A candidate whose digests are those of its form. -/
structure Candidate.Digested (c : Candidate) : Prop where
  fingerprint_eq : c.fingerprint = .ofLines c.form.keys c.form.declaration.tokenCount
  hood_eq : c.hood = neighbourhood c.lineHashes
  length_keys : c.form.keys.length = c.form.declaration.lines.length

namespace Candidate.Digested

variable {c d : Candidate}

theorem length_masked (h : c.Digested) : c.hood.masked.length = c.form.keys.length := by
  rw [h.hood_eq, Twinfold.length_masked, lineHashes, List.length_map]

/-- The masked hash at a position of the body. -/
theorem masked_eq (h : c.Digested) {i : Nat} (hi : i < c.form.keys.length) :
    c.hood.masked[i]? = some (polynomial 0 (c.lineHashes.set i maskValue)) := by
  rw [h.hood_eq]
  exact masked_neighbourhood (by simpa [lineHashes] using hi)

/-- A candidate without lines has no tokens either. -/
theorem fingerprint_of_no_lines (h : c.Digested) (hkeys : c.form.keys = []) :
    c.fingerprint = .ofLines [] 0 := by
  have hlines : c.form.declaration.lines = [] := by
    rw [← List.length_eq_zero_iff, ← h.length_keys, hkeys, List.length_nil]
  rw [h.fingerprint_eq, hkeys, Declaration.tokenCount, hlines, List.foldr_nil]

end Candidate.Digested

/-- Candidates with their digests, at positions below `n`. -/
structure Listed (n : Nat) (cs : List Candidate) : Prop where
  index_lt : ∀ c ∈ cs, c.index < n
  digested : ∀ c ∈ cs, c.Digested

section

variable {n : Nat} {cs : List Candidate} {c d : Candidate}

/-! ### Meeting in a masked bucket -/

/-- Members of a masked bucket that no hub tells apart are connected. -/
theorem connected_of_alike {alike : Candidate → Candidate → Prop} (h : Listed n cs)
    {b : List Candidate} (hb : b ∈ maskedBuckets (representatives cs))
    (hsimilar : ∀ c ∈ b, ∀ d ∈ b, alike c d → c.Similar d)
    (hcongr : ∀ hub ∈ b, ∀ c ∈ b, ∀ d ∈ b, alike c d → (hub.Similar c ↔ hub.Similar d))
    (hc : c ∈ b) (hd : d ∈ b) (hcd : alike c d) :
    Connected (Joined n (searchEdges cs).edges) c.index d.index := by
  refine connected_of_linkBucket b ?_ hsimilar hcongr ?_ c hc d hd hcd
  · exact fun c hc => h.index_lt c (mem_of_mem_representatives (mem_of_mem_maskedBuckets hb hc))
  · exact fun e he => mem_searchEdges_of_masked hb he

/-- Two representatives that agree but for the line at one position share a masked bucket.  With
that line masked both have the same hash, position, number of lines and signature. -/
theorem exists_maskedBucket (h : Listed n cs) (hc : c ∈ representatives cs)
    (hd : d ∈ representatives cs) (hne : c ≠ d) (hsig : c.form.signature = d.form.signature)
    (hlen : c.form.keys.length = d.form.keys.length) {i : Nat} (hi : i < c.form.keys.length)
    (herase : c.form.keys.eraseIdx i = d.form.keys.eraseIdx i) :
    ∃ b ∈ maskedBuckets (representatives cs), c ∈ b ∧ d ∈ b := by
  have hcd := h.digested c (mem_of_mem_representatives hc)
  have hdd := h.digested d (mem_of_mem_representatives hd)
  have hset := eq_set_of_eraseIdx hlen (hlen ▸ hi) herase
  have hhash : d.lineHashes.set i maskValue = c.lineHashes.set i maskValue := by
    have hhashes : d.lineHashes = c.lineHashes.set i (fnv1a (Text.utf8 d.form.keys[i])) := by
      unfold Candidate.lineHashes
      rw [← List.map_set, ← hset]
    rw [hhashes, List.set_set]
  let m : Masking := ⟨polynomial 0 (c.lineHashes.set i maskValue), i, c⟩
  let o : Masking := ⟨polynomial 0 (d.lineHashes.set i maskValue), i, d⟩
  have hm : m ∈ (representatives cs).flatMap Candidate.maskings :=
    List.mem_flatMap.mpr ⟨c, hc, mem_maskings.mpr ⟨hcd.masked_eq hi, rfl⟩⟩
  have ho : o ∈ (representatives cs).flatMap Candidate.maskings :=
    List.mem_flatMap.mpr ⟨d, hd, mem_maskings.mpr ⟨hdd.masked_eq (hlen ▸ hi), rfl⟩⟩
  have hsame : m.same o = true :=
    Masking.same_iff.mpr ⟨congrArg (polynomial 0) hhash.symm, rfl,
      by rw [hcd.length_masked, hdd.length_masked, hlen], hsig⟩
  have hbuckets :=
    isBuckets_buckets equivalence_sameMasking ((representatives cs).flatMap Candidate.maskings)
  obtain ⟨ms, hms, hmm, hom⟩ := hbuckets.exists_common equivalence_sameMasking hm ho hsame
  refine ⟨ms.map Masking.candidate, List.mem_filter.mpr ⟨List.mem_map.mpr ⟨ms, hms, rfl⟩, ?_⟩,
    List.mem_map.mpr ⟨m, hmm, rfl⟩, List.mem_map.mpr ⟨o, hom, rfl⟩⟩
  -- Two different members make a bucket of at least two.
  rcases ms with _ | ⟨x, _ | ⟨y, ms⟩⟩
  · cases hmm
  · have hx : m = o := (List.mem_singleton.mp hmm).trans (List.mem_singleton.mp hom).symm
    exact absurd (congrArg Masking.candidate hx) hne
  · simp

/-! ### No copy is lost -/

/-- Representatives with the same lines are connected: without lines they are one, and with
lines they share a masked bucket. -/
theorem connected_of_keys_eq (h : Listed n cs) (hc : c ∈ representatives cs)
    (hd : d ∈ representatives cs) (hsig : c.form.signature = d.form.signature)
    (hkeys : c.form.keys = d.form.keys) :
    Connected (Joined n (searchEdges cs).edges) c.index d.index := by
  have hident : c.Identical d := Candidate.identical_iff.mpr ⟨hsig, hkeys⟩
  by_cases heq : c = d
  · exact heq ▸ .refl _
  by_cases hnil : c.form.keys = []
  · have hcd := h.digested c (mem_of_mem_representatives hc)
    have hdd := h.digested d (mem_of_mem_representatives hd)
    have hshape : c.sameShape d = true := by
      simp [Candidate.sameShape, hcd.fingerprint_of_no_lines hnil,
        hdd.fingerprint_of_no_lines (hkeys ▸ hnil), hsig]
    exact absurd (eq_of_identical hc hd hshape hident) heq
  · obtain ⟨b, hb, hcb, hdb⟩ := exists_maskedBucket h hc hd heq hsig (congrArg _ hkeys)
      (List.length_pos_iff.mpr hnil) (congrArg (·.eraseIdx 0) hkeys)
    refine connected_of_alike h hb (fun _ _ _ _ halike => halike.similar) ?_ hcb hdb hident
    intro hub _ c _ d _ halike
    exact halike.similar_congr

/-- Every candidate is connected to a representative that is identical to it. -/
theorem exists_representative (h : Listed n cs) (hc : c ∈ cs) :
    ∃ r ∈ representatives cs, r.Identical c ∧
      Connected (Joined n (searchEdges cs).edges) r.index c.index := by
  obtain ⟨b, hb, hcb⟩ := ((isBuckets_shapeBuckets cs).mem_iff c).mpr hc
  obtain ⟨r, hr, hident, hjoin⟩ := (covers_confirmBucket b).reaches c hcb
  have hrep : r ∈ representatives cs := mem_representatives.mpr ⟨b, hb, hr⟩
  refine ⟨r, hrep, hident, ?_⟩
  rcases hjoin with rfl | hedge
  · exact .refl _
  · obtain ⟨f, hf, hfa, hfb⟩ := mem_searchEdges_of_copy hb hedge
    have hr := h.index_lt r (mem_of_mem_representatives hrep)
    exact .rel _ _ ⟨hr, h.index_lt c hc, f, hf, hfa, hfb⟩

/-- **Identical candidates are connected**, whatever the hashes are.  They are in one shape bucket,
in which copies are joined to their representative. -/
theorem connected_of_identical (h : Listed n cs) (hc : c ∈ cs) (hd : d ∈ cs)
    (hident : c.Identical d) : Connected (Joined n (searchEdges cs).edges) c.index d.index := by
  obtain ⟨r, hr, hrc, hrcconn⟩ := exists_representative h hc
  obtain ⟨s, hs, hsd, hsdconn⟩ := exists_representative h hd
  obtain ⟨hrcsig, hrckeys⟩ := Candidate.identical_iff.mp hrc
  obtain ⟨hsdsig, hsdkeys⟩ := Candidate.identical_iff.mp hsd
  obtain ⟨hsig, hkeys⟩ := Candidate.identical_iff.mp hident
  have hrs := connected_of_keys_eq h hr hs (by rw [hrcsig, hsig, hsdsig])
    (by rw [hrckeys, hkeys, hsdkeys])
  exact .trans _ _ _ (.symm _ _ hrcconn) (.trans _ _ _ hrs hsdconn)

end

/-! ### The copies of a detection -/

section

variable {options : Options} {ds : List Declaration}

/-- Candidates are listed by ascending indices, each of them once. -/
theorem listed_candidates (options : Options) (ds : List Declaration) :
    Listed ds.length (candidates options ds) := by
  refine ⟨?index_lt, ?digested⟩
  case index_lt =>
    intro c hc
    obtain ⟨i, d, hd, _, rfl⟩ := mem_candidates.mp hc
    exact (List.getElem?_eq_some_iff.mp hd).1
  case digested =>
    intro c hc
    obtain ⟨i, d, _, _, rfl⟩ := mem_candidates.mp hc
    exact ⟨rfl, rfl, by simp [Candidate.of, FunctionForm.of]⟩

/-- **Copies always meet.**  Two functions with enough lines that comparison calls identical are in
one group, also if they are not made of the same number of tokens, and whatever else has the hashes
of their bodies, of their lines, or of their bodies with a line masked. -/
theorem identical_share_group {i j : Nat} {f g : Declaration} (hf : ds[i]? = some f)
    (hg : ds[j]? = some g) (hfl : options.minLines ≤ f.lines.length)
    (hgl : options.minLines ≤ g.lines.length) (hident : f.compare options.rules g = .identical) :
    ∃ group ∈ (Detection.of options ds).groups, i ∈ group.members ∧ j ∈ group.members := by
  have hfc : Candidate.of i (.of options.rules f) ∈ candidates options ds :=
    mem_candidates.mpr ⟨i, f, hf, hfl, rfl⟩
  have hgc : Candidate.of j (.of options.rules g) ∈ candidates options ds :=
    mem_candidates.mpr ⟨j, g, hg, hgl, rfl⟩
  have hconnected := connected_of_identical (listed_candidates options ds) hfc hgc hident
  have hi := (List.getElem?_eq_some_iff.mp hf).1
  have hj := (List.getElem?_eq_some_iff.mp hg).1
  exact ((components_ofEdges _ _).exists_common_iff hi hj).mpr hconnected

end

/-- A declaration of which only the lines matter. -/
def Declaration.withLines (lines : List String) : Declaration where
  index := 0
  name := "f".toList
  params := []
  flavor := .plain
  lines := lines.map fun line => ⟨line.toList, 0, 0, 1⟩
  start := 0
  bodyStart := 0
  stop := 0
  line := 1
  scope := none
  header := []
  body := []

/-- Two functions with the same line, of which one is said to have two tokens in it. -/
def copiesOfTwoCounts : List Declaration :=
  [.withLines ["a"], { Declaration.withLines [] with lines := [⟨"a".toList, 0, 0, 2⟩] }]

/-- They do not share a shape bucket, but a group. -/
theorem copies_of_two_counts : ∃ f g, copiesOfTwoCounts[0]? = some f ∧
    copiesOfTwoCounts[1]? = some g ∧ f.compare {} g = .identical ∧
    (shapeBuckets (candidates {} copiesOfTwoCounts)).length = 2 ∧
    ∃ group ∈ (Detection.of {} copiesOfTwoCounts).groups, 0 ∈ group.members ∧
      1 ∈ group.members := by
  have hident : (Declaration.withLines ["a"]).compare {}
      { Declaration.withLines [] with lines := [⟨"a".toList, 0, 0, 2⟩] } = .identical := by
    decide +kernel
  refine ⟨_, _, rfl, rfl, hident, by decide +kernel, ?_⟩
  exact identical_share_group rfl rfl (by decide) (by decide) hident

end Twinfold
