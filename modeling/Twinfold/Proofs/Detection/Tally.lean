import Twinfold.Proofs.Declaration.LinesAlone
import Twinfold.Proofs.Detection.Copies
import Twinfold.Proofs.Similarity.Keys

/-!
# The tally and the result

What is counted after the edges have been merged agrees with them: the near duplicates, and the
groups.  Every edge took a comparison of its own.

Identical pairs are counted earlier, while copies are joined to the representatives of their shape
buckets.  Each function is joined to one representative at most (`nodup_copies`), and merging keeps
all these edges.  But an identical pair that meets in a masked bucket only is not counted.  These
are the pairs whose functions have different numbers of tokens (`mem_copies_iff`).

* `tally_of_detection` — the numbers, and when they add up to the number of edges.
* `uncounted_copies` — a pair that is missing from the tally.
-/

namespace Twinfold

/-! ### Comparisons -/

/-- Every copy took a comparison. -/
theorem length_edges_confirmBucket_le (bucket : List Candidate) :
    (confirmBucket bucket).edges.length ≤ (confirmBucket bucket).comparisons := by
  unfold confirmBucket
  induction bucket using List.reverseRecOn with
  | nil => exact le_rfl
  | append_singleton bucket c ih =>
    rw [List.foldl_append, List.foldl_cons, List.foldl_nil, Confirmed.add]
    split
    · simp only [List.length_append, List.length_singleton]
      omega
    · exact ih.trans (Nat.le_add_right _ _)

/-- Each edge of identical functions took a comparison. -/
theorem length_edges_confirmAll_le (bs : List (List Candidate)) :
    (confirmAll bs).edges.length ≤ (confirmAll bs).comparisons := by
  induction bs with
  | nil => exact le_rfl
  | cons b bs ih =>
    have hb := length_edges_confirmBucket_le b
    have : confirmAll (b :: bs) = (confirmBucket b).append (confirmAll bs) := rfl
    simp only [this, Confirmed.append, List.length_append]
    omega

/-- A hub is compared with every other member, and not all of them are joined to it. -/
theorem length_edges_linkBucket_le (bucket : List Candidate) :
    (linkBucket bucket).edges.length ≤ (linkBucket bucket).comparisons := by
  induction bucket using linkBucket.induct with
  | case1 => simp [linkBucket]
  | case2 hub rest ih =>
    have hrest := List.length_filterMap_le hub.edge? rest
    rw [linkBucket, List.length_append]
    dsimp only
    omega

/-- Each edge of near-duplicates took a comparison. -/
theorem length_edges_linkAll_le (bs : List (List Candidate)) :
    (linkAll bs).edges.length ≤ (linkAll bs).comparisons := by
  induction bs with
  | nil => exact le_rfl
  | cons b bs ih =>
    have hb := length_edges_linkBucket_le b
    have : linkAll (b :: bs) = ⟨(linkBucket b).edges ++ (linkAll bs).edges,
      (linkBucket b).comparisons + (linkAll bs).comparisons⟩ := rfl
    simp only [this, List.length_append]
    omega

/-- **Every edge took a comparison.**  Merging can only make them fewer. -/
theorem length_edges_searchEdges_le (cs : List Candidate) :
    (searchEdges cs).edges.length ≤ (searchEdges cs).comparisons := by
  have hcopies := length_edges_confirmAll_le (shapeBuckets cs)
  have hlinked := length_edges_linkAll_le (maskedBuckets (representatives cs))
  have hpairs := List.length_filterMap_le (fun p : Candidate × Candidate => p.1.edge? p.2)
    (deletionPairs (representatives cs))
  refine (sublist_dropRepeats none _).length_le.trans ?_
  rw [length_sortList, List.length_append, List.length_append]
  exact Nat.add_le_add (Nat.add_le_add hcopies hlinked) hpairs

/-! ### Copies -/

/-- The edges from representatives to their copies, which are the ones counted as identical. -/
def copies (cs : List Candidate) : List Edge := (confirmAll (shapeBuckets cs)).edges

/-- In a bucket every member is joined to one representative at most. -/
theorem sublist_ends_confirmBucket (bucket : List Candidate) :
    ((confirmBucket bucket).edges.map Edge.b).Sublist (bucket.map Candidate.index) := by
  unfold confirmBucket
  induction bucket using List.reverseRecOn with
  | nil => exact .refl _
  | append_singleton bucket c ih =>
    rw [List.foldl_append, List.map_append]
    rcases Confirmed.add_cases (bucket.foldl Confirmed.add {}) c with
      ⟨r, _, _, _, hedges⟩ | ⟨_, _, hedges⟩
    · rw [List.foldl_cons, List.foldl_nil, hedges, List.map_append]
      exact ih.append_right [c.index]
    · rw [List.foldl_cons, List.foldl_nil, hedges]
      exact ih.trans (List.sublist_append_left _ _)

/-- Each function is confirmed as a copy at most once. -/
theorem sublist_ends_confirmAll (bs : List (List Candidate)) :
    ((confirmAll bs).edges.map Edge.b).Sublist (bs.flatten.map Candidate.index) := by
  induction bs with
  | nil => exact .refl _
  | cons b bs ih =>
    have : (confirmAll (b :: bs)).edges = (confirmBucket b).edges ++ (confirmAll bs).edges := rfl
    rw [this, List.map_append, List.flatten_cons, List.map_append]
    exact (sublist_ends_confirmBucket b).append ih

section

variable {cs : List Candidate}

/-- **Nobody is joined twice.**  A copy is joined to the representative of its bucket, and the
buckets are apart. -/
theorem nodup_copies (hascending : cs.Pairwise fun c d => c.index < d.index) :
    (copies cs).Nodup := by
  refine List.Nodup.of_map Edge.b ?_
  refine List.Nodup.sublist (sublist_ends_confirmAll (shapeBuckets cs)) ?_
  refine ((perm_flatten_buckets cs).map Candidate.index).nodup_iff.mpr ?_
  exact List.pairwise_map.mpr (hascending.imp Nat.ne_of_lt)

/-- Merging keeps the edges to copies: whatever else joins such a pair is the same edge. -/
theorem mem_searchEdges_of_mem_copies (hascending : cs.Pairwise fun c d => c.index < d.index)
    {e : Edge} (he : e ∈ copies cs) : e ∈ (searchEdges cs).edges := by
  obtain ⟨f, hf, hfa, hfb⟩ : ∃ f ∈ (searchEdges cs).edges, f.a = e.a ∧ f.b = e.b :=
    exists_mem_merge (List.mem_append_left _ (List.mem_append_left _ he))
  obtain ⟨c, hc, d, hd, hlt, -, hident, rfl⟩ := copy_of_mem_confirmAll hascending he
  obtain ⟨c', hc', d', hd', hlt', hedge⟩ := compared_of_mem_searchEdges hascending hf
  obtain ⟨-, rfl⟩ := (Candidate.edge?_eq_some_iff hlt').mp hedge
  obtain rfl := eq_of_index_eq hascending hc' hc hfa
  obtain rfl := eq_of_index_eq hascending hd' hd hfb
  obtain ⟨-, heq⟩ := (Candidate.edge?_eq_some_iff hlt).mp (hident.edge? hlt)
  exact heq ▸ hf

/-- **Counted copies.**  An edge without a changed line is counted if and only if it joins functions
with the same number of tokens. -/
theorem mem_copies_iff {n : Nat} (hlisted : Listed n cs)
    (hascending : cs.Pairwise fun c d => c.index < d.index) {e : Edge} :
    e ∈ copies cs ↔ e ∈ (searchEdges cs).edges ∧ e.changedLine = none ∧
      ∃ c ∈ cs, ∃ d ∈ cs, e.a = c.index ∧ e.b = d.index ∧
        c.form.declaration.tokenCount = d.form.declaration.tokenCount := by
  constructor
  · intro he
    refine ⟨mem_searchEdges_of_mem_copies hascending he, ?_⟩
    obtain ⟨c, hc, d, hd, -, hshape, -, rfl⟩ := copy_of_mem_confirmAll hascending he
    refine ⟨rfl, c, hc, d, hd, rfl, rfl, ?_⟩
    simp only [Candidate.sameShape, Bool.and_eq_true, decide_eq_true_eq] at hshape
    have htokens := congrArg Fingerprint.tokens hshape.1
    rwa [(hlisted.digested c hc).fingerprint_eq, (hlisted.digested d hd).fingerprint_eq] at htokens
  · rintro ⟨he, hnone, c, hc, d, hd, hca, hdb, hcount⟩
    rcases origin_of_mem_searchEdges hascending he with hcopy | ⟨r, hr, s, hs, hlt, hedge⟩
    · exact hcopy
    · -- Two representatives of one shape are not identical.
      obtain ⟨hsim, rfl⟩ := (Candidate.edge?_eq_some_iff hlt).mp hedge
      obtain rfl := eq_of_index_eq hascending (mem_of_mem_representatives hr) hc hca
      obtain rfl := eq_of_index_eq hascending (mem_of_mem_representatives hs) hd hdb
      have hident : r.Identical s := (Verdict.changedLine_eq_none_iff hsim).mp hnone
      obtain ⟨hsig, hkeys⟩ := Candidate.identical_iff.mp hident
      have hshape : r.sameShape s = true := by
        simp only [Candidate.sameShape, Bool.and_eq_true, decide_eq_true_eq]
        rw [(hlisted.digested r hc).fingerprint_eq, (hlisted.digested s hd).fingerprint_eq, hkeys,
          hcount]
        exact ⟨rfl, hsig⟩
      have := congrArg Candidate.index (eq_of_identical hr hs hshape hident)
      omega

end

/-! ### The tally of a detection -/

/-- An edge joins functions with the same number of tokens. -/
def Edge.SameCount (ds : List Declaration) (e : Edge) : Prop :=
  ds[e.a]?.map Declaration.tokenCount = ds[e.b]?.map Declaration.tokenCount

instance (ds : List Declaration) (e : Edge) : Decidable (e.SameCount ds) :=
  inferInstanceAs (Decidable (_ = _))

section

variable {options : Options} {ds : List Declaration}

/-- Whether the functions of an edge have equal token counts can be told from the candidates. -/
theorem Edge.sameCount_iff {e : Edge} {c d : Candidate} (hc : c ∈ candidates options ds)
    (hd : d ∈ candidates options ds) (hca : e.a = c.index) (hdb : e.b = d.index) :
    e.SameCount ds ↔ c.form.declaration.tokenCount = d.form.declaration.tokenCount := by
  obtain ⟨i, f, hf, -, rfl⟩ := mem_candidates.mp hc
  obtain ⟨j, g, hg, -, rfl⟩ := mem_candidates.mp hd
  have hfa : ds[e.a]? = some f := hca ▸ hf
  have hgb : ds[e.b]? = some g := hdb ▸ hg
  rw [SameCount, hfa, hgb]
  exact Option.some_inj

/-- The copies among the candidates are the edges of identical functions with equal token counts.
-/
theorem mem_copies_candidates_iff {e : Edge} :
    e ∈ copies (candidates options ds) ↔ e ∈ (Detection.of options ds).edges ∧
      e.changedLine = none ∧ e.SameCount ds := by
  have hascending := ascending_candidates options ds
  rw [mem_copies_iff (listed_candidates options ds) hascending]
  refine and_congr_right fun he => and_congr_right fun _ => ?_
  constructor
  · rintro ⟨c, hc, d, hd, hca, hdb, hcount⟩
    exact (Edge.sameCount_iff hc hd hca hdb).mpr hcount
  · intro hcount
    obtain ⟨c, hc, d, hd, hlt, hedge⟩ := compared_of_mem_searchEdges hascending he
    obtain ⟨-, rfl⟩ := (Candidate.edge?_eq_some_iff hlt).mp hedge
    exact ⟨c, hc, d, hd, rfl, rfl, (Edge.sameCount_iff hc hd rfl rfl).mp hcount⟩

/-- As many elements satisfy both conditions as the first one if and only if the first one implies
the other. -/
theorem countP_and_eq_countP_iff {α : Type} {p q : α → Bool} {as : List α} :
    (as.countP fun a => p a && q a) = as.countP p ↔ ∀ a ∈ as, p a = true → q a = true := by
  induction as with
  | nil => simp
  | cons a as ih =>
    have hle : (as.countP fun a => p a && q a) ≤ as.countP p :=
      List.countP_mono_left fun a _ h => (Bool.and_eq_true_iff.mp h).1
    by_cases hp : p a <;> by_cases hq : q a <;> simp [hp, hq, ih]
    omega

/-- **Counted pairs.**  The edges counted as identical are those without a changed line that join
functions with the same number of tokens. -/
theorem identicalEdges_eq_countP (options : Options) (ds : List Declaration) :
    (Detection.of options ds).tally.identicalEdges =
      (Detection.of options ds).edges.countP fun e => e.changedLine.isNone && e.SameCount ds := by
  have hnodup : (Detection.of options ds).edges.Nodup := by
    refine (Edge.pairwise_merge _).imp ?_
    rintro e f hlt rfl
    omega
  have hperm : (copies (candidates options ds)).Perm ((Detection.of options ds).edges.filter
      fun e => e.changedLine.isNone && e.SameCount ds) := by
    refine (List.perm_ext_iff_of_nodup (nodup_copies (ascending_candidates options ds))
      (hnodup.filter _)).mpr fun e => ?_
    rw [mem_copies_candidates_iff, List.mem_filter, Bool.and_eq_true, Option.isNone_iff_eq_none,
      decide_eq_true_eq]
  rw [List.countP_eq_length_filter, ← hperm.length_eq]
  rfl

/-- Lines with the same key have the same number of tokens, if alone they hold the tokens that they
hold in their sources. -/
theorem LogicalLine.tokenCount_eq_of_key_eq (hnames : options.rules.ignoreParamNames = false)
    {names names' : List Text} {line line' : LogicalLine} {source source' : Text}
    (h : line.LexedAlike source) (h' : line'.LexedAlike source')
    (hkey : (LineForm.of options.rules names line.text).key =
      (LineForm.of options.rules names' line'.text).key) : line.tokenCount = line'.tokenCount := by
  obtain ⟨ts, hts, hcount, -⟩ := h
  obtain ⟨us, hus, hcount', -⟩ := h'
  have htexts := lineTexts_eq_of_key_eq hnames hkey
  rw [lineTexts_of_ok hts, lineTexts_of_ok hus] at htexts
  have hlength := congrArg List.length (LineTexts.tokens.inj htexts)
  rwa [List.length_map, List.length_map, hcount, hcount'] at hlength

/-- Lines with the same keys, all of which are lexed as in the source, have the same number of
tokens in all. -/
theorem sum_tokenCount_eq_of_keys_eq (hnames : options.rules.ignoreParamNames = false)
    {names names' : List Text} {lines lines' : List LogicalLine} {source source' : Text}
    (h : ∀ line ∈ lines, line.LexedAlike source) (h' : ∀ line ∈ lines', line.LexedAlike source')
    (hkeys : lines.map (fun line => (LineForm.of options.rules names line.text).key) =
      lines'.map fun line => (LineForm.of options.rules names' line.text).key) :
    lines.foldr (fun line count => line.tokenCount + count) 0 =
      lines'.foldr (fun line count => line.tokenCount + count) 0 := by
  induction lines generalizing lines' with
  | nil => rw [List.map_eq_nil_iff.mp hkeys.symm]
  | cons line lines ih =>
    cases lines' with
    | nil => cases hkeys
    | cons line' lines' =>
      obtain ⟨hkey, hkeys⟩ := List.cons.inj hkeys
      obtain ⟨hline, hlines⟩ := List.forall_mem_cons.mp h
      obtain ⟨hline', hlines'⟩ := List.forall_mem_cons.mp h'
      rw [List.foldr_cons, List.foldr_cons, ih hlines hlines' hkeys,
        LogicalLine.tokenCount_eq_of_key_eq hnames hline hline' hkey]

/-- Identical functions whose lines, lexed alone, hold the tokens that they hold in their sources
have the same number of tokens, if parameters are compared by name. -/
theorem tokenCount_eq_of_lexedAlike (hnames : options.rules.ignoreParamNames = false)
    {source source' : Text} {f g : Declaration} (hf : ∀ line ∈ f.lines, line.LexedAlike source)
    (hg : ∀ line ∈ g.lines, line.LexedAlike source')
    (hident : f.compare options.rules g = .identical) : f.tokenCount = g.tokenCount := by
  have hkeys := ((compare_eq_identical_iff _ _).mp hident).2
  simp only [FunctionForm.keys, FunctionForm.of, List.map_map] at hkeys
  exact sum_tokenCount_eq_of_keys_eq hnames hf hg hkeys

/-- **The tally and the result.**  The identical edges counted are those without a changed line that
join functions with the same number of tokens; so they are all of them if and only if no other
edge lacks a changed line.  That is the case if parameters are compared by name and the lines of
every function, lexed alone, hold the tokens that they hold in its source.  The near duplicates
counted are the edges with a changed line, the groups counted are those with more than one member,
and there are at least as many comparisons as edges. -/
theorem tally_of_detection (options : Options) (ds : List Declaration) :
    (Detection.of options ds).tally.identicalEdges =
      ((Detection.of options ds).edges.countP fun e => e.changedLine.isNone && e.SameCount ds) ∧
    ((Detection.of options ds).tally.identicalEdges =
        ((Detection.of options ds).edges.countP fun e => e.changedLine.isNone) ↔
      ∀ e ∈ (Detection.of options ds).edges, e.changedLine = none → e.SameCount ds) ∧
    (options.rules.ignoreParamNames = false →
      (∀ d ∈ ds, ∃ source, ∀ line ∈ d.lines, line.LexedAlike source) →
      (Detection.of options ds).tally.identicalEdges =
        (Detection.of options ds).edges.countP fun e => e.changedLine.isNone) ∧
    (Detection.of options ds).tally.nearDuplicateEdges =
      ((Detection.of options ds).edges.countP fun e => e.changedLine.isSome) ∧
    ((Detection.of options ds).edges.countP fun e => e.changedLine.isNone) +
      (Detection.of options ds).tally.nearDuplicateEdges = (Detection.of options ds).edges.length ∧
    (Detection.of options ds).tally.groups =
      ((Detection.of options ds).groups.countP fun g => 1 < g.members.length) ∧
    (Detection.of options ds).edges.length ≤ (Detection.of options ds).tally.comparisons := by
  have hcounted := identicalEdges_eq_countP options ds
  have hiff : (Detection.of options ds).tally.identicalEdges =
      ((Detection.of options ds).edges.countP fun e => e.changedLine.isNone) ↔
      ∀ e ∈ (Detection.of options ds).edges, e.changedLine = none → e.SameCount ds := by
    rw [hcounted, countP_and_eq_countP_iff]
    simp only [Option.isNone_iff_eq_none, decide_eq_true_eq]
  refine ⟨hcounted, hiff, ?alike, rfl, ?sum, ?groups, length_edges_searchEdges_le _⟩
  case alike =>
    intro hnames halike
    refine hiff.mpr fun e he hnone => ?_
    obtain ⟨c, hc, d, hd, hlt, hedge⟩ :=
      compared_of_mem_searchEdges (ascending_candidates options ds) he
    obtain ⟨hsim, rfl⟩ := (Candidate.edge?_eq_some_iff hlt).mp hedge
    have hident : c.Identical d := (Verdict.changedLine_eq_none_iff hsim).mp hnone
    refine (Edge.sameCount_iff hc hd rfl rfl).mpr ?_
    obtain ⟨i, f, hf, -, rfl⟩ := mem_candidates.mp hc
    obtain ⟨j, g, hg, -, rfl⟩ := mem_candidates.mp hd
    obtain ⟨_, hfs⟩ := halike f (List.mem_of_getElem? hf)
    obtain ⟨_, hgs⟩ := halike g (List.mem_of_getElem? hg)
    exact tokenCount_eq_of_lexedAlike hnames hfs hgs hident
  case sum =>
    rw [List.length_eq_countP_add_countP fun e : Edge => e.changedLine.isNone]
    refine congrArg (_ + ·) (List.countP_congr fun e _ => ?_)
    simp [Option.isSome_iff_ne_none]
  case groups =>
    refine List.countP_congr fun g _ => ?_
    simp [Group.isSingleton, Group.members, List.length_pos_iff]

end

/-- **Uncounted copies.**  The parameters of two functions do not count.  Behind `of` a slash begins
a regular expression, and behind `x` it divides: the functions have four tokens and six, and one
spelling.  Their edge has no changed line, and no identical edge is counted. -/
theorem uncounted_copies : ¬∀ (source : Text) (options : Options) (d : Detection),
    detect source options = .ok d →
      d.tally.identicalEdges = d.edges.countP fun e => e.changedLine.isNone := by
  intro hall
  have huncounted : ∃ d, detect ("function f(of)\x7breturn of / 1 / 2\x7d\n" ++
        "function g(x)\x7breturn x / 1 / 2\x7d").toList
          { rules := { ignoreParamNames := true } } = .ok d ∧
      d.edges = [⟨0, 1, none⟩] ∧ d.tally.identicalEdges = 0 := by
    refine ⟨Detection.of { rules := { ignoreParamNames := true } }
      (extract ("function f(of)\x7breturn of / 1 / 2\x7d\n" ++
        "function g(x)\x7breturn x / 1 / 2\x7d").toList {}).declarations, ?_⟩
    decide +kernel
  obtain ⟨d, hd, hedges, hzero⟩ := huncounted
  have hcount := hall _ _ d hd
  rw [hedges, hzero] at hcount
  cases hcount

end Twinfold
