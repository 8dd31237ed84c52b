import Mathlib.Data.List.Induction
import Mathlib.Data.List.Pairwise
import Twinfold.Detection.Buckets
import Twinfold.Proofs.Grouping.Components
import Twinfold.Proofs.Similarity.Alignment

/-!
# What buckets hold and what they yield

`buckets` sorts elements by an equivalence; each bucket is one class (`isBuckets_buckets`).

From a shape bucket come representatives, no two of them identical, and every member is a
representative or joined to an identical one (`covers_confirmBucket`).  From a masked
bucket come edges that connect members that no hub tells apart (`connected_of_linkBucket`): a hub
takes away both of them or leaves both.
-/

namespace Twinfold

/-! ### Sorting into buckets -/

section

variable {α : Type} {same : α → α → Bool}

/-- The buckets are the classes of the elements under `same`. -/
structure IsBuckets (same : α → α → Bool) (as : List α) (bs : List (List α)) : Prop where
  mem_iff : ∀ a, (∃ b ∈ bs, a ∈ b) ↔ a ∈ as
  ne_nil : ∀ b ∈ bs, b ≠ []
  same_of_mem : ∀ b ∈ bs, ∀ x ∈ b, ∀ y ∈ b, same x y = true
  apart : bs.Pairwise fun b c => ∀ x ∈ b, ∀ y ∈ c, same x y = false

/-- The order of the buckets does not matter. -/
theorem IsBuckets.perm (hsymm : ∀ a b, same a b = same b a) {as : List α} {bs cs : List (List α)}
    (h : IsBuckets same as bs) (hperm : bs.Perm cs) : IsBuckets same as cs := by
  refine ⟨?_, ?_, ?_, ?_⟩
  · intro a
    simp only [← hperm.mem_iff]
    exact h.mem_iff a
  · exact fun b hb => h.ne_nil b (hperm.mem_iff.mpr hb)
  · exact fun b hb => h.same_of_mem b (hperm.mem_iff.mpr hb)
  · refine (hperm.pairwise_iff ?_).mp h.apart
    intro b c hbc x hx y hy
    rw [hsymm]
    exact hbc y hy x hx

/-- An element goes in front of a bucket of its own class, or into a new bucket.  The bucket may
stand anywhere in the list, so this is said up to the order of the buckets. -/
theorem putInBucket_cases (a : α) (bs : List (List α)) (hne : ∀ b ∈ bs, b ≠ []) :
    (∃ b rest, bs.Perm (b :: rest) ∧ (∃ x ∈ b, same a x = true) ∧
      (putInBucket same a bs).Perm ((a :: b) :: rest)) ∨
    ((∀ b ∈ bs, ∃ x ∈ b, same a x = false) ∧ (putInBucket same a bs).Perm ([a] :: bs)) := by
  induction bs with
  | nil => exact .inr ⟨by simp, .refl _⟩
  | cons b bs ih =>
    cases b with
    | nil => exact absurd rfl (hne [] List.mem_cons_self)
    | cons x xs =>
      by_cases hax : same a x
      · exact .inl ⟨x :: xs, bs, .refl _, ⟨x, by simp, hax⟩, by simp [putInBucket, hax]⟩
      · have hput : putInBucket same a ((x :: xs) :: bs) =
            (x :: xs) :: putInBucket same a bs := by simp [putInBucket, hax]
        rw [hput]
        rcases ih fun b hb => hne b (List.mem_cons_of_mem _ hb) with
          ⟨b, rest, hbs, hb, hperm⟩ | ⟨hnone, hperm⟩
        · exact .inl ⟨b, (x :: xs) :: rest, (hbs.cons _).trans (.swap _ _ _), hb,
            (hperm.cons _).trans (.swap _ _ _)⟩
        · refine .inr ⟨?_, (hperm.cons _).trans (.swap _ _ _)⟩
          intro c hc
          rcases List.mem_cons.mp hc with rfl | hc
          · exact ⟨x, by simp, by simpa using hax⟩
          · exact hnone c hc

/-- Buckets stay classes when an element joins the bucket of its own class.  The other buckets are
left alone, and the new element is alike with one of its bucket, hence with all. -/
theorem IsBuckets.join (hequiv : Equivalence fun a b => same a b = true) {a x : α}
    {as b : List α} {rest : List (List α)} (h : IsBuckets same as (b :: rest)) (hx : x ∈ b)
    (hax : same a x = true) : IsBuckets same (a :: as) ((a :: b) :: rest) := by
  obtain ⟨hb, hrest⟩ := List.pairwise_cons.mp h.apart
  have hclass : ∀ y ∈ a :: b, same a y = true :=
    List.forall_mem_cons.mpr ⟨hequiv.refl a, fun y hy =>
      hequiv.trans hax (h.same_of_mem b List.mem_cons_self x hx y hy)⟩
  refine ⟨?mem_iff, ?ne_nil, ?same_of_mem, ?apart⟩
  case mem_iff =>
    intro c
    have := h.mem_iff c
    simp only [List.mem_cons, exists_eq_or_imp] at this ⊢
    rw [← this, or_assoc]
  case ne_nil =>
    exact List.forall_mem_cons.mpr
      ⟨List.cons_ne_nil _ _, fun c hc => h.ne_nil c (List.mem_cons_of_mem _ hc)⟩
  case same_of_mem =>
    refine List.forall_mem_cons.mpr
      ⟨fun y hy z hz => ?_, fun c hc => h.same_of_mem c (List.mem_cons_of_mem _ hc)⟩
    exact hequiv.trans (hequiv.symm (hclass y hy)) (hclass z hz)
  case apart =>
    refine List.pairwise_cons.mpr
      ⟨fun c hc => List.forall_mem_cons.mpr ⟨fun z hz => ?_, hb c hc⟩, hrest⟩
    -- The element is as far from the other buckets as its fellow is.
    by_contra haz
    have hxz := hb c hc x hx z hz
    rw [hequiv.trans (hequiv.symm hax) (by simpa using haz)] at hxz
    cases hxz

/-- Buckets stay classes when an element of no class there is gets a bucket of its own.  It is
alike to none of the elements, so the new bucket is its whole class. -/
theorem IsBuckets.own (hequiv : Equivalence fun a b => same a b = true) {a : α} {as : List α}
    {bs : List (List α)} (h : IsBuckets same as bs) (hnone : ∀ b ∈ bs, ∃ x ∈ b, same a x = false) :
    IsBuckets same (a :: as) ([a] :: bs) := by
  refine ⟨?mem_iff, ?ne_nil, ?same_of_mem, ?apart⟩
  case mem_iff =>
    intro c
    have := h.mem_iff c
    simp only [List.mem_cons, exists_eq_or_imp] at this ⊢
    simp [this]
  case ne_nil => exact List.forall_mem_cons.mpr ⟨List.cons_ne_nil _ _, h.ne_nil⟩
  case same_of_mem =>
    refine List.forall_mem_cons.mpr ⟨fun y hy z hz => ?_, h.same_of_mem⟩
    rw [List.mem_singleton.mp hy, List.mem_singleton.mp hz]
    exact hequiv.refl a
  case apart =>
    refine List.pairwise_cons.mpr ⟨fun c hc y hy z hz => ?_, h.apart⟩
    obtain rfl := List.mem_singleton.mp hy
    obtain ⟨x, hx, hyx⟩ := hnone c hc
    by_contra hyz
    rw [hequiv.trans (by simpa using hyz) (h.same_of_mem c hc z hz x hx)] at hyx
    cases hyx

/-- Adding an element to buckets keeps them classes. -/
theorem IsBuckets.putInBucket (hequiv : Equivalence fun a b => same a b = true) (a : α)
    {as : List α} {bs : List (List α)} (h : IsBuckets same as bs) :
    IsBuckets same (a :: as) (putInBucket same a bs) := by
  have hsymm : ∀ a b, same a b = same b a := fun a b =>
    Bool.eq_iff_iff.mpr ⟨hequiv.symm, hequiv.symm⟩
  rcases @putInBucket_cases α same a bs h.ne_nil with
    ⟨b, rest, hbs, ⟨x, hx, hax⟩, hperm⟩ | ⟨hnone, hperm⟩
  · exact ((h.perm hsymm hbs).join hequiv hx hax).perm hsymm hperm.symm
  · exact (h.own hequiv hnone).perm hsymm hperm.symm

/-- **Buckets are classes.**  Every element is put into the first bucket whose first element is
like it, or into one of its own. -/
theorem isBuckets_buckets (hequiv : Equivalence fun a b => same a b = true) (as : List α) :
    IsBuckets same as (buckets same as) := by
  induction as with
  | nil => exact ⟨by simp [buckets], by simp [buckets], by simp [buckets], by simp [buckets]⟩
  | cons a as ih => exact ih.putInBucket hequiv a

/-- Buckets that hold elements of one class are one bucket. -/
theorem IsBuckets.eq_of_same (hequiv : Equivalence fun a b => same a b = true) {as : List α}
    {bs : List (List α)} (h : IsBuckets same as bs) {b c : List α} (hb : b ∈ bs) (hc : c ∈ bs)
    {x y : α} (hx : x ∈ b) (hy : y ∈ c) (hxy : same x y = true) : b = c := by
  by_contra hne
  have : Std.Symm fun b c : List α => ∀ x ∈ b, ∀ y ∈ c, same x y = false := by
    constructor
    intro b c hbc x hx y hy
    rw [Bool.eq_iff_iff.mpr ⟨hequiv.symm, hequiv.symm⟩]
    exact hbc y hy x hx
  have hfar := h.apart.forall hb hc hne x hx y hy
  rw [hxy] at hfar
  cases hfar

/-- The elements of a bucket keep their order when a further element is put in front of all.  It
becomes the first one in its bucket, as it is the first of all. -/
theorem sublist_of_mem_putInBucket {a : α} {as : List α} {bs : List (List α)}
    (hsub : ∀ b ∈ bs, b.Sublist as) {b : List α} (hb : b ∈ putInBucket same a bs) :
    b.Sublist (a :: as) := by
  induction bs with
  | nil =>
    rw [putInBucket, List.mem_singleton] at hb
    simp [hb]
  | cons c bs ih =>
    have hrest := ih fun b hb => hsub b (List.mem_cons_of_mem _ hb)
    cases c with
    | nil => exact hrest hb
    | cons x xs =>
      unfold putInBucket at hb
      split at hb
      · rcases List.mem_cons.mp hb with rfl | hb
        · exact (hsub (x :: xs) List.mem_cons_self).cons_cons a
        · exact (hsub b (List.mem_cons_of_mem _ hb)).cons a
      · rcases List.mem_cons.mp hb with rfl | hb
        · exact (hsub (x :: xs) List.mem_cons_self).cons a
        · exact hrest hb

/-- In a bucket elements keep their order. -/
theorem sublist_of_mem_buckets {as b : List α} (hb : b ∈ buckets same as) : b.Sublist as := by
  induction as generalizing b with
  | nil => cases hb
  | cons a as ih => exact sublist_of_mem_putInBucket (fun _ hc => ih hc) hb

/-- Nothing is lost and nothing is added when an element is put into its bucket. -/
theorem perm_flatten_putInBucket (a : α) (bs : List (List α)) :
    (putInBucket same a bs).flatten.Perm (a :: bs.flatten) := by
  induction bs with
  | nil => exact .refl _
  | cons c bs ih =>
    cases c with
    | nil => exact ih
    | cons x xs =>
      unfold putInBucket
      split
      · exact .refl _
      · exact (ih.append_left (x :: xs)).trans List.perm_middle

/-- The buckets hold every element as often as it comes. -/
theorem perm_flatten_buckets (as : List α) : (buckets same as).flatten.Perm as := by
  induction as with
  | nil => exact .refl _
  | cons a as ih => exact (perm_flatten_putInBucket a _).trans (ih.cons a)

/-- Elements of one class are in one bucket. -/
theorem IsBuckets.exists_common (hequiv : Equivalence fun a b => same a b = true) {as : List α}
    {bs : List (List α)} (h : IsBuckets same as bs) {a b : α} (ha : a ∈ as) (hb : b ∈ as)
    (hab : same a b = true) : ∃ c ∈ bs, a ∈ c ∧ b ∈ c := by
  obtain ⟨c, hc, hac⟩ := (h.mem_iff a).mpr ha
  obtain ⟨d, hd, hbd⟩ := (h.mem_iff b).mpr hb
  exact ⟨c, hc, hac, h.eq_of_same hequiv hc hd hac hbd hab ▸ hbd⟩

end

/-! ### What a shape bucket yields -/

/-- Two candidates for which comparison finds the same signature and the same lines. -/
def Candidate.Identical (c d : Candidate) : Prop := c.form.compare d.form = .identical

theorem Candidate.identical_iff {c d : Candidate} :
    c.Identical d ↔ c.form.signature = d.form.signature ∧ c.form.keys = d.form.keys :=
  compare_eq_identical_iff c.form d.form

/-- What is known of the findings in a list of candidates. -/
structure Confirmed.Covers (found : Confirmed) (cs : List Candidate) : Prop where
  /-- Representatives are candidates. -/
  rep_mem : ∀ r ∈ found.representatives, r ∈ cs
  /-- Every candidate is a representative, or joined to one that is identical to it. -/
  reaches : ∀ c ∈ cs, ∃ r ∈ found.representatives, r.Identical c ∧
    (r = c ∨ (⟨r.index, c.index, none⟩ : Edge) ∈ found.edges)
  /-- Edges lead from candidates to later ones that are identical. -/
  edge_sound : ∀ e ∈ found.edges, ∃ r c, [r, c].Sublist cs ∧ r.Identical c ∧
    e = ⟨r.index, c.index, none⟩

/-- Adding a candidate to the findings.  The first identical representative counts, and the search
for it is counted as comparisons. -/
theorem Confirmed.add_cases (found : Confirmed) (c : Candidate) :
    (∃ r ∈ found.representatives, r.Identical c ∧ (found.add c).representatives =
        found.representatives ∧
      (found.add c).edges = found.edges ++ [⟨r.index, c.index, none⟩]) ∨
    ((∀ r ∈ found.representatives, ¬r.Identical c) ∧
      (found.add c).representatives = found.representatives ++ [c] ∧
      (found.add c).edges = found.edges) := by
  unfold Confirmed.add
  dsimp only
  split
  · rename_i r hr
    refine .inl ⟨r, List.mem_of_getElem? hr, ?_, rfl, rfl⟩
    obtain ⟨hlt, hr⟩ := List.getElem?_eq_some_iff.mp hr
    have hfound := List.findIdx_getElem (w := hlt)
    rw [hr] at hfound
    simpa [Candidate.Identical] using hfound
  · rename_i hnone
    refine .inr ⟨?_, rfl, rfl⟩
    intro r hr hsame
    have hlt : found.representatives.findIdx (fun r => r.form.compare c.form = .identical) <
        found.representatives.length :=
      List.findIdx_lt_length_of_exists ⟨r, hr, by simpa [Candidate.Identical] using hsame⟩
    rw [List.getElem?_eq_none_iff] at hnone
    omega

/-- **One more candidate.**  What was found among some candidates covers them, and with the next
candidate it covers that one too.  If the candidate is identical to a representative, the edge to
that one is recorded and the representatives stay; otherwise nothing is recorded, and the candidate
becomes a representative itself. -/
theorem Confirmed.Covers.add {found : Confirmed} {cs : List Candidate}
    (h : found.Covers cs) (c : Candidate) : (found.add c).Covers (cs ++ [c]) := by
  rcases found.add_cases c with ⟨r, hr, hrc, hreps, hedges⟩ | ⟨_, hreps, hedges⟩
  · refine ⟨?_, ?_, ?_⟩
    · intro s hs
      rw [hreps] at hs
      exact List.mem_append_left _ (h.rep_mem s hs)
    · intro d hd
      rw [hreps, hedges]
      rcases List.mem_append.mp hd with hd | hd
      · obtain ⟨s, hs, hsd, hjoin⟩ := h.reaches d hd
        exact ⟨s, hs, hsd, hjoin.imp_right (List.mem_append_left _)⟩
      · obtain rfl : d = c := by simpa using hd
        exact ⟨r, hr, hrc, .inr (by simp)⟩
    · intro e he
      rw [hedges] at he
      rcases List.mem_append.mp he with he | he
      · obtain ⟨s, d, hsub, hsd, rfl⟩ := h.edge_sound e he
        exact ⟨s, d, hsub.trans (List.sublist_append_left _ _), hsd, rfl⟩
      · have hsub := (List.singleton_sublist.mpr (h.rep_mem r hr)).append_right [c]
        exact ⟨r, c, hsub, hrc, by simpa using he⟩
  · refine ⟨?_, ?_, ?_⟩
    · intro s hs
      rw [hreps] at hs
      rcases List.mem_append.mp hs with hs | hs
      · exact List.mem_append_left _ (h.rep_mem s hs)
      · exact List.mem_append_right _ hs
    · intro d hd
      rw [hreps, hedges]
      rcases List.mem_append.mp hd with hd | hd
      · obtain ⟨s, hs, hsd, hjoin⟩ := h.reaches d hd
        exact ⟨s, List.mem_append_left _ hs, hsd, hjoin⟩
      · obtain rfl : d = c := by simpa using hd
        exact ⟨d, by simp, Candidate.identical_iff.mpr ⟨rfl, rfl⟩, .inl rfl⟩
    · intro e he
      rw [hedges] at he
      obtain ⟨s, d, hsub, hsd, rfl⟩ := h.edge_sound e he
      exact ⟨s, d, hsub.trans (List.sublist_append_left _ _), hsd, rfl⟩

/-- **Representatives.**  Every member of a shape bucket has one that is identical to it.
Candidates are compared for that, and hashes are not trusted. -/
theorem covers_confirmBucket (bucket : List Candidate) :
    (confirmBucket bucket).Covers bucket := by
  unfold confirmBucket
  induction bucket using List.reverseRecOn with
  | nil => exact ⟨by simp, by simp, by simp⟩
  | append_singleton bucket c ih =>
    rw [List.foldl_append]
    exact ih.add c

/-- No two representatives of a bucket are identical. -/
theorem pairwise_confirmBucket (bucket : List Candidate) :
    (confirmBucket bucket).representatives.Pairwise fun r s => ¬r.Identical s := by
  unfold confirmBucket
  induction bucket using List.reverseRecOn with
  | nil => simp
  | append_singleton bucket c ih =>
    rw [List.foldl_append]
    rcases Confirmed.add_cases (bucket.foldl Confirmed.add {}) c with
      ⟨_, _, _, hreps, _⟩ | ⟨hnew, hreps, _⟩
    · exact hreps ▸ ih
    · refine hreps ▸ List.pairwise_append.mpr ⟨ih, by simp, ?_⟩
      intro r hr s hs
      obtain rfl : s = c := by simpa using hs
      exact hnew r hr

theorem confirmAll_cons (b : List Candidate) (bs : List (List Candidate)) :
    confirmAll (b :: bs) = (confirmBucket b).append (confirmAll bs) := rfl

/-- The representatives of all buckets are those of each. -/
theorem mem_representatives_confirmAll {bs : List (List Candidate)} {r : Candidate} :
    r ∈ (confirmAll bs).representatives ↔ ∃ b ∈ bs, r ∈ (confirmBucket b).representatives := by
  induction bs with
  | nil => simp [confirmAll]
  | cons b bs ih =>
    rw [confirmAll_cons]
    simp [Confirmed.append, ih]

/-- The representatives of a bucket are candidates of it, in their order. -/
theorem sublist_representatives_confirmBucket (bucket : List Candidate) :
    (confirmBucket bucket).representatives.Sublist bucket := by
  unfold confirmBucket
  induction bucket using List.reverseRecOn with
  | nil => exact .refl _
  | append_singleton bucket c ih =>
    rw [List.foldl_append]
    rcases Confirmed.add_cases (bucket.foldl Confirmed.add {}) c with
      ⟨_, _, _, hreps, _⟩ | ⟨_, hreps, _⟩
    · exact hreps ▸ ih.trans (List.sublist_append_left _ _)
    · exact hreps ▸ ih.append_right [c]

/-- Of every bucket the representatives stay, in their order. -/
theorem sublist_representatives_confirmAll (bs : List (List Candidate)) :
    (confirmAll bs).representatives.Sublist bs.flatten := by
  induction bs with
  | nil => exact .refl _
  | cons b bs ih => exact (sublist_representatives_confirmBucket b).append ih

/-- What is confirmed in all buckets was confirmed in one of them. -/
theorem mem_edges_confirmAll {bs : List (List Candidate)} {e : Edge} :
    e ∈ (confirmAll bs).edges ↔ ∃ b ∈ bs, e ∈ (confirmBucket b).edges := by
  induction bs with
  | nil => simp [confirmAll]
  | cons b bs ih =>
    rw [confirmAll_cons]
    simp [Confirmed.append, ih]

/-! ### What a masked bucket yields -/

/-- Two candidates of which comparison says that they are similar. -/
def Candidate.Similar (c d : Candidate) : Prop := (c.form.compare d.form).isSimilar = true

theorem Candidate.similar_iff {c d : Candidate} :
    c.Similar d ↔ c.form.signature = d.form.signature ∧ OneLineApart c.form.keys d.form.keys :=
  isSimilar_compare_iff c.form d.form

theorem Candidate.Identical.similar {c d : Candidate} (h : c.Identical d) : c.Similar d := by
  obtain ⟨hsig, hkeys⟩ := identical_iff.mp h
  exact similar_iff.mpr ⟨hsig, .inl hkeys⟩

theorem Candidate.Similar.symm {c d : Candidate} (h : c.Similar d) : d.Similar c := by
  obtain ⟨hsig, hkeys⟩ := similar_iff.mp h
  exact similar_iff.mpr ⟨hsig.symm, hkeys.symm⟩

/-- Nobody tells identical candidates apart. -/
theorem Candidate.Identical.similar_congr {hub c d : Candidate} (h : c.Identical d) :
    hub.Similar c ↔ hub.Similar d := by
  obtain ⟨hsig, hkeys⟩ := identical_iff.mp h
  rw [similar_iff, similar_iff, hsig, hkeys]

/-- Comparing two candidates gives an edge if and only if they are similar. -/
theorem Candidate.exists_edge?_iff {c d : Candidate} :
    (∃ e, c.edge? d = some e) ↔ c.Similar d := by
  unfold Candidate.Similar edge?
  by_cases h : (c.form.compare d.form).isSimilar <;> simp [h]

/-- The edge found by comparing two candidates goes from the earlier to the later one. -/
theorem Candidate.ends_of_edge? {c d : Candidate} {e : Edge} (h : c.edge? d = some e) :
    e.a = min c.index d.index ∧ e.b = max c.index d.index := by
  simp only [edge?] at h
  split at h
  · cases h
    exact ⟨rfl, rfl⟩
  · cases h

/-- The edge from a candidate to a later one. -/
theorem Candidate.edge?_eq_some_iff {c d : Candidate} (hlt : c.index < d.index) {e : Edge} :
    c.edge? d = some e ↔
      c.Similar d ∧ e = ⟨c.index, d.index, (c.form.compare d.form).changedLine⟩ := by
  unfold Candidate.Similar edge?
  by_cases h : (c.form.compare d.form).isSimilar <;>
    simp [h, Nat.min_eq_left hlt.le, Nat.max_eq_right hlt.le, eq_comm]

/-- The edge from a candidate to a later one that is identical to it. -/
theorem Candidate.Identical.edge? {c d : Candidate} (h : c.Identical d)
    (hlt : c.index < d.index) : c.edge? d = some ⟨c.index, d.index, none⟩ := by
  refine (edge?_eq_some_iff hlt).mpr ⟨h.similar, ?_⟩
  rw [show c.form.compare d.form = .identical from h]
  rfl

/-- The edge found by comparing two candidates connects them. -/
theorem Candidate.connected_of_edge? {n : Nat} {edges : List Edge} {c d : Candidate} {e : Edge}
    (hc : c.index < n) (hd : d.index < n) (h : c.edge? d = some e)
    (hmem : ∃ f ∈ edges, f.a = e.a ∧ f.b = e.b) : Connected (Joined n edges) c.index d.index := by
  obtain ⟨ha, hb⟩ := ends_of_edge? h
  obtain ⟨f, hf, hfa, hfb⟩ := hmem
  rw [ha] at hfa
  rw [hb] at hfb
  rcases le_total c.index d.index with hle | hle
  · rw [min_eq_left hle] at hfa
    rw [max_eq_right hle] at hfb
    exact .rel _ _ ⟨hc, hd, f, hf, hfa, hfb⟩
  · rw [min_eq_right hle] at hfa
    rw [max_eq_left hle] at hfb
    exact .symm _ _ (.rel _ _ ⟨hd, hc, f, hf, hfa, hfb⟩)

/-- Edges from a masked bucket come from comparisons of members with later ones. -/
theorem exists_of_mem_linkBucket {bucket : List Candidate} {e : Edge}
    (he : e ∈ (linkBucket bucket).edges) :
    ∃ c d, [c, d].Sublist bucket ∧ c.edge? d = some e := by
  induction bucket using linkBucket.induct with
  | case1 => simp [linkBucket] at he
  | case2 hub rest ih =>
    rw [linkBucket] at he
    rcases List.mem_append.mp he with he | he
    · obtain ⟨c, hc, hce⟩ := List.mem_filterMap.mp he
      exact ⟨hub, c, (List.singleton_sublist.mpr hc).cons_cons hub, hce⟩
    · obtain ⟨c, d, hsub, hcd⟩ := ih he
      exact ⟨c, d, (hsub.trans List.filter_sublist).cons hub, hcd⟩

/-- **Hubs.**  Members that are alike are connected by the edges of a bucket, if being alike is
enough to be similar and a hub that is similar to one of them is similar to the other: then a hub is
joined to both, or leaves both to the next hubs. -/
theorem connected_of_linkBucket {n : Nat} {edges : List Edge}
    {alike : Candidate → Candidate → Prop} (bucket : List Candidate)
    (hindex : ∀ c ∈ bucket, c.index < n)
    (hsimilar : ∀ c ∈ bucket, ∀ d ∈ bucket, alike c d → c.Similar d)
    (hcongr : ∀ hub ∈ bucket, ∀ c ∈ bucket, ∀ d ∈ bucket, alike c d →
      (hub.Similar c ↔ hub.Similar d))
    (hkept : ∀ e ∈ (linkBucket bucket).edges, ∃ f ∈ edges, f.a = e.a ∧ f.b = e.b) :
    ∀ c ∈ bucket, ∀ d ∈ bucket, alike c d → Connected (Joined n edges) c.index d.index := by
  induction bucket using linkBucket.induct with
  | case1 => simp
  | case2 hub rest ih =>
    rw [linkBucket] at hkept
    have hedge : ∀ c ∈ rest, hub.Similar c → Connected (Joined n edges) hub.index c.index := by
      intro c hc hsim
      have hsome : hub.edge? c = some ⟨min hub.index c.index, max hub.index c.index,
          (hub.form.compare c.form).changedLine⟩ := if_pos hsim
      exact Candidate.connected_of_edge? (hindex hub (by simp)) (hindex c (by simp [hc])) hsome
        (hkept _ (List.mem_append_left _ (List.mem_filterMap.mpr ⟨c, hc, hsome⟩)))
    have hrest : ∀ {c}, c ∈ hub.unlike rest → c ∈ hub :: rest := fun hc =>
      List.mem_cons_of_mem _ (List.mem_filter.mp hc).1
    have hunlike : ∀ c ∈ rest, ¬hub.Similar c → c ∈ hub.unlike rest := by
      intro c hc hsim
      refine List.mem_filter.mpr ⟨hc, ?_⟩
      have : hub.edge? c = none := if_neg hsim
      simp [this]
    have ih := ih (fun c hc => hindex c (hrest hc))
      (fun c hc d hd => hsimilar c (hrest hc) d (hrest hd))
      (fun c hc d hd e he => hcongr c (hrest hc) d (hrest hd) e (hrest he))
      (fun e he => hkept e (List.mem_append_right _ he))
    intro c hc d hd halike
    rcases List.mem_cons.mp hc with rfl | hcr
    · rcases List.mem_cons.mp hd with rfl | hdr
      · exact .refl _
      · exact hedge d hdr (hsimilar c hc d hd halike)
    · rcases List.mem_cons.mp hd with rfl | hdr
      · exact .symm _ _ (hedge c hcr (hsimilar c hc d hd halike).symm)
      · have hiff := hcongr hub List.mem_cons_self c hc d hd halike
        by_cases hhub : hub.Similar c
        · exact .trans _ _ _ (.symm _ _ (hedge c hcr hhub)) (hedge d hdr (hiff.mp hhub))
        · exact ih c (hunlike c hcr hhub) d (hunlike d hdr (mt hiff.mpr hhub)) halike

/-- What is linked in all buckets was linked in one of them. -/
theorem mem_edges_linkAll {bs : List (List Candidate)} {e : Edge} :
    e ∈ (linkAll bs).edges ↔ ∃ b ∈ bs, e ∈ (linkBucket b).edges := by
  induction bs with
  | nil => simp [linkAll]
  | cons b bs ih =>
    have : (linkAll (b :: bs)).edges = (linkBucket b).edges ++ (linkAll bs).edges := rfl
    simp [this, ih]

/-! ### Deletion pairs -/

/-- A pair of candidates of which one hashes like the other with a line deleted is found. -/
theorem exists_mem_deletionPairs {cs : List Candidate} {c d : Candidate} (hc : c ∈ cs)
    (hd : d ∈ cs) (hne : c ≠ d) (h : c.deletionOf d ∨ d.deletionOf c) :
    (c, d) ∈ deletionPairs cs ∨ (d, c) ∈ deletionPairs cs := by
  induction cs with
  | nil => cases hc
  | cons b cs ih =>
    simp only [deletionPairs, List.mem_append, List.mem_map, List.mem_filter]
    rcases List.mem_cons.mp hc with rfl | hcs
    · rcases List.mem_cons.mp hd with rfl | hds
      · exact absurd rfl hne
      · exact .inl (.inl ⟨d, ⟨hds, by simpa using h⟩, rfl⟩)
    · rcases List.mem_cons.mp hd with rfl | hds
      · exact .inr (.inl ⟨c, ⟨hcs, by simpa using h.symm⟩, rfl⟩)
      · exact (ih hcs hds).imp .inr .inr

/-- Deletion pairs are pairs of a candidate and a later one. -/
theorem sublist_of_mem_deletionPairs {cs : List Candidate} {p : Candidate × Candidate}
    (h : p ∈ deletionPairs cs) : [p.1, p.2].Sublist cs := by
  induction cs with
  | nil => cases h
  | cons b cs ih =>
    simp only [deletionPairs, List.mem_append, List.mem_map, List.mem_filter] at h
    rcases h with ⟨d, ⟨hd, _⟩, rfl⟩ | h
    · exact (List.singleton_sublist.mpr hd).cons_cons b
    · exact (ih h).cons b

end Twinfold
