import Twinfold.Proofs.Coalesce.Accounts
import Twinfold.Proofs.Coalesce.Changes
import Twinfold.Proofs.Declaration.BodyTokens

/-!
# What is left as it was

Coalescing replaces the functions that become adapters and the canonical functions that get a
helper, and leaves everything else as it was (`coalesce_replaces`): the source falls into pieces
that end with these functions, and the new text into the same pieces with other ends.

A plan settles what becomes of a function at most once (`nodup_settled`).  So the members that
are kept, the functions that are similar to none, and the canonical functions without a helper are
not among those that are replaced.
-/

namespace Twinfold

/-! ### Every function is settled once -/

/-- The functions that share the body of a group. -/
def SharedBody.members (g : SharedBody) : List Nat := g.canonical :: g.adapters

/-- The functions that are replaced for a group. -/
def SharedBody.replaced (g : SharedBody) : List Nat :=
  if g.helper.isSome then g.members else g.adapters

/-- The functions of which a plan tells what becomes of them. -/
def Plan.settled (p : Plan) : List Nat :=
  p.shared.flatMap SharedBody.members ++ p.kept.map Kept.index

section

variable {source : Text} {options : Options} {d : Detection} {layout : Layout} {p : Plan}

/-- A plan settles members of the groups with more than one member. -/
theorem settled_subperm (hdetect : detect source options = .ok d)
    (hplan : plan source d layout = .ok p) :
    List.Subperm p.settled (d.duplicates.flatMap Group.members) := by
  have haccounts := (perm_accounts_of_plan hdetect hplan).map Prod.fst
  rw [map_fst_accounts, map_fst_groupAccounts] at haccounts
  -- The canonical functions stand in front on both sides.
  have hsettled : p.settled.Perm (p.shared.map SharedBody.canonical ++
      (p.shared.flatMap SharedBody.adapters ++ p.kept.map Kept.index)) := by
    rw [← List.append_assoc]
    exact (List.map_append_flatMap_perm p.shared _ _).symm.append_right _
  have hmembers : (d.duplicates.map Group.canonical ++ d.duplicates.flatMap Group.others).Perm
      (d.duplicates.flatMap Group.members) := List.map_append_flatMap_perm d.duplicates _ _
  have hsub := (canonicals_sublist hplan).append_right (d.duplicates.flatMap Group.others)
  refine List.Subperm.trans ?_ hmembers.subperm
  exact hsettled.subperm.trans ((haccounts.append_left _).subperm.trans hsub.subperm)

/-- **A plan settles a function at most once.**  Settled are the functions that share a body and
those that are kept. -/
theorem nodup_settled (hdetect : detect source options = .ok d)
    (hplan : plan source d layout = .ok p) : p.settled.Nodup := by
  obtain ⟨settled, hperm, hsub⟩ := settled_subperm hdetect hplan
  have hgroups := (duplicates_sublist d).flatMap Group.members
  exact hperm.nodup_iff.mp ((nodup_members_of_detect hdetect).sublist (hsub.trans hgroups))

/-- Replaced functions are settled. -/
theorem SharedBody.mem_members {g : SharedBody} {i : Nat} (h : i ∈ g.replaced) : i ∈ g.members := by
  unfold replaced at h
  split at h
  · exact h
  · exact List.mem_cons_of_mem _ h

/-- Members that are kept are not replaced. -/
theorem not_mem_replaced_of_kept (hdetect : detect source options = .ok d)
    (hplan : plan source d layout = .ok p) {k : Kept} (hk : k ∈ p.kept) :
    k.index ∉ p.shared.flatMap SharedBody.replaced := by
  intro hmem
  obtain ⟨g, hg, hmem⟩ := List.mem_flatMap.mp hmem
  have hdisjoint := List.disjoint_of_nodup_append (nodup_settled hdetect hplan)
  exact hdisjoint (List.mem_flatMap.mpr ⟨g, hg, SharedBody.mem_members hmem⟩)
    (List.mem_map_of_mem hk)

/-- Functions that are similar to none are not replaced. -/
theorem not_mem_replaced_of_singleton (hdetect : detect source options = .ok d)
    (hplan : plan source d layout = .ok p) {g : Group} (hg : g ∈ d.groups)
    (hsingleton : g.isSingleton = true) :
    g.canonical ∉ p.shared.flatMap SharedBody.replaced := by
  intro hmem
  obtain ⟨s, hs, hmem⟩ := List.mem_flatMap.mp hmem
  have hsettled : g.canonical ∈ p.settled :=
    List.mem_append_left _ (List.mem_flatMap.mpr ⟨s, hs, SharedBody.mem_members hmem⟩)
  have hmembers := (settled_subperm hdetect hplan).subset hsettled
  obtain ⟨g', hg', hmem'⟩ := List.mem_flatMap.mp hmembers
  obtain ⟨hg', hnot⟩ := List.mem_filter.mp hg'
  obtain rfl := eq_of_nodup_flatMap (nodup_members_of_detect hdetect) hg hg' List.mem_cons_self
    hmem'
  rw [hsingleton] at hnot
  cases hnot

/-- Canonical functions without a helper are not replaced. -/
theorem not_mem_replaced_of_canonical (hdetect : detect source options = .ok d)
    (hplan : plan source d layout = .ok p) {g : SharedBody} (hg : g ∈ p.shared)
    (hnone : g.helper = none) : g.canonical ∉ p.shared.flatMap SharedBody.replaced := by
  intro hmem
  obtain ⟨g', hg', hmem⟩ := List.mem_flatMap.mp hmem
  have hnodup := (List.nodup_append.mp (nodup_settled hdetect hplan)).1
  obtain rfl := eq_of_nodup_flatMap hnodup hg hg' List.mem_cons_self (SharedBody.mem_members hmem)
  rw [SharedBody.replaced, hnone] at hmem
  exact (List.nodup_cons.mp ((List.nodup_flatMap.mp hnodup).1 g hg)).1 hmem

end

/-! ### The pieces of a coalesced text -/

/-- The functions that are replaced. -/
def Coalesced.replaced (r : Coalesced) : List Nat := r.shared.flatMap SharedBody.replaced

/-- The source falls into pieces, and only the functions at their ends are replaced. -/
structure ReplacesSpans (source : Text) (d : Detection) (r : Coalesced) (pieces : List Piece)
    (last : Text) : Prop where
  source_eq : source = pieces.flatMap Piece.old ++ last
  text_eq : r.text = pieces.flatMap Piece.replaced ++ last
  /-- The pieces end with the spans of functions. -/
  placed : PiecesIn 0 pieces
  /-- These are the functions that are replaced, in the order in which they are declared. -/
  ends_eq : pieces.map Piece.declaration = d.declarations.filter fun c => c.index ∈ r.replaced
  index_eq : ∀ (i : Nat) (c : Declaration), d.declarations[i]? = some c → c.index = i
  /-- Every function that is replaced is declared, and it is replaced once. -/
  declared : ∀ i ∈ r.replaced, i < d.declarations.length
  nodup : r.replaced.Nodup
  /-- All other functions stand in what is kept. -/
  others : ∀ (i : Nat) (c : Declaration), d.declarations[i]? = some c → i ∉ r.replaced →
    ∃ kept ∈ keptTexts pieces last, c.source <:+: kept
  kept : ∀ k ∈ r.kept, k.index ∉ r.replaced
  singleton : ∀ g ∈ d.groups, g.isSingleton = true → g.canonical ∉ r.replaced
  canonical : ∀ g ∈ r.shared, g.helper = none → g.canonical ∉ r.replaced

/-- The changed functions are those that are replaced. -/
theorem Plan.Makes.map_index {layout : Layout} {d : Detection} {p : Plan} {changes : List Change}
    (h : p.Makes layout d changes) :
    changes.map (fun c => c.declaration.index) = p.shared.flatMap SharedBody.replaced := by
  have hcalls := congrArg (List.map Prod.fst) h.calls_eq
  rw [List.map_map, List.map_flatMap] at hcalls
  refine Eq.trans hcalls (List.flatMap_congr fun g _ => ?_)
  unfold SharedBody.calls SharedBody.replaced
  cases g.helper <;> simp [SharedBody.members, Function.comp_def]

/-- A function is changed if it is one of those that are replaced. -/
theorem Plan.Makes.isSome_changeOf_iff {layout : Layout} {d : Detection} {p : Plan}
    {changes : List Change} (h : p.Makes layout d changes) (i : Nat) :
    (changeOf changes i).isSome = true ↔ i ∈ p.shared.flatMap SharedBody.replaced := by
  rw [← h.map_index, changeOf, List.find?_isSome]
  simp

/-- **Only adapters and canonical functions with a helper are replaced.**  The rest of the source
is left as it was, byte for byte, in a region as well. -/
theorem coalesce_replaces {source : Text} {options : Options} {d : Detection} {layout : Layout}
    {r : Coalesced} (hdetect : detect source options = .ok d)
    (hcoalesce : coalesce source d layout = .ok r) :
    ∃ pieces last, ReplacesSpans source d r pieces last := by
  obtain ⟨p, _, hplan, _, _, rfl⟩ := coalesce_eq_ok_iff.mp hcoalesce
  obtain ⟨changes, hmakes, _⟩ := exists_changes_of_plan hdetect hplan
  have hreplaced : changes.map (fun c => c.declaration.index) =
      Coalesced.replaced ⟨p.apply source, p.shared, p.kept⟩ := hmakes.map_index
  obtain ⟨ts, hts⟩ := exists_tokens_of_plan hplan
  have hds := declarations_of_detect hdetect
  have hstand := standIn_of_declarations hts hds
  have hindex : ∀ {i : Nat} {c : Declaration}, d.declarations[i]? = some c → c.index = i :=
    fun hc => index_of_getElem?_declarations hts hds hc
  have hposition : ∀ c ∈ d.declarations, d.declarations[c.index]? = some c :=
    fun c hc => getElem?_index_of_mem hts hds hc
  obtain ⟨pieces, last, hfalls, _⟩ := @exists_pieces d.declarations 0 [] source
    (by simpa using hstand) fun c => (changeOf changes c.index).map (Change.text layout)
  rw [List.nil_append] at hfalls
  refine ⟨pieces, last, hfalls.text_eq, ?_, hfalls.placed, ?_, fun _ _ => hindex, ?_,
    hreplaced ▸ hmakes.nodup, ?_, fun k hk => not_mem_replaced_of_kept hdetect hplan hk,
    fun g hg hsingleton => not_mem_replaced_of_singleton hdetect hplan hg hsingleton,
    fun g hg hnone => not_mem_replaced_of_canonical hdetect hplan hg hnone⟩
  · rw [Plan.apply, hmakes.edits_eq]
    refine hfalls.splice hstand (ascending_edits hstand hmakes.nodup hmakes.mem)
      (mem_edits_iff hmakes.nodup (fun c hc => ⟨_, hmakes.mem c hc, rfl, rfl, rfl⟩) ?_)
    intro c hc c' hc' hsame
    have hposition' := hposition c hc
    rw [hsame, hposition c' hc'] at hposition'
    exact (Option.some_inj.mp hposition').symm
  · rw [hfalls.declarations_eq]
    refine List.filter_congr fun c _ => ?_
    rw [Option.isSome_map, Bool.eq_iff_iff, hmakes.isSome_changeOf_iff, decide_eq_true_eq]
    rfl
  · intro i hi
    rw [← hreplaced] at hi
    obtain ⟨c, hc, rfl⟩ := List.mem_map.mp hi
    exact (List.getElem?_eq_some_iff.mp (hposition _ (hmakes.mem c hc))).1
  · intro i c hc hnot
    refine hfalls.others c (List.mem_of_getElem? hc) ?_
    rw [hindex hc, Option.map_eq_none_iff, ← Option.not_isSome_iff_eq_none,
      hmakes.isSome_changeOf_iff]
    exact hnot

/-- Two similar functions around a third one. -/
def interleaved : Text :=
  "function f()\x7breturn 1\x7d function h()\x7bgo()\x7d function g()\x7breturn 2\x7d".toList

/-- Two functions that share a body around one that is kept. -/
theorem replaces_interleaved : ∃ d r, detect interleaved {} = .ok d ∧
    coalesce interleaved d {} = .ok r ∧ r.replaced = [0, 2] ∧
    ∃ pieces last, ReplacesSpans interleaved d r pieces last := by
  have hrun : (runOn interleaved {}).map (fun x => x.2.replaced) = some [0, 2] := by
    decide +kernel
  obtain ⟨⟨d, r⟩, hresult, hreplaced⟩ := Option.map_eq_some_iff.mp hrun
  obtain ⟨hdetect, hcoalesce⟩ := of_runOn hresult
  exact ⟨d, r, hdetect, hcoalesce, hreplaced, coalesce_replaces hdetect hcoalesce⟩

end Twinfold
