import Twinfold.Proofs.Coalesce.Adapters
import Twinfold.Proofs.Coalesce.Helpers
import Twinfold.Proofs.Grouping.Components

/-!
# Every member is accounted for

A plan says of every member behind the canonical function of its group what becomes of it: it is
an adapter or it is kept, with the canonical function of its group in either case.  The loop over
the members has many ways out, but each of them enters the member on one of the two lists
(`Sharing.add_cases`), so a list of accounts grows by the members that were passed, in some order
(`perm_shareGroup` for one group, `perm_addGroups` for all).

Slots are entered on the way.  One is only entered together with a member that differs there
(`Sharing.Used`), so none goes unused, and there are no more slots than adapters.

* `coalesce_accounts` — all that is told about the members of the groups.
-/

namespace Twinfold

/-! ### The accounts of a group -/

/-- The members behind the canonical one, each with it. -/
def Group.accounts (g : Group) : List (Nat × Nat) := g.others.map (·, g.canonical)

/-- The adapters, each with the canonical function. -/
def SharedBody.accounts (g : SharedBody) : List (Nat × Nat) := g.adapters.map (·, g.canonical)

/-- A member that is kept with the canonical function. -/
def Kept.account (k : Kept) : Nat × Nat := (k.index, k.canonical)

/-- What is told about members: their canonical functions. -/
def accounts (shared : List SharedBody) (kept : List Kept) : List (Nat × Nat) :=
  shared.flatMap SharedBody.accounts ++ kept.map Kept.account

/-- The accounts of groups are about their members but the canonical ones. -/
theorem map_fst_groupAccounts (groups : List Group) :
    (groups.flatMap Group.accounts).map Prod.fst = groups.flatMap Group.others := by
  rw [List.map_flatMap]
  refine List.flatMap_congr fun g _ => ?_
  rw [Group.accounts, List.map_map]
  exact List.map_id _

/-- The functions that are accounted for are the adapters and those that are kept. -/
theorem map_fst_accounts (shared : List SharedBody) (kept : List Kept) :
    (accounts shared kept).map Prod.fst =
      shared.flatMap SharedBody.adapters ++ kept.map Kept.index := by
  rw [accounts, List.map_append, List.map_flatMap, List.map_map]
  congr 1
  refine List.flatMap_congr fun g _ => ?_
  rw [SharedBody.accounts, List.map_map]
  exact List.map_id _

section

variable {layout : Layout} {d : Detection}

/-- Every member that is declared is entered or kept, and not both.  The members are gone through
one after the other, and each step puts one of them into one of the two lists. -/
theorem perm_shareGroup (canonical : FunctionForm) {group : Group}
    (hdeclared : ∀ i ∈ group.others, i < d.declarations.length) :
    ((shareGroup d canonical group).members.map (fun m => (m.index, group.canonical)) ++
      (shareGroup d canonical group).kept.map Kept.account).Perm group.accounts := by
  unfold shareGroup Group.accounts
  generalize group.others = others at hdeclared ⊢
  induction others using List.reverseRecOn with
  | nil => exact .nil
  | append_singleton others i ih =>
    have ih := ih fun j hj => hdeclared j (List.mem_append_left _ hj)
    obtain ⟨member, hmember⟩ : ∃ member, d.declarations[i]? = some member :=
      ⟨_, List.getElem?_eq_getElem (hdeclared i (by simp))⟩
    rw [List.foldl_append, List.foldl_cons, List.foldl_nil, hmember, List.map_append]
    dsimp only
    generalize List.foldl _ _ others = s at ih ⊢
    -- The new account stands behind those of the members or behind those that are kept.
    have hbehind : ∀ account,
        (s.members.map (fun m : Member => (m.index, group.canonical)) ++ [account] ++
          s.kept.map Kept.account).Perm (others.map (·, group.canonical) ++ [account]) := by
      intro account
      rw [List.append_assoc]
      refine (List.perm_append_comm.append_left _).trans ?_
      rw [← List.append_assoc]
      exact ih.append_right _
    rcases s.add_cases group.canonical canonical i (.of d.rules member) with
      ⟨reason, hadd⟩ | ⟨_, hadd⟩ | ⟨own, value, slots, _, _, hadd⟩ <;> rw [hadd]
    · rw [List.map_append, ← List.append_assoc]
      exact ih.append_right _
    · rw [List.map_append]
      exact hbehind _
    · rw [List.map_append]
      exact hbehind _

/-- **One group's accounts.**  Planning for a group adds its members to the accounts.  If the group
shares nothing, all of them are kept with the obstacle; otherwise those are kept that cannot share
the body. -/
theorem perm_addGroup (canonical : Declaration) {group : Group}
    (hdeclared : ∀ i ∈ group.others, i < d.declarations.length) (p : Plan)
    (names : NameSupply) :
    (accounts (p.addGroup layout d canonical group names).1.shared
      (p.addGroup layout d canonical group names).1.kept).Perm
      (accounts p.shared p.kept ++ group.accounts) := by
  have hshare := perm_shareGroup (.of d.rules canonical) hdeclared
  have hadapters : ∀ s : Sharing, s.members.map (fun m => (m.index, group.canonical)) =
      (s.members.map Member.index).map (·, group.canonical) := by
    intro s
    rw [List.map_map]
    rfl
  rw [hadapters] at hshare
  -- What is kept is entered before what is shared.
  have hentered : ∀ helper slots,
      (accounts (p.shared ++ [⟨group.canonical,
        (shareGroup d (.of d.rules canonical) group).members.map Member.index, helper, slots⟩])
        (p.kept ++ (shareGroup d (.of d.rules canonical) group).kept)).Perm
        (accounts p.shared p.kept ++ group.accounts) := by
    intro helper slots
    refine List.Perm.trans ?_ (hshare.append_left _)
    simp only [accounts, List.flatMap_append, List.flatMap_singleton, List.map_append,
      List.append_assoc, SharedBody.accounts]
    refine List.Perm.append_left _ ?_
    simp only [← List.append_assoc]
    exact List.perm_append_comm.append_right _
  unfold Plan.addGroup
  dsimp only
  split
  · simp only [accounts, List.map_append, List.map_map, Function.comp_def, Kept.account,
      Group.accounts, List.append_assoc]
    exact .refl _
  · split
    · rename_i hnone
      rw [List.isEmpty_iff.mp hnone, List.map_nil, List.map_nil, List.nil_append] at hshare
      simp only [accounts, List.map_append, ← List.append_assoc]
      exact hshare.append_left _
    · unfold Plan.addShared
      dsimp only
      split <;> exact hentered _ _

/-- The accounts of all groups.  By induction on the groups, with the plan and the names of one
step as those of the next. -/
theorem perm_addGroups {groups : List Group}
    (hdeclared : ∀ g ∈ groups, ∀ i ∈ g.members, i < d.declarations.length) (p : Plan)
    (names : NameSupply) :
    (accounts (Plan.addGroups layout d groups p names).shared
      (Plan.addGroups layout d groups p names).kept).Perm
      (accounts p.shared p.kept ++ groups.flatMap Group.accounts) := by
  induction groups generalizing p names with
  | nil => simp [Plan.addGroups]
  | cons group groups ih =>
    have hgroup := hdeclared group List.mem_cons_self
    have ih := ih fun g hg => hdeclared g (List.mem_cons_of_mem _ hg)
    unfold Plan.addGroups
    split
    · rename_i hnone
      have hlt := hgroup group.canonical List.mem_cons_self
      rw [List.getElem?_eq_getElem hlt] at hnone
      cases hnone
    · rename_i canonical _
      have hadded := @perm_addGroup layout d canonical group
        (fun i hi => hgroup i (List.mem_cons_of_mem _ hi)) p names
      rw [List.flatMap_cons, ← List.append_assoc]
      exact (ih _ _).trans (hadded.append_right _)

end

/-! ### Slots that members use -/

/-- Every slot has a member that differs there. -/
structure Sharing.Used (s : Sharing) : Prop where
  used : ∀ slot ∈ s.slots, ∃ m ∈ s.members, ∃ value, m.difference = some (slot, value)
  length_le : s.slots.length ≤ s.members.length

/-- **No slot without a member**: this is kept by every member that is assessed.  A slot is entered
only with the member that differs there, and no slot is ever taken out again. -/
theorem Sharing.Used.add {s : Sharing} (h : s.Used) (canonicalIndex : Nat)
    (canonical : FunctionForm) (index : Nat) (member : FunctionForm) :
    (s.add canonicalIndex canonical index member).Used := by
  -- Slots that are there stay used when a member is entered.
  have hstill : ∀ m slot, slot ∈ s.slots →
      ∃ m' ∈ s.members ++ [m], ∃ value, m'.difference = some (slot, value) := by
    intro m slot hslot
    obtain ⟨m', hm', hvalue⟩ := h.used slot hslot
    exact ⟨m', List.mem_append_left _ hm', hvalue⟩
  have hle := h.length_le
  rcases s.add_cases canonicalIndex canonical index member with
    ⟨reason, hadd⟩ | ⟨_, hadd⟩ | ⟨own, value, slots, _, hslots, hadd⟩ <;> rw [hadd]
  · exact ⟨h.used, hle⟩
  · refine ⟨fun slot hslot => hstill _ slot hslot, ?_⟩
    simp only [List.length_append, List.length_singleton]
    omega
  · rcases addSlot_cases hslots with ⟨rfl, _⟩ | ⟨rfl, _⟩
    · refine ⟨fun slot hslot => hstill _ slot hslot, ?_⟩
      simp only [List.length_append, List.length_singleton]
      omega
    · refine ⟨fun slot hslot => ?_, ?_⟩
      · rcases List.mem_append.mp hslot with hslot | hslot
        · exact hstill _ slot hslot
        · obtain rfl := List.mem_singleton.mp hslot
          exact ⟨_, List.mem_append_right _ (List.mem_singleton_self _), value, rfl⟩
      · simp only [List.length_append, List.length_singleton]
        omega

/-- When a group is gone through, each slot that is added is used by the member for which it was
added. -/
theorem used_shareGroup (d : Detection) (canonical : FunctionForm) (group : Group) :
    (shareGroup d canonical group).Used := by
  unfold shareGroup
  induction group.others using List.reverseRecOn with
  | nil => exact ⟨by simp, Nat.le_refl _⟩
  | append_singleton others i ih =>
    rw [List.foldl_append, List.foldl_cons, List.foldl_nil]
    split
    · exact ih.add _ _ _ _
    · exact ih

/-- A member with a slot differs from the canonical function in the expression that is there.  The
slot is the side of the canonical function, and the value that is passed is the other side. -/
theorem compare_of_assess {canonical member : FunctionForm} {own : Slot} {value : Text}
    (h : assess canonical member = .ok (some (own, value))) :
    ∃ e, canonical.compare member = .nearDuplicate (.substituted own.line) (.expression e) ∧
      e.left = own.span ∧ e.leftText = own.text ∧ e.rightText = value := by
  unfold assess at h
  split at h
  · cases h
  · split at h
    · cases h
    · split at h
      · cases h
      · rename_i line e hcompare
        cases h
        exact ⟨e, hcompare, rfl, rfl, rfl⟩
      · cases h
      · cases h

/-- The slots of a shared body: tokens of the canonical body, in their order, each used by an
adapter that differs there and passes what it has itself. -/
structure SharedBody.SlotsUsed (layout : Layout) (rules : LineRules) (ds : List Declaration)
    (edits : List Edit) (g : SharedBody) (c : Declaration) (slots : List Slot) : Prop where
  canonical_eq : ds[g.canonical]? = some c
  length_slots : slots.length = g.slots
  /-- The slots are in the order of the body, so no two of them are in one place. -/
  ordered : slots.Pairwise fun slot other => slot.before other = true
  isTokenOf : ∀ slot ∈ slots, slot.IsTokenOf c
  used : ∀ (k : Nat) (slot : Slot), slots[k]? = some slot →
    ∃ i ∈ g.adapters, ∃ m e helper arguments text, ds[i]? = some m ∧
      c.compare rules m = .nearDuplicate (.substituted slot.line) (.expression e) ∧
      e.left = slot.span ∧ e.leftText = slot.text ∧
      g.helper = some helper ∧ CallsWith layout m helper arguments text ∧
      m.replaceBy text ∈ edits ∧ arguments.length = g.slots ∧ arguments[k]? = some e.rightText

/-- **The work on a group** leaves no slot unused.  Sorting the slots does not change which ones
there are, so what was known while they were entered is still known. -/
theorem Work.Sound.slotsUsed {layout : Layout} {d : Detection} {w : Work} (h : w.Sound d)
    {edits : List Edit} (hedits : ∀ e ∈ w.edits layout d, e ∈ edits) :
    (w.shared d).SlotsUsed layout d.rules d.declarations edits w.canonical (w.slots d) := by
  refine ⟨h.canonical_eq, rfl, w.pairwise_slots d, ?_, ?_⟩
  · intro slot hslot
    obtain ⟨line, i, t, hfits⟩ := exists_fits hslot
    exact hfits.isTokenOf
  · intro k slot hk
    have hslot := List.mem_of_getElem? hk
    obtain ⟨m, hm, value, hdifference⟩ :=
      (used_shareGroup d (.of d.rules w.canonical) w.group).used slot
        ((w.slots_perm d).mem_iff.mp hslot)
    obtain ⟨_, hassess⟩ := (w.sound_sharing d).assessed m hm
    rw [hdifference] at hassess
    obtain ⟨e, hcompare, hleft, hleftText, hvalue⟩ := compare_of_assess hassess
    obtain ⟨hdecl, passed, hpassed⟩ := declaration_of_mem hm
    -- A group with a slot has a helper.
    have hhas : w.hasHelper d = true := by
      by_contra hnot
      rw [slots_eq_nil (Bool.not_eq_true _ ▸ hnot)] at hslot
      cases hslot
    refine ⟨m.index, List.mem_map_of_mem hm, m.declaration, e, w.helperName,
      m.values (w.slots d), w.memberText layout d m, hdecl, hcompare, hleft, hleftText,
      if_pos hhas, ?_, ?_, List.length_map _, ?_⟩
    · rw [memberText, target, if_pos hhas]
      exact callsWith_adapter layout hpassed _ _
    · exact hedits _ (List.mem_append_right _ (List.mem_map_of_mem hm))
    · rw [Member.values, List.getElem?_map, hk, Option.map_some, hdifference]
      simp [Slot.samePlace, hvalue]

/-! ### The accounts of a source text -/

/-- The groups of a detection are components. -/
theorem exists_components_of_detect {source : Text} {options : Options} {d : Detection}
    (hdetect : detect source options = .ok d) :
    ∃ adj, Components d.declarations.length adj d.groups := by
  obtain ⟨ds, _, rfl⟩ := exists_of_detect hdetect
  exact ⟨_, components_ofEdges ds.length (searchEdges (candidates options ds)).edges⟩

/-- No function is in two groups. -/
theorem nodup_members_of_detect {source : Text} {options : Options} {d : Detection}
    (hdetect : detect source options = .ok d) : (d.groups.flatMap Group.members).Nodup := by
  obtain ⟨_, hcomponents⟩ := exists_components_of_detect hdetect
  exact hcomponents.nodup_members

theorem duplicates_sublist (d : Detection) : d.duplicates.Sublist d.groups := List.filter_sublist

/-- **A plan accounts for the groups** with more than one member.  Each of their members is either
in a group that shares a body or among those kept, and once. -/
theorem perm_accounts_of_plan {source : Text} {options : Options} {d : Detection}
    {layout : Layout} {p : Plan} (hdetect : detect source options = .ok d)
    (hplan : plan source d layout = .ok p) :
    (accounts p.shared p.kept).Perm (d.duplicates.flatMap Group.accounts) := by
  obtain ⟨_, hcomponents⟩ := exists_components_of_detect hdetect
  obtain ⟨ts, hts⟩ := exists_tokens_of_plan hplan
  simp only [plan, hts, Except.map, Except.ok.injEq] at hplan
  subst hplan
  have hdeclared : ∀ g ∈ d.duplicates, ∀ i ∈ g.members, i < d.declarations.length :=
    fun g hg => hcomponents.lt_of_mem g ((duplicates_sublist d).subset hg)
  exact perm_addGroups hdeclared {} _

/-- Only groups share bodies, each once. -/
theorem canonicals_sublist {source : Text} {d : Detection} {layout : Layout} {p : Plan}
    (hplan : plan source d layout = .ok p) :
    (p.shared.map SharedBody.canonical).Sublist (d.duplicates.map Group.canonical) := by
  obtain ⟨works, hdoes, hworks⟩ := exists_works_of_plan hplan
  have hmap := hworks.map Group.canonical
  rw [hdoes.shared_eq]
  rwa [List.map_map] at hmap ⊢

/-- What is told about the members of groups: `p` is the plan that was carried out. -/
structure Coalesced.Accounts (layout : Layout) (d : Detection) (p : Plan) (r : Coalesced) :
    Prop where
  /-- The adapters and the kept members are the members behind the canonical ones, each with the
  canonical function of its group. -/
  perm : (accounts r.shared r.kept).Perm (d.duplicates.flatMap Group.accounts)
  /-- They are told of once. -/
  nodup : ((accounts r.shared r.kept).map Prod.fst).Nodup
  /-- A group yields one entry or none, which lists adapters in the order of the group. -/
  entries : ∃ groups : List Group, groups.Sublist d.duplicates ∧
    List.Forall₂ (fun s g => s.canonical = g.canonical ∧ s.adapters.Sublist g.others)
      r.shared groups
  /-- Entries ascend. -/
  ordered : (r.shared.map SharedBody.canonical).Pairwise (· < ·)
  ascending : ∀ g ∈ r.shared, g.adapters.Pairwise (· < ·)
  nonempty : ∀ g ∈ r.shared, g.adapters ≠ []
  slots_le : ∀ g ∈ r.shared, g.slots ≤ g.adapters.length
  used : ∀ g ∈ r.shared, ∃ c slots, g.SlotsUsed layout d.rules d.declarations p.edits c slots

/-- **Every member is accounted for once**, with the canonical function of its group, and every
slot is there for an adapter. -/
theorem coalesce_accounts {source : Text} {options : Options} {d : Detection} {layout : Layout}
    {r : Coalesced} (hdetect : detect source options = .ok d)
    (hcoalesce : coalesce source d layout = .ok r) :
    ∃ p, plan source d layout = .ok p ∧ r.text = p.apply source ∧ r.Accounts layout d p := by
  obtain ⟨p, _, hplan, _, _, rfl⟩ := coalesce_eq_ok_iff.mp hcoalesce
  refine ⟨p, hplan, rfl, ?_⟩
  obtain ⟨_, hcomponents⟩ := exists_components_of_detect hdetect
  obtain ⟨works, hdoes, hworks⟩ := exists_works_of_plan hplan
  have hperm := perm_accounts_of_plan hdetect hplan
  have hshared : ∀ g ∈ p.shared, ∃ w ∈ works, w.Sound d ∧ g = w.shared d := by
    intro g hg
    rw [hdoes.shared_eq] at hg
    obtain ⟨w, hw, rfl⟩ := List.mem_map.mp hg
    exact ⟨w, hw, hdoes.sound w hw, rfl⟩
  -- Groups whose functions ascend, and none of which has a function of another one.
  have hascend : ∀ w ∈ works, w.group.members.Pairwise (· < ·) := by
    intro w hw
    have hmem := hworks.subset (List.mem_map_of_mem hw)
    exact hcomponents.ascending _ ((duplicates_sublist d).subset hmem)
  refine ⟨hperm, ?nodup, ⟨works.map Work.group, hworks, ?entries⟩, ?ordered, ?ascending,
    ?nonempty, ?slots_le, ?used⟩
  case nodup =>
    refine (hperm.map Prod.fst).nodup_iff.mpr ?_
    rw [map_fst_groupAccounts]
    have hsub : (d.duplicates.flatMap Group.others).Sublist (d.duplicates.flatMap Group.members) :=
      List.Sublist.flatMap_right _ fun g _ => List.sublist_cons_self _ _
    exact (nodup_members_of_detect hdetect).sublist
      (hsub.trans ((duplicates_sublist d).flatMap Group.members))
  case entries =>
    rw [hdoes.shared_eq, List.forall₂_map_left_iff, List.forall₂_map_right_iff]
    exact List.forall₂_same.mpr fun w _ => ⟨rfl, sublist_others_of_shareGroup d _ w.group⟩
  case ordered =>
    have hcanonicals := canonicals_sublist hplan
    have hgroups := (duplicates_sublist d).map Group.canonical
    exact (List.pairwise_map.mpr hcomponents.ordered).sublist (hcanonicals.trans hgroups)
  case ascending =>
    intro g hg
    obtain ⟨w, hw, _, rfl⟩ := hshared g hg
    have hothers := (List.pairwise_cons.mp (hascend w hw)).2
    exact hothers.sublist (sublist_others_of_shareGroup d _ w.group)
  case nonempty =>
    intro g hg
    obtain ⟨w, _, hsound, rfl⟩ := hshared g hg
    exact fun hnil => hsound.has_members (List.map_eq_nil_iff.mp hnil)
  case slots_le =>
    intro g hg
    obtain ⟨w, _, _, rfl⟩ := hshared g hg
    have hle := (used_shareGroup d (.of d.rules w.canonical) w.group).length_le
    rw [Work.shared, List.length_map, (w.slots_perm d).length_eq]
    exact hle
  case used =>
    intro g hg
    obtain ⟨w, hw, hsound, rfl⟩ := hshared g hg
    refine ⟨w.canonical, w.slots d, hsound.slotsUsed fun e he => ?_⟩
    rw [hdoes.edits_eq]
    exact List.mem_flatMap_of_mem hw he

/-- Three functions, the last of which is similar to the second one only. -/
def chained : Text :=
  ("function f()\x7ba();return 1\x7dfunction g()\x7ba();return 2\x7d" ++
    "function h()\x7bb();return 2\x7d").toList

/-- A chain of functions one of which is similar to the canonical function only through another:
that one is kept, and it is accounted for. -/
theorem accounts_chained : ∃ d r p, detect chained {} = .ok d ∧
    coalesce chained d ⟨true⟩ = .ok r ∧ r.shared = [⟨0, [1], some ['$'], 1⟩] ∧
    r.kept = [⟨2, 0, .unlikeCanonical⟩] ∧ plan chained d ⟨true⟩ = .ok p ∧
    r.text = p.apply chained ∧ r.Accounts ⟨true⟩ d p := by
  have hrun : (runOn chained ⟨true⟩).map (fun x => (x.2.shared, x.2.kept)) =
      some ([⟨0, [1], some ['$'], 1⟩], [⟨2, 0, .unlikeCanonical⟩]) := by
    decide +kernel
  obtain ⟨⟨d, r⟩, hresult, hfields⟩ := Option.map_eq_some_iff.mp hrun
  simp only [Prod.mk.injEq] at hfields
  obtain ⟨hdetect, hcoalesce⟩ := of_runOn hresult
  obtain ⟨p, hplan, htext, haccounts⟩ := coalesce_accounts hdetect hcoalesce
  exact ⟨d, r, p, hdetect, hcoalesce, hfields.1, hfields.2, hplan, htext, haccounts⟩

end Twinfold
