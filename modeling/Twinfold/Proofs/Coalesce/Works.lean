import Twinfold.Proofs.Coalesce.Sharing

/-!
# What a plan is made of

A plan is put together from the groups that share a body, one after the other.  What is done
for one of them is its `Work`: which slots its helper has, what it is called, and which edits
make adapters of the members.  A plan is nothing else than the work on some of the groups, in
their order (`exists_works_of_plan`).
-/

namespace Twinfold

/-! ### The order of slots -/

theorem Slot.before_iff {s t : Slot} :
    s.before t = true ↔ s.line < t.line ∨ s.line = t.line ∧ s.span.start < t.span.start := by
  simp [before]

theorem Slot.samePlace_comm (s t : Slot) : s.samePlace t = t.samePlace s := by
  rw [Bool.eq_iff_iff, samePlace_iff, samePlace_iff]
  exact ⟨fun h => ⟨h.1.symm, h.2.symm⟩, fun h => ⟨h.1.symm, h.2.symm⟩⟩

/-- Slots in one line are tokens of the same text. -/
theorem Slot.IsTokenOf.exists_tokens {s t : Slot} {c : Declaration} (hs : s.IsTokenOf c)
    (ht : t.IsTokenOf c) (hline : s.line = t.line) :
    ∃ text ts u v, tokenize text = .ok ts ∧ u ∈ ts ∧ v ∈ ts ∧ s.span = ⟨u.start, u.stop⟩ ∧
      t.span = ⟨v.start, v.stop⟩ := by
  obtain ⟨line, ts, u, hl, hts, hu, hspan, _⟩ := hs
  obtain ⟨line', ts', v, hl', hts', hv, hspan', _⟩ := ht
  rw [hline] at hl
  cases hl.symm.trans hl'
  cases hts.symm.trans hts'
  exact ⟨line.text, ts, u, v, hts, hu, hv, hspan, hspan'⟩

/-- Tokens of one body that begin in one place are the same token. -/
theorem Slot.IsTokenOf.samePlace {s t : Slot} {c : Declaration} (hs : s.IsTokenOf c)
    (ht : t.IsTokenOf c) (hline : s.line = t.line) (hstart : s.span.start = t.span.start) :
    s.samePlace t = true := by
  obtain ⟨_, ts, u, v, hts, hu, hv, hspan, hspan'⟩ := hs.exists_tokens ht hline
  obtain ⟨i, hi⟩ := List.getElem?_of_mem hu
  obtain ⟨j, hj⟩ := List.getElem?_of_mem hv
  rw [hspan, hspan'] at hstart
  obtain rfl := eq_of_start_eq hts hi hj hstart
  cases hi.symm.trans hj
  exact samePlace_iff.mpr ⟨hline, hspan.trans hspan'.symm⟩

/-- Slots in places of their own are strictly ordered when they are sorted.  Sorting alone leaves
room for slots that come neither before nor after each other; as tokens of one function these are
in the same place. -/
theorem pairwise_sorted_slots {slots : List Slot} {c : Declaration}
    (htoken : ∀ slot ∈ slots, slot.IsTokenOf c)
    (hapart : slots.Pairwise fun slot other => other.samePlace slot = false) :
    (sortList Slot.before slots).Pairwise fun slot other => slot.before other = true := by
  have hsorted : (sortList Slot.before slots).Pairwise fun slot other =>
      ¬other.before slot = true := by
    apply pairwise_sortList
    · intro a b hab hba
      rw [Slot.before_iff] at hab hba
      omega
    · intro a b c hba hcb hca
      rw [Slot.before_iff] at hba hcb hca
      omega
  have hplaces : (sortList Slot.before slots).Pairwise fun slot other =>
      other.samePlace slot = false := by
    refine ((perm_sortList Slot.before slots).pairwise_iff ?_).mpr hapart
    intro a b hab
    rw [Slot.samePlace_comm]
    exact hab
  refine List.Pairwise.imp_of_mem ?_ (hsorted.and hplaces)
  intro a b ha hb ⟨hnot, hplace⟩
  rw [Slot.before_iff] at hnot ⊢
  by_contra hneither
  have hsame := (htoken a (mem_sortList.mp ha)).samePlace (htoken b (mem_sortList.mp hb))
    (by omega) (by omega)
  rw [Slot.samePlace_comm, hplace] at hsame
  cases hsame

/-! ### The work on a group -/

/-- As many names are handed out as were asked for. -/
theorem length_freshList (names : NameSupply) (count : Nat) :
    (names.freshList count).1.length = count := by
  induction count generalizing names with
  | zero => rfl
  | succ count ih => simp [NameSupply.freshList, ih]

/-- A helper is only left out when there are no slots. -/
theorem slots_eq_nil_of_not_needsHelper {ds : List Declaration} {c : Declaration} {s : Sharing}
     (h : needsHelper ds c s = false) :
    s.slots = [] := by
  simp only [needsHelper, Bool.or_eq_false_iff, Bool.not_eq_false'] at h
  exact List.isEmpty_iff.mp h.1.1

/-- A group that shares the body of its canonical function, when it is planned. -/
structure Work where
  group : Group
  canonical : Declaration
  /-- The names that are left. -/
  names : NameSupply

namespace Work

section

variable (layout : Layout) (d : Detection) (w : Work)

/-- What is found about the members. -/
def sharing : Sharing := shareGroup d (.of d.rules w.canonical) w.group

/-- The slots in the order of the body. -/
def slots : List Slot := sortList Slot.before (w.sharing d).slots

/-- Whether there is a helper. -/
def hasHelper : Bool := needsHelper d.declarations w.canonical (w.sharing d)

/-- The name of the helper, if there is one. -/
def helperName : Text := w.names.fresh.1

/-- The parameters of the helper that stand for the slots. -/
def slotParams : List Text := (w.names.fresh.2.freshList (w.slots d).length).1

/-- What the adapters call. -/
def target : Text := if w.hasHelper d then w.helperName else w.canonical.name

/-- What replaces the canonical function, if there is a helper. -/
def canonicalText : Text :=
  layout.adapter w.canonical w.helperName ((w.slots d).map Slot.text) ++ layout.lineEnd ++
    layout.helper w.canonical w.helperName ((w.slots d).zip (w.slotParams d))

/-- What replaces a member. -/
def memberText (m : Member) : Text :=
  layout.adapter m.declaration (w.target d) (m.values (w.slots d))

/-- The edits of the group. -/
def edits : List Edit :=
  (if w.hasHelper d then [w.canonical.replaceBy (w.canonicalText layout d)] else []) ++
    (w.sharing d).members.map fun m => m.declaration.replaceBy (w.memberText layout d m)

/-- The names that come up with the group: those of the helper and of its parameters for slots. -/
def introduced : List Text := if w.hasHelper d then w.helperName :: w.slotParams d else []

/-- The names that are left for the groups behind. -/
def namesAfter : NameSupply :=
  if w.hasHelper d then (w.names.fresh.2.freshList (w.slots d).length).2 else w.names

/-- The group as it is reported. -/
def shared : SharedBody :=
  ⟨w.group.canonical, (w.sharing d).members.map Member.index,
    if w.hasHelper d then some w.helperName else none, (w.slots d).length⟩

end

/-- The canonical function can share its body, and there are members to share it with. -/
structure Sound (d : Detection) (w : Work) : Prop where
  canonical_eq : d.declarations[w.group.canonical]? = some w.canonical
  no_obstacle : groupObstacle? (.of d.rules w.canonical) = none
  has_members : (w.sharing d).members ≠ []

section

variable {layout : Layout} {d : Detection} {w : Work}

theorem slots_eq_nil (h : w.hasHelper d = false) : w.slots d = [] := by
  rw [slots, slots_eq_nil_of_not_needsHelper h]
  rfl

/-- What is known of the members. -/
theorem sound_sharing (d : Detection) (w : Work) :
    (w.sharing d).Sound (.of d.rules w.canonical) d.declarations d.rules :=
  sound_shareGroup d _ w.group

theorem slots_perm (d : Detection) (w : Work) : (w.slots d).Perm (w.sharing d).slots :=
  perm_sortList _ _

/-- Each slot is a token that can be replaced. -/
theorem exists_fits {slot : Slot} (h : slot ∈ w.slots d) :
    ∃ line i t, slot.Fits (.of d.rules w.canonical) line i t :=
  (w.sound_sharing d).fits slot ((w.slots_perm d).mem_iff.mp h)

/-- The slots are in the order of the body. -/
theorem pairwise_slots (d : Detection) (w : Work) :
    (w.slots d).Pairwise fun slot other => slot.before other = true := by
  refine pairwise_sorted_slots (c := w.canonical) ?_ (w.sound_sharing d).apart
  intro slot hslot
  obtain ⟨line, i, t, hfits⟩ := (w.sound_sharing d).fits slot hslot
  exact hfits.isTokenOf

theorem length_slotParams (d : Detection) (w : Work) :
    (w.slotParams d).length = (w.slots d).length := length_freshList _ _

end

end Work

/-! ### Plans -/

/-- The plan is the work on these groups. -/
structure Plan.Does (layout : Layout) (d : Detection) (p : Plan) (works : List Work) : Prop where
  shared_eq : p.shared = works.map (Work.shared d)
  edits_eq : p.edits = works.flatMap (Work.edits layout d)
  sound : ∀ w ∈ works, w.Sound d

/-- Each group takes its names from what those before it have left. -/
def Threaded (d : Detection) : (names : NameSupply) → List Work → Prop
  | _, [] => True
  | names, w :: works => w.names = names ∧ Threaded d (w.namesAfter d) works

section

variable {layout : Layout} {d : Detection} {p : Plan} {works : List Work}

/-- One more group adds its own work, if it shares a body at all.  If it shares one, the new names
are taken from the supply and the edits of the work are added behind those that are there. -/
theorem Plan.Does.addGroup (h : p.Does layout d works) {group : Group} {canonical : Declaration}
    (hcanonical : d.declarations[group.canonical]? = some canonical) (names : NameSupply) :
    ((p.addGroup layout d canonical group names).1.Does layout d works ∧
      (p.addGroup layout d canonical group names).2 = names) ∨
    ((p.addGroup layout d canonical group names).1.Does layout d
        (works ++ [⟨group, canonical, names⟩]) ∧
      (p.addGroup layout d canonical group names).2 =
        Work.namesAfter d ⟨group, canonical, names⟩) := by
  unfold Plan.addGroup
  dsimp only
  split
  · exact .inl ⟨⟨h.shared_eq, h.edits_eq, h.sound⟩, rfl⟩
  · rename_i hobstacle
    split
    · exact .inl ⟨⟨h.shared_eq, h.edits_eq, h.sound⟩, rfl⟩
    · rename_i hmembers
      have hsound : ∀ w ∈ works ++ [⟨group, canonical, names⟩], w.Sound d := by
        intro w hw
        rcases List.mem_append.mp hw with hw | hw
        · exact h.sound w hw
        · obtain rfl := List.mem_singleton.mp hw
          exact ⟨hcanonical, hobstacle, fun hnil => hmembers (List.isEmpty_iff.mpr hnil)⟩
      refine .inr ?_
      generalize hw : (⟨group, canonical, names⟩ : Work) = w at hsound ⊢
      have hgroup : group = w.group := by rw [← hw]
      have hcanonical' : canonical = w.canonical := by rw [← hw]
      have hnames : names = w.names := by rw [← hw]
      subst hgroup hcanonical' hnames
      unfold Plan.addShared
      dsimp only
      split
      · rename_i hhelper
        have hhelper : w.hasHelper d = true := hhelper
        refine ⟨⟨?_, ?_, hsound⟩, by rw [Work.namesAfter, if_pos hhelper]; rfl⟩
        · simp only [h.shared_eq, List.map_append, List.map_cons, List.map_nil, Work.shared,
            if_pos hhelper]
          rfl
        · simp only [h.edits_eq, List.flatMap_append, List.flatMap_singleton, Work.edits,
            if_pos hhelper, Work.memberText, Work.target]
          rfl
      · rename_i hhelper
        have hhelper : ¬w.hasHelper d = true := hhelper
        have hslots := Work.slots_eq_nil (Bool.not_eq_true _ ▸ hhelper)
        refine ⟨⟨?_, ?_, hsound⟩, by rw [Work.namesAfter, if_neg hhelper]⟩
        · simp only [h.shared_eq, List.map_append, List.map_cons, List.map_nil, Work.shared,
            if_neg hhelper]
          rfl
        · simp only [h.edits_eq, List.flatMap_append, List.flatMap_singleton, Work.edits,
            if_neg hhelper, Work.memberText, Work.target, hslots, Member.values, List.map_nil]
          rfl

/-- **All groups.**  Going through the groups adds the works of those that share a body, in the
order of the groups, and every one of them goes on with the names that the one before has left. -/
theorem exists_works_of_addGroups (groups : List Group) {p : Plan} {works : List Work}
    (h : p.Does layout d works) (names : NameSupply) :
    ∃ more, (Plan.addGroups layout d groups p names).Does layout d (works ++ more) ∧
      (more.map Work.group).Sublist groups ∧ Threaded d names more := by
  induction groups generalizing p works names with
  | nil => exact ⟨[], by simpa [Plan.addGroups] using h, .slnil, trivial⟩
  | cons group rest ih =>
    unfold Plan.addGroups
    split
    · obtain ⟨more, hdoes, hsub, hthreaded⟩ := ih h names
      exact ⟨more, hdoes, hsub.cons group, hthreaded⟩
    · rename_i canonical hcanonical
      rcases h.addGroup hcanonical names with ⟨hkept, hnames⟩ | ⟨hadded, hnames⟩
      · obtain ⟨more, hdoes, hsub, hthreaded⟩ := ih hkept _
        exact ⟨more, hdoes, hsub.cons group, hnames ▸ hthreaded⟩
      · obtain ⟨more, hdoes, hsub, hthreaded⟩ := ih hadded _
        refine ⟨⟨group, canonical, names⟩ :: more, ?_, hsub.cons_cons group, rfl, ?_⟩
        · rw [List.append_assoc] at hdoes
          exact hdoes
        · exact hnames ▸ hthreaded

/-- Plans are work on groups, whose names come from one supply. -/
theorem exists_threaded_works_of_plan {source : Text} (h : plan source d layout = .ok p) :
    ∃ ts works, tokenize source = .ok ts ∧ p.Does layout d works ∧
      (works.map Work.group).Sublist d.duplicates ∧
      Threaded d (.avoiding (takenNames ts)) works := by
  unfold plan at h
  rcases htokens : tokenize source with e | ts <;> rw [htokens] at h
  · cases h
  · cases h
    have hnone : ({} : Plan).Does layout d [] := ⟨rfl, rfl, by simp⟩
    obtain ⟨works, hdoes, hsub, hthreaded⟩ := exists_works_of_addGroups d.duplicates hnone
      (.avoiding (takenNames ts))
    exact ⟨ts, works, rfl, hdoes, hsub, hthreaded⟩

/-- **Plans are work on groups.**  Groups that share no body are passed over, and the others come
in their order. -/
theorem exists_works_of_plan {source : Text} (h : plan source d layout = .ok p) :
    ∃ works, p.Does layout d works ∧ (works.map Work.group).Sublist d.duplicates := by
  obtain ⟨_, works, _, hdoes, hsub, _⟩ := exists_threaded_works_of_plan h
  exact ⟨works, hdoes, hsub⟩

end

/-! ### Runs -/

/-- A detection that succeeds is the detection among the declarations of the text. -/
theorem exists_of_detect {source : Text} {options : Options} {d : Detection}
    (h : detect source options = .ok d) :
    ∃ ds, declarations source options = .ok ds ∧ d = .of options ds := by
  unfold detect at h
  rcases hds : declarations source options with e | ds <;> rw [hds] at h
  · cases h
  · exact ⟨ds, rfl, (Except.ok.inj h).symm⟩

/-- A detection keeps the rules that it was made with, -/
theorem rules_of_detect {source : Text} {options : Options} {d : Detection}
    (h : detect source options = .ok d) : d.rules = options.rules := by
  obtain ⟨ds, _, rfl⟩ := exists_of_detect h
  rfl

/-- and the declarations of the text. -/
theorem declarations_of_detect {source : Text} {options : Options} {d : Detection}
    (h : detect source options = .ok d) : declarations source options = .ok d.declarations := by
  obtain ⟨ds, hds, rfl⟩ := exists_of_detect h
  exact hds

/-- Only a text that can be lexed is planned for. -/
theorem exists_tokens_of_plan {source : Text} {d : Detection} {layout : Layout} {p : Plan}
    (h : plan source d layout = .ok p) : ∃ ts, tokenize source = .ok ts := by
  unfold plan at h
  rcases htokens : tokenize source with e | ts
  · rw [htokens] at h
    cases h
  · exact ⟨ts, rfl⟩

/-- A text is coalesced when its plan can be carried out and the new text declares as many
functions as were meant. -/
theorem coalesce_eq_ok_iff {source : Text} {d : Detection} {layout : Layout} {r : Coalesced} :
    coalesce source d layout = .ok r ↔ ∃ p n, plan source d layout = .ok p ∧
      countDeclarations source = .ok n ∧
      countDeclarations (p.apply source) = .ok (n + p.helpers) ∧
      r = ⟨p.apply source, p.shared, p.kept⟩ := by
  unfold coalesce
  constructor
  · intro h
    split at h
    · cases h
    · rename_i p hp
      simp only [Plan.carryOut, bind, Except.bind] at h
      split at h
      · cases h
      · rename_i n hn
        split at h
        · cases h
        · rename_i found hfound
          split at h
          · rename_i hcount
            subst hcount
            exact ⟨p, n, hp, hn, hfound, (Except.ok.inj h).symm⟩
          · cases h
  · rintro ⟨p, n, hp, hn, hfound, rfl⟩
    simp [hp, Plan.carryOut, bind, Except.bind, hn, hfound]

/-- What comes of coalescing is the plan, carried out. -/
theorem plan_of_coalesce {source : Text} {d : Detection} {layout : Layout} {r : Coalesced}
    (h : coalesce source d layout = .ok r) :
    ∃ p, plan source d layout = .ok p ∧ r.text = p.apply source ∧ r.shared = p.shared := by
  obtain ⟨p, _, hp, _, _, rfl⟩ := coalesce_eq_ok_iff.mp h
  exact ⟨p, hp, rfl, rfl⟩

end Twinfold
