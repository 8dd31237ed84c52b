import Mathlib.Data.List.Flatten
import Twinfold.Proofs.Coalesce.Calls
import Twinfold.Proofs.Declaration.Spans
import Twinfold.Proofs.Grouping.Components

/-!
# The changes of a plan

Each edit of a plan changes one function: its body becomes a call, and a helper may be put behind
it (`Change`).  A plan is nothing else than its changes (`exists_changes_of_plan`), in a region as
well.  No function is changed twice (`nodup_changes`), so the edits do not interfere with each
other (`ascending_edits`).
-/

namespace Twinfold

/-! ### Changes -/

/-- A function whose body becomes a call of `target`. -/
structure Change where
  declaration : Declaration
  target : Text
  /-- The arguments in front of the parameters. -/
  leading : List Text
  /-- The slots of the helper that is put behind the function, if one is. -/
  fills : Option (List (Slot × Text))

namespace Change

section

variable (layout : Layout) (c : Change)

/-- The arguments of the call. -/
def arguments : List Text := c.leading ++ c.declaration.passedParams?.getD []

/-- What replaces the function. -/
def text : Text :=
  layout.adapter c.declaration c.target c.leading ++
    c.fills.elim [] fun fills => layout.lineEnd ++ layout.helper c.declaration c.target fills

/-- The edit that changes the function. -/
def edit : Edit := c.declaration.replaceBy (c.text layout)

end

/-- What a plan makes sure of. -/
structure Sound (ds : List Declaration) (c : Change) : Prop where
  mem : c.declaration ∈ ds
  plain : c.declaration.flavor = .plain
  passed : ∃ passed, c.declaration.passedParams? = some passed
  target : IsName c.target
  leading : ∀ text ∈ c.leading, Passes text

end Change

/-- The change of the function with a number. -/
def changeOf (changes : List Change) (i : Nat) : Option Change :=
  changes.find? fun c => c.declaration.index = i

/-- A change is found by the number of its function.  No function is changed twice, so at most one
change has the number. -/
theorem changeOf_eq_some_iff {changes : List Change}
    (hnodup : (changes.map fun c => c.declaration.index).Nodup) {i : Nat} {c : Change} :
    changeOf changes i = some c ↔ c ∈ changes ∧ c.declaration.index = i := by
  constructor
  · intro h
    have hindex := List.find?_some h
    exact ⟨List.mem_of_find?_eq_some h, of_decide_eq_true hindex⟩
  · rintro ⟨hmem, rfl⟩
    cases hfound : changeOf changes c.declaration.index with
    | none =>
      have hnot := List.find?_eq_none.mp hfound c hmem
      simp at hnot
    | some c' =>
      have hindex := List.find?_some hfound
      have hmem' := List.mem_of_find?_eq_some hfound
      rw [List.inj_on_of_nodup_map hnodup hmem' hmem (of_decide_eq_true hindex)]

/-- Which function is changed, what it calls, and whether it gets a helper. -/
def Change.call (c : Change) : Nat × Text × Bool := (c.declaration.index, c.target, c.fills.isSome)

/-- The members of a group call the helper or, if there is none, the canonical function. -/
def SharedBody.calls (ds : List Declaration) (g : SharedBody) : List (Nat × Text × Bool) :=
  match g.helper with
  | some helper => (g.canonical, helper, true) :: g.adapters.map fun i => (i, helper, false)
  | none => g.adapters.map fun i => (i, (ds[g.canonical]?.map Declaration.name).getD [], false)

/-- The changes that share the body of a group. -/
def Work.changes (d : Detection) (w : Work) : List Change :=
  (if w.hasHelper d then [⟨w.canonical, w.helperName, (w.slots d).map Slot.text,
    some ((w.slots d).zip (w.slotParams d))⟩] else []) ++
    (w.sharing d).members.map fun m => ⟨m.declaration, w.target d, m.values (w.slots d), none⟩

/-- Generated names are put into slots of the body, in their order. -/
structure FillsSlots (rules : LineRules) (c : Declaration) (fills : List (Slot × Text)) : Prop where
  fits : ∀ fill ∈ fills, ∃ form i t, fill.1.Fits (.of rules c) form i t
  ordered : fills.Pairwise fun fill other => fill.1.before other.1 = true
  generated : ∀ fill ∈ fills, ∃ n, fill.2 = nameAt n

/-- What fills a slot of a helper is a name. -/
theorem FillsSlots.names {rules : LineRules} {c : Declaration} {fills : List (Slot × Text)}
    (h : FillsSlots rules c fills) : ∀ fill ∈ fills, IsName fill.2 := by
  intro fill hfill
  obtain ⟨n, hn⟩ := h.generated fill hfill
  exact hn ▸ isName_nameAt n

/-- The helper of a group has names for the slots of its canonical body.  The slots are in the
order of the body, and each of them gets the next name of the supply. -/
theorem Work.fillsSlots {d : Detection} {w : Work} :
    ∀ c ∈ w.changes d, ∀ fills ∈ c.fills, FillsSlots d.rules c.declaration fills := by
  intro c hc fills hfills
  rcases List.mem_append.mp hc with hc | hc
  · split at hc
    · obtain rfl := List.mem_singleton.mp hc
      cases hfills
      refine ⟨fun fill hfill => exists_fits (List.of_mem_zip hfill).1, ?_, fun fill hfill =>
        (w.names.fresh.2.handsOut_freshList _).exists_number _ (List.of_mem_zip hfill).2⟩
      have hordered := w.pairwise_slots d
      rw [← List.map_fst_zip (Nat.le_of_eq (w.length_slotParams d).symm), List.pairwise_map]
        at hordered
      exact hordered
    · cases hc
  · obtain ⟨m, _, rfl⟩ := List.mem_map.mp hc
    cases hfills

/-- The edits of a plan are those of its changes. -/
theorem Work.edits_eq (layout : Layout) (d : Detection) (w : Work) :
    w.edits layout d = (w.changes d).map (Change.edit layout) := by
  have hmember : ∀ m : Member, Change.edit layout
      ⟨m.declaration, w.target d, m.values (w.slots d), none⟩ =
        m.declaration.replaceBy (w.memberText layout d m) := by
    intro m
    simp [Change.edit, Change.text, memberText]
  unfold edits changes
  rw [List.map_append, List.map_map]
  split
  · simp only [List.map_cons, List.map_nil, Function.comp_def, hmember]
    simp [Change.edit, Change.text, canonicalText]
  · simp only [List.map_nil, Function.comp_def, hmember]

/-- The edits of a plan are those of the changes of its works. -/
theorem Plan.Does.edits_eq_map {layout : Layout} {d : Detection} {p : Plan} {works : List Work}
    (h : p.Does layout d works) :
    p.edits = (works.flatMap (Work.changes d)).map (Change.edit layout) := by
  rw [h.edits_eq, List.map_flatMap]
  exact List.flatMap_congr fun w _ => w.edits_eq layout d

/-! ### Changes of a plan are sound -/

/-- A function that has a name can be called by it.  A nameless default export is called `default`,
which is no name to call. -/
theorem Parts.Found.isName {p : Parts} (h : p.Found) (halone : Spells none p.alone [])
    {normalize : Bool} {index : Nat} {scope : Option Nat}
    (hname : (p.read normalize index scope).name ≠ "default".toList) :
    IsName (p.read normalize index scope).name := by
  obtain ⟨_, hwell⟩ := h.wellFormed
  cases hident : p.ident with
  | none => exact absurd (by rw [Parts.read, hident]; rfl) hname
  | some t =>
    have hkind := hwell.ident t hident
    have hmem : t ∈ p.alone := by simp [Parts.alone, Parts.signature, hident]
    obtain ⟨_, _, hreads⟩ := halone.exists_reads t hmem
    rw [hkind] at hreads
    have hread : IsName t.text := hreads.alone.behind fun hslash =>
      absurd hslash (head?_ne_slash_of_reads hreads (by decide) (by decide))
    rw [Parts.read, hident]
    exact hread

/-- What stands in the way of a group does not.  It is neither asynchronous nor a generator, its
parameters can be passed on, and it has a name to call it by. -/
theorem groupObstacle?_eq_none {rules : LineRules} {c : Declaration}
    (h : groupObstacle? (.of rules c) = none) : c.flavor = .plain ∧
      (∃ passed, c.passedParams? = some passed) ∧ c.name ≠ "default".toList := by
  unfold groupObstacle? at h
  have hsame : (FunctionForm.of rules c).declaration = c := rfl
  dsimp only at h
  rw [hsame] at h
  generalize "default".toList = word at h ⊢
  split at h
  · cases h
  rename_i hplain
  split at h
  · cases h
  split at h
  · cases h
  rename_i hpassed
  split at h
  · cases h
  rename_i hname
  refine ⟨not_not.mp hplain, ?_, hname⟩
  rw [← Option.isSome_iff_exists]
  exact Option.isSome_iff_ne_none.mpr (by simpa using hpassed)

/-- Functions with one signature are declared in the same way. -/
theorem flavor_eq_of_signature {rules : LineRules} {c d : Declaration}
    (h : c.signature rules = d.signature rules) : c.flavor = d.flavor := by
  have hflavor := congrArg Signature.flavor h
  unfold Declaration.signature at hflavor
  split at hflavor <;> exact hflavor

/-- The functions that are changed are declared. -/
theorem Work.Sound.mem_declarations {d : Detection} {w : Work} (h : w.Sound d) :
    ∀ c ∈ w.changes d, c.declaration ∈ d.declarations := by
  intro c hc
  rcases List.mem_append.mp hc with hc | hc
  · split at hc
    · obtain rfl := List.mem_singleton.mp hc
      exact List.mem_of_getElem? h.canonical_eq
    · cases hc
  · obtain ⟨m, hm, rfl⟩ := List.mem_map.mp hc
    exact List.mem_of_getElem? ((w.sound_sharing d).assessed m hm).1

/-- The changes of a group are sound.  Each of them calls the function that is shared by a name
that is an identifier, with a value for each slot. -/
theorem Work.Sound.sound_changes {d : Detection} {w : Work} (h : w.Sound d)
    (hnames : ∀ c ∈ d.declarations, c.name ≠ "default".toList → IsName c.name) :
    ∀ c ∈ w.changes d, c.Sound d.declarations := by
  have hmem := List.mem_of_getElem? h.canonical_eq
  obtain ⟨hplain, hpassed, hdefault⟩ := groupObstacle?_eq_none h.no_obstacle
  have htarget : IsName (w.target d) := by
    unfold target
    split
    · exact isName_fresh _
    · exact hnames _ hmem hdefault
  intro c hc
  rcases List.mem_append.mp hc with hc | hc
  · by_cases hhas : w.hasHelper d = true
    · rw [if_pos hhas, List.mem_singleton] at hc
      subst hc
      refine ⟨hmem, hplain, hpassed, isName_fresh _, ?_⟩
      intro text htext
      obtain ⟨slot, hslot, rfl⟩ := List.mem_map.mp htext
      exact passes_of_mem_slots hslot
    · rw [if_neg hhas] at hc
      cases hc
  · obtain ⟨m, hm, rfl⟩ := List.mem_map.mp hc
    obtain ⟨hmember, hassess⟩ := (w.sound_sharing d).assessed m hm
    obtain ⟨_, hpassed', hsignature, _⟩ := assessed_of_assess hassess
    have hflavor : w.canonical.flavor = m.declaration.flavor := flavor_eq_of_signature hsignature
    exact ⟨List.mem_of_getElem? hmember, hflavor.symm.trans hplain, hpassed', htarget,
      passes_of_mem_values hm⟩

/-! ### No function is changed twice -/

/-- Members are numbered as they are declared. -/
theorem Work.index_of_mem {d : Detection} {w : Work}
    (hindex : ∀ (i : Nat) (c : Declaration), d.declarations[i]? = some c → c.index = i)
    {m : Member} (hm : m ∈ (w.sharing d).members) : m.declaration.index = m.index :=
  hindex _ _ ((w.sound_sharing d).assessed m hm).1

/-- The functions that are changed for a group are members of it. -/
theorem Work.sublist_members {d : Detection} {w : Work} (h : w.Sound d)
    (hindex : ∀ (i : Nat) (c : Declaration), d.declarations[i]? = some c → c.index = i) :
    ((w.changes d).map fun c => c.declaration.index).Sublist w.group.members := by
  have hmembers : ((w.sharing d).members.map fun m => m.declaration.index).Sublist
      w.group.others := by
    rw [List.map_congr_left fun m hm => index_of_mem hindex hm]
    exact sublist_others_of_shareGroup d _ w.group
  unfold changes
  rw [List.map_append, List.map_map]
  split
  · have hcanonical : w.canonical.index = w.group.canonical := hindex _ _ h.canonical_eq
    simp only [List.map_cons, List.map_nil, hcanonical]
    exact hmembers.cons_cons _
  · exact hmembers.cons _

/-- The changes of a group are calls as they are reported.  The canonical function is among them if
and only if there is a helper for it to call. -/
theorem Work.calls_eq {d : Detection} {w : Work} (h : w.Sound d)
    (hindex : ∀ (i : Nat) (c : Declaration), d.declarations[i]? = some c → c.index = i) :
    (w.changes d).map Change.call = (w.shared d).calls d.declarations := by
  have hmembers : ∀ target : Text, ((w.sharing d).members.map fun m =>
      Change.mk m.declaration target (m.values (w.slots d)) none).map Change.call =
        ((w.sharing d).members.map Member.index).map fun i => (i, target, false) := by
    intro target
    rw [List.map_map, List.map_map]
    refine List.map_congr_left fun m hm => ?_
    simp [Change.call, index_of_mem hindex hm]
  unfold changes target shared SharedBody.calls
  rw [List.map_append]
  by_cases hhas : w.hasHelper d = true
  · simp only [if_pos hhas, hmembers]
    have hcanonical : w.canonical.index = w.group.canonical := hindex _ _ h.canonical_eq
    simp [Change.call, hcanonical]
  · simp only [if_neg hhas, hmembers]
    simp [h.canonical_eq]

/-- **No function is changed twice**, because no function is in two groups.  The numbers of the
changes are the members of some groups, and the groups are apart. -/
theorem nodup_changes {options : Options} {ds : List Declaration} {works : List Work}
    (hindex : ∀ (i : Nat) (c : Declaration), ds[i]? = some c → c.index = i)
    (hsound : ∀ w ∈ works, w.Sound (Detection.of options ds))
    (hsub : (works.map Work.group).Sublist (Detection.of options ds).duplicates) :
    ((works.flatMap (Work.changes (Detection.of options ds))).map
      fun c => c.declaration.index).Nodup := by
  have hgroups : ((Detection.of options ds).groups.flatMap Group.members).Nodup :=
    (components_ofEdges ds.length (searchEdges (candidates options ds)).edges).nodup_members
  rw [List.map_flatMap]
  refine hgroups.sublist ?_
  have hmembers := List.Sublist.flatMap_right works fun w hw =>
    Work.sublist_members (hsound w hw) hindex
  have hworks := (hsub.trans List.filter_sublist).flatMap Group.members
  rw [List.flatMap_map] at hworks
  exact hmembers.trans hworks

/-- The edits of changes are in different places. -/
theorem ascending_edits {layout : Layout} {changes : List Change} {source : Text}
    {ds : List Declaration} (hstand : StandIn 0 source ds)
    (hnodup : (changes.map fun c => c.declaration.index).Nodup)
    (hmem : ∀ c ∈ changes, c.declaration ∈ ds) :
    Ascending (sortList (fun e f => e.start < f.start) (changes.map (Change.edit layout))) := by
  refine ascending_sortList (List.pairwise_map.mpr ((List.pairwise_map.mp hnodup).imp_of_mem ?_))
  intro c c' hc hc' hne hstart
  exact hne (congrArg Declaration.index (hstand.eq_of_start (hmem c hc) (hmem c' hc') hstart))

/-- The edits of changes replace the functions that are changed, wherever these are extracted.  A
change is told by the number of its function, so the place of the function tells the edit. -/
theorem mem_edits_iff {layout : Layout} {changes : List Change} {ds : List Declaration}
    (hnodup : (changes.map fun c => c.declaration.index).Nodup)
    (hplace : ∀ c ∈ changes, ∃ d ∈ ds, d.index = c.declaration.index ∧
      d.start = c.declaration.start ∧ d.stop = c.declaration.stop)
    (hindex : ∀ d ∈ ds, ∀ d' ∈ ds, d.index = d'.index → d = d') (e : Edit) :
    e ∈ sortList (fun e f => e.start < f.start) (changes.map (Change.edit layout)) ↔
      ∃ d ∈ ds, ∃ new, (changeOf changes d.index).map (Change.text layout) = some new ∧
        e = ⟨d.start, d.stop, new⟩ := by
  rw [mem_sortList, List.mem_map]
  constructor
  · rintro ⟨c, hc, rfl⟩
    obtain ⟨d, hd, hsame, hstart, hstop⟩ := hplace c hc
    have hfound := (changeOf_eq_some_iff hnodup).mpr ⟨hc, hsame.symm⟩
    refine ⟨d, hd, c.text layout, congrArg (Option.map (Change.text layout)) hfound, ?_⟩
    rw [hstart, hstop]
    rfl
  · rintro ⟨d, hd, new, hnew, rfl⟩
    obtain ⟨c, hfound, rfl⟩ := Option.map_eq_some_iff.mp hnew
    obtain ⟨hc, hsame⟩ := (changeOf_eq_some_iff hnodup).mp hfound
    obtain ⟨d', hd', hsame', hstart, hstop⟩ := hplace c hc
    obtain rfl := hindex d' hd' d hd (hsame'.trans hsame)
    refine ⟨c, hc, ?_⟩
    rw [hstart, hstop]
    rfl

/-! ### What a plan comes to -/

/-- The plan makes these changes. -/
structure Plan.Makes (layout : Layout) (d : Detection) (p : Plan) (changes : List Change) :
    Prop where
  edits_eq : p.edits = changes.map (Change.edit layout)
  calls_eq : changes.map Change.call = p.shared.flatMap (SharedBody.calls d.declarations)
  nodup : (changes.map fun c => c.declaration.index).Nodup
  mem : ∀ c ∈ changes, c.declaration ∈ d.declarations
  filled : ∀ c ∈ changes, ∀ fills ∈ c.fills, FillsSlots d.rules c.declaration fills

/-- Declarations are numbered in their order, in a region as well. -/
theorem index_of_getElem?_declarations {source : Text} {options : Options} {ts : List Token}
    {ds : List Declaration} (hts : tokenize source = .ok ts)
    (hds : declarations source options = .ok ds) {i : Nat} {c : Declaration}
    (hc : ds[i]? = some c) : c.index = i := by
  obtain ⟨_, items, _, _, _, rfl⟩ := exists_items_of_declarations hts hds
  exact (getElem?_declarationsOf_iff.mp hc).2

/-- The number of a declaration is its position. -/
theorem getElem?_index_of_mem {source : Text} {options : Options} {ts : List Token}
    {ds : List Declaration} (hts : tokenize source = .ok ts)
    (hds : declarations source options = .ok ds) {c : Declaration} (hc : c ∈ ds) :
    ds[c.index]? = some c := by
  obtain ⟨i, hi⟩ := List.getElem?_of_mem hc
  rwa [index_of_getElem?_declarations hts hds hi]

/-- **Every plan makes changes.**  Without a region they are sound.  The changes are those of the
works that the plan does, one after the other. -/
theorem exists_changes_of_plan {source : Text} {options : Options} {d : Detection}
    {layout : Layout} {p : Plan} (hdetect : detect source options = .ok d)
    (hplan : plan source d layout = .ok p) :
    ∃ changes, p.Makes layout d changes ∧
      (options.region = none → ∀ c ∈ changes, c.Sound d.declarations) := by
  obtain ⟨works, hdoes, hsub⟩ := exists_works_of_plan hplan
  obtain ⟨ts, hts⟩ := exists_tokens_of_plan hplan
  have hds := declarations_of_detect hdetect
  have hindex : ∀ (i : Nat) (c : Declaration), d.declarations[i]? = some c → c.index = i :=
    fun i c hc => index_of_getElem?_declarations hts hds hc
  refine ⟨works.flatMap (Work.changes d), ⟨hdoes.edits_eq_map, ?_, ?_, ?_, ?_⟩, ?_⟩
  · rw [hdoes.shared_eq, List.map_flatMap, List.flatMap_map]
    exact List.flatMap_congr fun w hw => Work.calls_eq (hdoes.sound w hw) hindex
  · obtain ⟨ds, _, rfl⟩ := exists_of_detect hdetect
    exact nodup_changes hindex hdoes.sound hsub
  · intro c hc
    obtain ⟨w, hw, hc⟩ := List.mem_flatMap.mp hc
    exact (hdoes.sound w hw).mem_declarations c hc
  · intro c hc
    obtain ⟨w, _, hc⟩ := List.mem_flatMap.mp hc
    exact Work.fillsSlots c hc
  · intro hregion c hc
    have hnames : ∀ c ∈ d.declarations, c.name ≠ "default".toList → IsName c.name := by
      intro c hc hname
      obtain ⟨q, scope, hfound, halone, hread⟩ := exists_alone_of_declarations hregion hds c hc
      rw [hread] at hname ⊢
      exact hfound.isName halone hname
    obtain ⟨w, hw, hc⟩ := List.mem_flatMap.mp hc
    exact (hdoes.sound w hw).sound_changes hnames c hc

end Twinfold
