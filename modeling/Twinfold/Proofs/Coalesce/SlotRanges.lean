import Twinfold.Proofs.Coalesce.Accounts
import Twinfold.Proofs.Coalesce.Helpers
import Twinfold.Proofs.Text.Splice

/-!
# Slots never overlap

The slots that the members of a group ask for are tokens of the canonical body, so two of them in
one line are in one place or lie apart (`Slot.IsTokenOf.same_or_apart`), and no member is kept
because its slot overlaps another one.

In the canonical body the slots are parts that lie one behind the other.  So the edits that put
names into them can be carried out from the back to the front, and the result is the body in which
all of them are replaced at once (`ReplacesSlots`).

* `slots_never_overlap` — this holds for all groups of a detection, and for all helpers of a plan.
-/

namespace Twinfold

/-! ### Places in a line -/

/-- No byte is in both spans. -/
def Span.Apart (s t : Span) : Prop := s.stop ≤ t.start ∨ t.stop ≤ s.start

/-- **Tokens of one line** are in one place or lie apart.  They are two tokens of one list, in
which each one ends before the next one starts. -/
theorem Slot.IsTokenOf.same_or_apart {s t : Slot} {c : Declaration} (hs : s.IsTokenOf c)
    (ht : t.IsTokenOf c) (hline : s.line = t.line) : s.span = t.span ∨ s.span.Apart t.span := by
  obtain ⟨_, ts, u, v, hts, hu, hv, hspan, hspan'⟩ := hs.exists_tokens ht hline
  rw [hspan, hspan']
  have happart := (pairwise_of_tokenize hts).1
  obtain ⟨i, hi, rfl⟩ := List.getElem_of_mem hu
  obtain ⟨j, hj, rfl⟩ := List.getElem_of_mem hv
  rcases Nat.lt_trichotomy i j with hlt | rfl | hlt
  · exact .inr (.inl (List.pairwise_iff_getElem.mp happart i j hi hj hlt))
  · exact .inl rfl
  · exact .inr (.inr (List.pairwise_iff_getElem.mp happart j i hj hi hlt))

/-- Slots are tokens of one line, and two tokens of a line are one and the same or do not overlap.
-/
theorem Slot.IsTokenOf.overlaps_eq_false {s t : Slot} {c : Declaration} (hs : s.IsTokenOf c)
    (ht : t.IsTokenOf c) : s.overlaps t = false := by
  rw [← Bool.not_eq_true]
  intro hoverlaps
  simp only [overlaps, Bool.and_eq_true, decide_eq_true_eq] at hoverlaps
  obtain ⟨⟨⟨hline, hne⟩, hlow⟩, hhigh⟩ := hoverlaps
  rcases hs.same_or_apart ht hline with hsame | hapart | hapart
  · exact hne hsame
  · omega
  · omega

/-! ### Why members are kept -/

/-- What a member differs in is a token of the canonical body. -/
theorem isTokenOf_of_assess {rules : LineRules} {c : Declaration} {member : FunctionForm}
    {slot : Slot} {value : Text} (h : assess (.of rules c) member = .ok (some (slot, value))) :
    slot.IsTokenOf c := by
  obtain ⟨_, _, _, hassessed⟩ := assessed_of_assess h
  cases hassessed with
  | differs _ _ _ _ _ _ _ _ hfits => exact hfits.isTokenOf

/-- The comparison of a member does not look at other slots. -/
theorem assess_ne_slotOverlap (canonical member : FunctionForm) :
    assess canonical member ≠ .error .slotOverlap := by
  intro h
  unfold assess at h
  split at h
  · cases h
  · split at h
    · cases h
    · split at h <;> cases h

/-- Overlapping slots are no obstacle for a whole group. -/
theorem groupObstacle?_ne_slotOverlap (canonical : FunctionForm) :
    groupObstacle? canonical ≠ some .slotOverlap := by
  unfold groupObstacle?
  dsimp only
  split_ifs <;> decide

/-- There is room for a token among tokens. -/
theorem exists_addSlot {c : Declaration} {slots : List Slot} {slot : Slot}
    (hslots : ∀ other ∈ slots, other.IsTokenOf c) (hslot : slot.IsTokenOf c) :
    ∃ more, Sharing.addSlot slots slot = .ok more := by
  have hnone : slots.any slot.overlaps = false := by
    rw [List.any_eq_false]
    intro other hother
    rw [hslot.overlaps_eq_false (hslots other hother)]
    exact Bool.false_ne_true
  unfold Sharing.addSlot
  rw [hnone]
  split <;> exact ⟨_, rfl⟩

/-- No member is kept because its slot overlaps another one. -/
def NoneOverlaps (kept : List Kept) : Prop := ∀ k ∈ kept, k.reason ≠ .slotOverlap

theorem NoneOverlaps.append {kept kept' : List Kept} (h : NoneOverlaps kept)
    (h' : NoneOverlaps kept') : NoneOverlaps (kept ++ kept') :=
  List.forall_mem_append.mpr ⟨h, h'⟩

/-- **One more member** is not kept for its slot.  All slots are tokens of the canonical function,
and two tokens are the same or lie apart. -/
theorem Sharing.Sound.noneOverlaps_add {rules : LineRules} {c : Declaration}
    {ds : List Declaration} {s : Sharing} (hsound : s.Sound (.of rules c) ds rules)
    (h : NoneOverlaps s.kept) (canonicalIndex index : Nat) (member : FunctionForm) :
    NoneOverlaps (s.add canonicalIndex (.of rules c) index member).kept := by
  unfold Sharing.add
  rcases hassess : assess (.of rules c) member with reason | _ | ⟨slot, value⟩
  · refine h.append fun k hk => ?_
    obtain rfl := List.mem_singleton.mp hk
    rintro rfl
    exact assess_ne_slotOverlap _ _ hassess
  · exact h
  · have hslots : ∀ other ∈ s.slots, other.IsTokenOf c := by
      intro other hother
      obtain ⟨_, _, _, hfits⟩ := hsound.fits other hother
      exact hfits.isTokenOf
    obtain ⟨more, hmore⟩ := exists_addSlot hslots (isTokenOf_of_assess hassess)
    simp only [bind, Except.bind, hmore]
    exact h

/-- The members of a group. -/
theorem noneOverlaps_shareGroup (d : Detection) (c : Declaration) (group : Group) :
    NoneOverlaps (shareGroup d (.of d.rules c) group).kept := by
  obtain ⟨canonical, others⟩ := group
  induction others using List.reverseRecOn with
  | nil => simp [NoneOverlaps, shareGroup]
  | append_singleton others i ih =>
    have hsound := sound_shareGroup d (.of d.rules c) ⟨canonical, others⟩
    unfold shareGroup at ih hsound ⊢
    rw [List.foldl_append, List.foldl_cons, List.foldl_nil]
    split
    · exact hsound.noneOverlaps_add ih _ _ _
    · exact ih

section

variable {layout : Layout} {d : Detection}

/-- One more group.  Its members are either all kept, for the reason of the group, or entered one
by one. -/
theorem NoneOverlaps.addGroup {p : Plan} (h : NoneOverlaps p.kept) (canonical : Declaration)
    (group : Group) (names : NameSupply) :
    NoneOverlaps (p.addGroup layout d canonical group names).1.kept := by
  unfold Plan.addGroup
  dsimp only
  split
  · rename_i reason hobstacle
    refine h.append fun k hk => ?_
    obtain ⟨i, _, rfl⟩ := List.mem_map.mp hk
    rintro rfl
    exact groupObstacle?_ne_slotOverlap _ hobstacle
  · have hgroup := h.append (noneOverlaps_shareGroup d canonical group)
    split
    · exact hgroup
    · unfold Plan.addShared
      dsimp only
      split <;> exact hgroup

/-- Going through the groups keeps no member because of overlapping slots. -/
theorem NoneOverlaps.addGroups (groups : List Group) {p : Plan} (h : NoneOverlaps p.kept)
    (names : NameSupply) : NoneOverlaps (Plan.addGroups layout d groups p names).kept := by
  induction groups generalizing p names with
  | nil => exact h
  | cons group groups ih =>
    unfold Plan.addGroups
    split
    · exact ih h names
    · exact ih (h.addGroup _ _ _) _

/-- **Plans keep no member for its slot.**  The reason that slots overlap is never given, in no
group of no source text. -/
theorem noneOverlaps_of_plan {source : Text} {p : Plan} (h : plan source d layout = .ok p) :
    NoneOverlaps p.kept := by
  obtain ⟨ts, hts⟩ := exists_tokens_of_plan h
  simp only [plan, hts, Except.map, Except.ok.injEq] at h
  subst h
  exact NoneOverlaps.addGroups d.duplicates (by simp [NoneOverlaps]) _

end

/-! ### Slots in the canonical body -/

/-- The text is the body with names in the places of the slots. -/
structure ReplacesSlots (c : Declaration) (fills : List (Slot × Text)) (text : Text) : Prop where
  /-- For each slot there is an edit of the part of the body that is the slot. -/
  held : List.Forall₂ (fun e fill => e.Replaces 0 c.body fill.1.text ∧ e.text = fill.2)
    (Layout.slotEdits c fills) fills
  /-- All of the slots are replaced at once. -/
  at_once : ∃ chunks, oldText chunks = c.body ∧ editsOf 0 chunks = Layout.slotEdits c fills ∧
    newText chunks = text
  /-- They are replaced from the back to the front, one after the other. -/
  in_turn : ∀ edits : List Edit, edits.Perm (Layout.slotEdits c fills) →
    (edits.Pairwise fun e f => f.start ≤ e.start) →
      edits.foldlM Text.replace? c.body = some text

section

variable {c : Declaration} {fills : List (Slot × Text)}

/-- The edit for a slot is of the part of the body that is the slot.  Positions in a line and
positions in the body differ by the place of the line. -/
theorem Slot.IsTokenOf.replaces {fill : Slot × Text} (h : fill.1.IsTokenOf c)
    (hlines : LinesIn c.bodyStart c.body c.lines) {line : LogicalLine}
    (hline : c.lines[fill.1.line]? = some line) :
    (slotEdit c fill line).Replaces 0 c.body fill.1.text := by
  obtain ⟨line', us, u, hline', hus, hu, hspan, htext⟩ := h
  cases hline.symm.trans hline'
  obtain ⟨before, rest, hbody, hlow, _⟩ := hlines.exists_split line (List.mem_of_getElem? hline)
  obtain ⟨front, behind, hfront, hplace⟩ := (placed_of_tokenize hus).exists_split u hu
  obtain ⟨closing, hclosing⟩ := exists_closing_of_tokenize hus
  have hstop : u.stop = u.start + u.text.size := rfl
  refine ⟨before ++ front, behind ++ (closing ++ rest), ?_, ?_, ?_⟩
  · rw [hbody, hclosing, hfront, htext]
    simp only [List.append_assoc]
  · rw [slotEdit, hspan, Text.size_append]
    dsimp only
    omega
  · rw [slotEdit, hspan, htext]
    dsimp only
    omega

/-- Every slot has its edit. -/
theorem forall₂_slotEdits (hlines : LinesIn c.bodyStart c.body c.lines)
    (htoken : ∀ fill ∈ fills, fill.1.IsTokenOf c) :
    List.Forall₂ (fun e fill => e.Replaces 0 c.body fill.1.text ∧ e.text = fill.2)
      (Layout.slotEdits c fills) fills := by
  induction fills with
  | nil => exact .nil
  | cons fill fills ih =>
    obtain ⟨hfill, htoken⟩ := List.forall_mem_cons.mp htoken
    obtain ⟨line, hline⟩ : ∃ line, c.lines[fill.1.line]? = some line := by
      obtain ⟨line, _, _, hline, _⟩ := hfill
      exact ⟨line, hline⟩
    have hmore := ih htoken
    rw [slotEdits_eq] at hmore ⊢
    rw [List.filterMap_cons, hline, Option.map_some]
    exact .cons ⟨hfill.replaces hlines hline, rfl⟩ hmore

/-- The edits for slots in the order of the body lie one behind the other.  Slots on one line are
apart as tokens are, and lines follow each other. -/
theorem pairwise_slotEdits (hlines : LinesIn c.bodyStart c.body c.lines)
    (htoken : ∀ fill ∈ fills, fill.1.IsTokenOf c)
    (hordered : fills.Pairwise fun fill other => fill.1.before other.1 = true) :
    (Layout.slotEdits c fills).Pairwise fun e f => e.stop ≤ f.start := by
  rw [slotEdits_eq, List.pairwise_filterMap]
  refine hordered.imp_of_mem ?_
  intro fill other hfill hother hbefore e he f hf
  obtain ⟨line, hline, rfl⟩ := Option.map_eq_some_iff.mp he
  obtain ⟨line', hline', rfl⟩ := Option.map_eq_some_iff.mp hf
  obtain ⟨hlow, hpos, hhigh⟩ := (htoken fill hfill).bounds hlines hline
  obtain ⟨hlow', hpos', hhigh'⟩ := (htoken other hother).bounds hlines hline'
  dsimp only [slotEdit]
  rcases Slot.lines_of_before hlines hbefore hline hline' with hbehind | ⟨heq, rfl, hlt⟩
  · omega
  · rcases (htoken fill hfill).same_or_apart (htoken other hother) heq with hsame | hapart | hapart
    · rw [hsame] at hlt
      omega
    · omega
    · omega

/-- **Names are put into slots** at once, or one after the other from the back to the front.  From
the back to the front, no edit moves the place of one that is still to come. -/
theorem replacesSlots_splice (hlines : LinesIn c.bodyStart c.body c.lines)
    (htoken : ∀ fill ∈ fills, fill.1.IsTokenOf c)
    (hordered : fills.Pairwise fun fill other => fill.1.before other.1 = true) :
    ReplacesSlots c fills (Text.splice 0 (Layout.slotEdits c fills) c.body) := by
  have hold : ∀ e ∈ Layout.slotEdits c fills, ∃ old, e.Replaces 0 c.body old := by
    intro e he
    obtain ⟨fill, hfill, line, hline, rfl⟩ := mem_slotEdits.mp he
    exact ⟨_, (htoken fill hfill).replaces hlines hline⟩
  obtain ⟨chunks, hbody, hedits⟩ := exists_chunks hold (pairwise_slotEdits hlines htoken hordered)
  have hsplice : Text.splice 0 (Layout.slotEdits c fills) c.body = newText chunks := by
    rw [← hbody, ← hedits]
    exact splice_edits chunks
  refine ⟨forall₂_slotEdits hlines htoken, ⟨chunks, hbody, hedits, hsplice.symm⟩,
    fun edits hperm hdescending => ?_⟩
  have hascending := ascending_slotEdits hlines htoken hordered
  rw [← hedits] at hperm hascending
  rw [hsplice, ← hbody]
  exact foldlM_replace? hascending hperm hdescending

end

/-! ### The slots of a group -/

/-- A member of the group differs from the canonical function in the slot. -/
def AsksFor (d : Detection) (c : Declaration) (group : Group) (slot : Slot) : Prop :=
  ∃ i ∈ group.others, ∃ m value, d.declarations[i]? = some m ∧
    assess (.of d.rules c) (.of d.rules m) = .ok (some (slot, value))

/-- The slots that are collected are those that members ask for. -/
theorem asksFor_of_mem_slots {d : Detection} {c : Declaration} {group : Group} {slot : Slot}
    (h : slot ∈ (shareGroup d (.of d.rules c) group).slots) : AsksFor d c group slot := by
  obtain ⟨m, hm, value, hdifference⟩ :=
    (used_shareGroup d (.of d.rules c) group).used slot h
  obtain ⟨hmember, hassess⟩ := (sound_shareGroup d (.of d.rules c) group).assessed m hm
  rw [hdifference] at hassess
  have hothers := (sublist_others_of_shareGroup d (.of d.rules c) group).subset
    (List.mem_map_of_mem hm)
  exact ⟨m.index, hothers, m.declaration, value, hmember, hassess⟩

/-- **Slots never overlap.**  All slots that the members of a group ask for are tokens of the
canonical body, and two of them in one line are in one place or lie apart.  So no member is kept
because its slot overlaps another one, and in every helper the names can be put into the slots one
after the other, from the back to the front, as well as at once. -/
theorem slots_never_overlap {source : Text} {options : Options} {d : Detection} {layout : Layout}
    {p : Plan} (hdetect : detect source options = .ok d) (hplan : plan source d layout = .ok p) :
    (∀ group ∈ d.duplicates, ∀ c, d.declarations[group.canonical]? = some c →
      (∀ s ∈ (shareGroup d (.of d.rules c) group).slots, AsksFor d c group s) ∧
      ∀ s t, AsksFor d c group s → AsksFor d c group t →
        s.IsTokenOf c ∧ (s.line = t.line → s.span = t.span ∨ s.span.Apart t.span)) ∧
    (∀ k ∈ p.kept, k.reason ≠ .slotOverlap) ∧
    ∀ g ∈ p.shared, ∀ helper, g.helper = some helper →
      ∃ group ∈ d.duplicates, group.canonical = g.canonical ∧ ∃ c fills front body,
        d.declarations[g.canonical]? = some c ∧
        fills.map Prod.fst = sortList Slot.before (shareGroup d (.of d.rules c) group).slots ∧
        c.replaceBy (front ++ layout.helperHead helper (fills.map Prod.snd ++ c.params) ++ body) ∈
          p.edits ∧
        ReplacesSlots c fills body := by
  refine ⟨fun group _ c _ => ⟨fun s hs => asksFor_of_mem_slots hs, ?_⟩,
    noneOverlaps_of_plan hplan, ?_⟩
  · rintro s t ⟨_, _, _, _, _, hs⟩ ⟨_, _, _, _, _, ht⟩
    have hs := isTokenOf_of_assess hs
    exact ⟨hs, hs.same_or_apart (isTokenOf_of_assess ht)⟩
  · obtain ⟨works, hdoes, hworks⟩ := exists_works_of_plan hplan
    obtain ⟨ts, hts⟩ := exists_tokens_of_plan hplan
    intro g hg helper hhelper
    rw [hdoes.shared_eq] at hg
    obtain ⟨w, hw, rfl⟩ := List.mem_map.mp hg
    have hsound := hdoes.sound w hw
    simp only [Work.shared, Option.ite_none_right_eq_some, Option.some.injEq] at hhelper
    obtain ⟨hhas, rfl⟩ := hhelper
    obtain ⟨us, hread⟩ := bodyRead_of_declarations hts (declarations_of_detect hdetect) w.canonical
      (List.mem_of_getElem? hsound.canonical_eq)
    have hslots : ((w.slots d).zip (w.slotParams d)).map Prod.fst = w.slots d :=
      List.map_fst_zip (Nat.le_of_eq (w.length_slotParams d).symm)
    have htoken : ∀ fill ∈ (w.slots d).zip (w.slotParams d), fill.1.IsTokenOf w.canonical :=
      isTokenOf_of_fits fun fill hfill => Work.exists_fits (List.of_mem_zip hfill).1
    have hordered : ((w.slots d).zip (w.slotParams d)).Pairwise
        fun fill other => fill.1.before other.1 = true := by
      have hpairwise := w.pairwise_slots d
      rw [← hslots, List.pairwise_map] at hpairwise
      exact hpairwise
    refine ⟨w.group, hworks.subset (List.mem_map_of_mem hw), rfl, w.canonical,
      (w.slots d).zip (w.slotParams d),
      layout.adapter w.canonical w.helperName ((w.slots d).map Slot.text) ++ layout.lineEnd, _,
      hsound.canonical_eq, hslots, ?_, replacesSlots_splice hread.lines htoken hordered⟩
    have hedit : w.canonical.replaceBy (w.canonicalText layout d) ∈ p.edits := by
      rw [hdoes.edits_eq]
      refine List.mem_flatMap_of_mem hw (List.mem_append_left _ ?_)
      rw [if_pos hhas]
      exact List.mem_cons_self
    rw [Work.canonicalText, helper_eq] at hedit
    simpa using hedit

/-- Three functions, two of which differ from the first in one place each of one line. -/
def twoSlots : Text :=
  ("function f()\x7breturn a(10,2)\x7dfunction g()\x7breturn a(3,2)\x7d" ++
    "function h()\x7breturn a(10,4)\x7d").toList

/-- Three functions that differ in two slots, which lie apart on two lines of the body.  No member
is kept, and the helper has a parameter for each of the two. -/
theorem never_overlap_twoSlots : ∃ d p, detect twoSlots {} = .ok d ∧
    plan twoSlots d ⟨true⟩ = .ok p ∧ p.shared = [⟨0, [1, 2], some ['$'], 2⟩] ∧ p.kept = [] ∧
    ∃ group ∈ d.duplicates, group.canonical = 0 ∧ ∃ c fills front body,
      d.declarations[0]? = some c ∧
      fills.map Prod.fst = sortList Slot.before (shareGroup d (.of d.rules c) group).slots ∧
      c.replaceBy (front ++ Layout.helperHead ⟨true⟩ ['$'] (fills.map Prod.snd ++ c.params) ++
        body) ∈ p.edits ∧
      ReplacesSlots c fills body := by
  have hrun : (runOn twoSlots ⟨true⟩).map (fun x => (x.2.shared, x.2.kept)) =
      some ([⟨0, [1, 2], some ['$'], 2⟩], []) := by
    decide +kernel
  obtain ⟨⟨d, r⟩, hresult, hfields⟩ := Option.map_eq_some_iff.mp hrun
  simp only [Prod.mk.injEq] at hfields
  obtain ⟨hdetect, hcoalesce⟩ := of_runOn hresult
  obtain ⟨p, _, hplan, _, _, rfl⟩ := coalesce_eq_ok_iff.mp hcoalesce
  obtain ⟨_, _, hhelpers⟩ := slots_never_overlap hdetect hplan
  have hshared : p.shared = [⟨0, [1, 2], some ['$'], 2⟩] := hfields.1
  have hkept : p.kept = [] := hfields.2
  have hmem : (⟨0, [1, 2], some ['$'], 2⟩ : SharedBody) ∈ p.shared := by simp [hshared]
  exact ⟨d, p, hdetect, hplan, hshared, hkept, hhelpers _ hmem ['$'] rfl⟩

end Twinfold
