import Mathlib.Data.List.Induction
import Twinfold.Coalesce.Plan
import Twinfold.Proofs.Similarity.Keys
import Twinfold.Proofs.Lists

/-!
# What the members of a group share

While the members of a group are assessed, slots are collected.  Each slot is a token of the
canonical body, no two of them are in one place, and every member has its own value in at most
one of them (`Sharing.Sound`, kept by every step: `Sharing.Sound.add`).

The values that a member passes, put into the slots of the canonical body, give the tokens of
the body of the member (`bodyTexts_of_values`).  This is about parameters that are compared by
name.
-/

namespace Twinfold

/-! ### Bodies as texts of tokens -/

/-- The texts of the tokens of a body, line by line. -/
def Declaration.bodyTexts (d : Declaration) : List LineTexts :=
  d.lines.map fun line => LineTexts.of line.text

/-- What stands at a token of a line when the slots are filled. -/
def filledText (fills : List (Slot × Text)) (line : Nat) (t : Token) : Text :=
  match fills.find? fun fill => fill.1.line = line && fill.1.span = ⟨t.start, t.stop⟩ with
  | some fill => fill.2
  | none => t.text

/-- The texts of a line in which the slots are filled. -/
def LineTexts.filled (fills : List (Slot × Text)) (number : Nat) (line : Text) : LineTexts :=
  match tokenize line with
  | .ok ts => .tokens (ts.map (filledText fills number))
  | .error _ => .unlexed line

/-- The texts of the tokens of a body in which the slots are filled, line by line. -/
def Declaration.filledTexts (d : Declaration) (fills : List (Slot × Text)) : List LineTexts :=
  d.lines.mapIdx fun number line => .filled fills number line.text

/-- A slot is a token of a body. -/
def Slot.IsTokenOf (s : Slot) (d : Declaration) : Prop :=
  ∃ line ts t, d.lines[s.line]? = some line ∧ tokenize line.text = .ok ts ∧ t ∈ ts ∧
    s.span = ⟨t.start, t.stop⟩ ∧ s.text = t.text

/-! ### Slots -/

/-- A slot is a token of a body that can be replaced by a parameter. -/
structure Slot.Fits (s : Slot) (f : FunctionForm) (line : LineForm) (i : Nat) (t : FormToken) :
    Prop where
  line_eq : f.lines[s.line]? = some line
  token_eq : line.tokens[i]? = some t
  span_eq : s.span = t.span
  text_eq : s.text = t.token.text
  replaceable : f.isReplaceableAt line i = true

theorem Slot.samePlace_iff {s t : Slot} :
    s.samePlace t = true ↔ s.line = t.line ∧ s.span = t.span := by
  simp [samePlace]

/-- A member can share the canonical body as it stands, or with a value in a slot. -/
inductive Assessed (canonical member : FunctionForm) : Option (Slot × Text) → Prop
  | identical (hkeys : canonical.keys = member.keys) : Assessed canonical member none
  | differs (slot : Slot) (l r : LineForm) (i : Nat) (t u : FormToken)
      (hlen : canonical.keys.length = member.keys.length)
      (herase : canonical.keys.eraseIdx slot.line = member.keys.eraseIdx slot.line)
      (hfits : slot.Fits canonical l i t) (hline : member.lines[slot.line]? = some r)
      (htoken : r.tokens[i]? = some u) (hreplaceable : member.isReplaceableAt r i = true)
      (hwords : r.tokens.map FormToken.word = (l.tokens.map FormToken.word).set i u.word) :
      Assessed canonical member (some (slot, u.token.text))

/-- What is found about a member that can share the canonical body.  The checks are gone through in
the order in which they are made, and what is left behind the last one is the agreement of the
lines. -/
theorem assessed_of_assess {canonical member : FunctionForm} {difference : Option (Slot × Text)}
    (h : assess canonical member = .ok difference) :
    member.declaration.scope = canonical.declaration.scope ∧
      (∃ passed, member.declaration.passedParams? = some passed) ∧
      canonical.signature = member.signature ∧ Assessed canonical member difference := by
  unfold assess at h
  split at h
  · cases h
  rename_i hscope
  split at h
  · cases h
  rename_i hpassed
  have hscope : member.declaration.scope = canonical.declaration.scope := not_not.mp hscope
  have hpassed : ∃ passed, member.declaration.passedParams? = some passed := by
    rw [← Option.isSome_iff_exists]
    exact Option.isSome_iff_ne_none.mpr (by simpa using hpassed)
  split at h
  · rename_i hcompare
    obtain ⟨hsig, hkeys⟩ := (compare_eq_identical_iff _ _).mp hcompare
    cases h
    exact ⟨hscope, hpassed, hsig, .identical hkeys⟩
  · rename_i number pair hcompare
    cases h
    obtain ⟨hsig, hedit, l, r, hl, hr, hexpr⟩ := FunctionForm.exists_of_compare_substituted hcompare
    obtain ⟨hlen, _, _, herase⟩ := lineEdit_eq_substituted_iff.mp hedit
    obtain ⟨i, t, u, ht, hu, rfl, hreplaceable, hreplaceable', hdiffer⟩ :=
      exists_of_expression hexpr.symm
    exact ⟨hscope, hpassed, hsig, .differs ⟨number, t.span, t.token.text⟩ l r i t u hlen herase
      ⟨hl, ht, rfl, rfl, hreplaceable⟩ hr hu hreplaceable'
      (FormToken.map_word_of_differOnlyAt hdiffer hu)⟩
  · cases h
  · cases h

/-! ### Collecting slots -/

/-- The slots in which members differ are slots of the canonical body, each in a place of its
own, and every member differs in one of them or in none. -/
structure Sharing.Sound (canonical : FunctionForm) (ds : List Declaration) (rules : LineRules)
    (s : Sharing) : Prop where
  fits : ∀ slot ∈ s.slots, ∃ line i t, slot.Fits canonical line i t
  apart : s.slots.Pairwise fun slot other => other.samePlace slot = false
  assessed : ∀ m ∈ s.members, ds[m.index]? = some m.declaration ∧
    assess canonical (.of rules m.declaration) = .ok m.difference
  own : ∀ m ∈ s.members, ∀ own value, m.difference = some (own, value) →
    ∃ slot ∈ s.slots, own.samePlace slot = true

/-- Entering a slot keeps the slots that are there and finds a place for it. -/
theorem Sharing.addSlot_cases {slots slots' : List Slot} {slot : Slot}
    (h : addSlot slots slot = .ok slots') :
    (slots' = slots ∧ ∃ other ∈ slots, slot.samePlace other = true) ∨
      (slots' = slots ++ [slot] ∧ ∀ other ∈ slots, slot.samePlace other = false) := by
  unfold addSlot at h
  split at h
  · rename_i hsame
    cases h
    exact .inl ⟨rfl, List.any_eq_true.mp hsame⟩
  · rename_i hsame
    split at h
    · cases h
    · cases h
      exact .inr ⟨rfl, by simpa using hsame⟩

/-- A member is entered with its slot, if it has one, or kept.  It is kept with the reason for
which it could not be assessed, or for which its slot could not be added. -/
theorem Sharing.add_cases (canonicalIndex : Nat) (canonical : FunctionForm) (s : Sharing)
    (index : Nat) (member : FunctionForm) :
    (∃ reason, s.add canonicalIndex canonical index member =
      { s with kept := s.kept ++ [⟨index, canonicalIndex, reason⟩] }) ∨
    (assess canonical member = .ok none ∧ s.add canonicalIndex canonical index member =
      { s with members := s.members ++ [⟨index, member.declaration, none⟩] }) ∨
    ∃ own value slots, assess canonical member = .ok (some (own, value)) ∧
      addSlot s.slots own = .ok slots ∧ s.add canonicalIndex canonical index member =
      { s with slots, members := s.members ++ [⟨index, member.declaration, some (own, value)⟩] } := by
  unfold add
  rcases hassess : assess canonical member with reason | _ | ⟨own, value⟩
  · exact .inl ⟨reason, rfl⟩
  · exact .inr (.inl ⟨rfl, rfl⟩)
  · rcases hslots : addSlot s.slots own with reason | slots
    · refine .inl ⟨reason, ?_⟩
      simp only [bind, Except.bind, hslots]
    · refine .inr (.inr ⟨own, value, slots, rfl, hslots, ?_⟩)
      simp only [bind, Except.bind, hslots]

/-- A member differs from the canonical function in a slot of the canonical body. -/
theorem exists_fits_of_assess {canonical member : FunctionForm} {own : Slot} {value : Text}
    (h : assess canonical member = .ok (some (own, value))) :
    ∃ line i t, own.Fits canonical line i t := by
  obtain ⟨_, _, _, hdiffers⟩ := assessed_of_assess h
  cases hdiffers with
  | differs _ l r i t u _ _ hfits => exact ⟨l, i, t, hfits⟩

/-- **Soundness is kept** by every member that is assessed.  A member is entered with a slot that
is there, with a new one that lies apart from all others, or not at all. -/
theorem Sharing.Sound.add {canonical : FunctionForm} {ds : List Declaration} {rules : LineRules}
    {s : Sharing} (h : s.Sound canonical ds rules) (canonicalIndex : Nat) {index : Nat}
    {member : Declaration} (hmember : ds[index]? = some member) :
    (s.add canonicalIndex canonical index (.of rules member)).Sound canonical ds rules := by
  have hassessed : ∀ {difference}, assess canonical (.of rules member) = .ok difference →
      ∀ m ∈ s.members ++ [⟨index, member, difference⟩], ds[m.index]? = some m.declaration ∧
        assess canonical (.of rules m.declaration) = .ok m.difference := by
    intro difference hassess
    exact List.forall_mem_append.mpr
      ⟨h.assessed, List.forall_mem_singleton.mpr ⟨hmember, hassess⟩⟩
  rcases s.add_cases canonicalIndex canonical index (.of rules member) with
    ⟨reason, hadd⟩ | ⟨hassess, hadd⟩ | ⟨own, value, slots, hassess, hslots, hadd⟩ <;> rw [hadd]
  · exact ⟨h.fits, h.apart, h.assessed, h.own⟩
  · refine ⟨h.fits, h.apart, hassessed hassess, List.forall_mem_append.mpr ⟨h.own, ?_⟩⟩
    rw [List.forall_mem_singleton]
    intro own value hown
    cases hown
  · -- The slot is there already, or it is a new one in a place of its own.
    rcases addSlot_cases hslots with ⟨rfl, hthere⟩ | ⟨rfl, hnew⟩
    · refine ⟨h.fits, h.apart, hassessed hassess, List.forall_mem_append.mpr ⟨h.own, ?_⟩⟩
      rw [List.forall_mem_singleton]
      intro own' value' hown
      cases hown
      exact hthere
    · refine ⟨?fits, ?apart, hassessed hassess, List.forall_mem_append.mpr ⟨?own, ?new⟩⟩
      case fits =>
        exact List.forall_mem_append.mpr
          ⟨h.fits, List.forall_mem_singleton.mpr (exists_fits_of_assess hassess)⟩
      case apart =>
        refine List.pairwise_append.mpr ⟨h.apart, List.pairwise_singleton _ _, ?_⟩
        intro slot hslot
        rw [List.forall_mem_singleton]
        exact hnew slot hslot
      case own =>
        intro m hm own' value' hown
        obtain ⟨slot, hslot, hsame⟩ := h.own m hm own' value' hown
        exact ⟨slot, List.mem_append_left _ hslot, hsame⟩
      case new =>
        rw [List.forall_mem_singleton]
        intro own' value' hown
        cases hown
        exact ⟨own, List.mem_append_right _ (List.mem_singleton_self _),
          Slot.samePlace_iff.mpr ⟨rfl, rfl⟩⟩

/-- What is collected for a group is sound. -/
theorem sound_shareGroup (d : Detection) (canonical : FunctionForm) (group : Group) :
    (shareGroup d canonical group).Sound canonical d.declarations d.rules := by
  unfold shareGroup
  induction group.others using List.reverseRecOn with
  | nil => exact ⟨by simp, .nil, by simp, by simp⟩
  | append_singleton others i ih =>
    rw [List.foldl_append, List.foldl_cons, List.foldl_nil]
    split
    · rename_i member hmember
      exact ih.add group.canonical hmember
    · exact ih

/-- The members that are entered are members of the group, in their order.  The ones left out are
those that keep their bodies. -/
theorem sublist_others_of_shareGroup (d : Detection) (canonical : FunctionForm) (group : Group) :
    ((shareGroup d canonical group).members.map Member.index).Sublist group.others := by
  unfold shareGroup
  induction group.others using List.reverseRecOn with
  | nil => exact .slnil
  | append_singleton others i ih =>
    rw [List.foldl_append, List.foldl_cons, List.foldl_nil]
    split
    · rename_i member _
      generalize List.foldl _ _ others = s at ih ⊢
      rcases s.add_cases group.canonical canonical i (.of d.rules member) with
        ⟨reason, hadd⟩ | ⟨_, hadd⟩ | ⟨own, value, slots, _, _, hadd⟩ <;> rw [hadd]
      · exact ih.trans (List.sublist_append_left _ _)
      · simpa using ih
      · simpa using ih
    · exact ih.trans (List.sublist_append_left _ _)

/-! ### Filling the slots -/

/-- What a member has in a slot. -/
def Member.valueAt (m : Member) (slot : Slot) : Text :=
  match m.difference with
  | some (own, value) => if own.samePlace slot then value else slot.text
  | none => slot.text

theorem zip_values (m : Member) (slots : List Slot) :
    slots.zip (m.values slots) = slots.map fun slot => (slot, m.valueAt slot) :=
  List.map_prod_left_eq_zip.symm

/-- What stands at a token, if every slot there has the same value.  Without a slot there it is the
text of the token itself. -/
theorem filledText_eq {slots : List Slot} {value : Slot → Text} {line : Nat} {t : Token}
    {text : Text}
    (hthere : ∀ slot ∈ slots, slot.line = line → slot.span = ⟨t.start, t.stop⟩ → value slot = text)
    (hnone : (∀ slot ∈ slots, slot.line = line → slot.span ≠ ⟨t.start, t.stop⟩) → t.text = text) :
    filledText (slots.map fun slot => (slot, value slot)) line t = text := by
  unfold filledText
  rw [List.find?_map]
  split
  · rename_i fill hfound
    obtain ⟨slot, hslot, rfl⟩ := Option.map_eq_some_iff.mp hfound
    have hplace := List.find?_some hslot
    simp only [Function.comp_apply, Bool.and_eq_true, decide_eq_true_eq] at hplace
    exact hthere slot (List.mem_of_find?_eq_some hslot) hplace.1 hplace.2
  · rename_i hmissing
    apply hnone
    intro slot hslot hline hspan
    rw [Option.map_eq_none_iff, List.find?_eq_none] at hmissing
    exact hmissing slot hslot (by simp [hline, hspan])

section

variable {rules : LineRules} {c : Declaration} {slot : Slot} {line : LogicalLine}
  {ts : List Token}

/-- A slot is a token of the line as it is lexed. -/
theorem Slot.Fits.token_of_line {form : LineForm} {i : Nat} {t : FormToken}
    (h : slot.Fits (.of rules c) form i t) (hline : c.lines[slot.line]? = some line)
    (hts : tokenize line.text = .ok ts) :
    form.lexed = ts ∧ ts[i]? = some t.token := by
  have hform := h.line_eq
  rw [getElem?_lines, hline, Option.map_some, Option.some_inj] at hform
  have hlexed : form.lexed = ts := by
    rw [← hform]
    exact LineForm.lexed_of_ok hts
  refine ⟨hlexed, ?_⟩
  rw [← hlexed, LineForm.lexed, List.getElem?_map, h.token_eq]
  rfl

/-- A line with a slot can be lexed. -/
theorem Slot.Fits.exists_line {form : LineForm} {i : Nat} {t : FormToken}
    (h : slot.Fits (.of rules c) form i t) :
    ∃ line ts, c.lines[slot.line]? = some line ∧ tokenize line.text = .ok ts := by
  obtain ⟨line, ts, hline, hts, -, -⟩ := exists_lexed_of_form h.line_eq h.token_eq
  exact ⟨line, ts, hline, hts⟩

/-- A slot that fits a line is a token of it. -/
theorem Slot.Fits.isTokenOf {form : LineForm} {i : Nat} {t : FormToken}
    (h : slot.Fits (.of rules c) form i t) : slot.IsTokenOf c := by
  obtain ⟨line, ts, hline, hts⟩ := h.exists_line
  obtain ⟨_, htoken⟩ := h.token_of_line hline hts
  exact ⟨line, ts, t.token, hline, hts, List.mem_of_getElem? htoken, h.span_eq, h.text_eq⟩

/-- The text of a slot is the text of the token in its place. -/
theorem Slot.IsTokenOf.text_eq (h : slot.IsTokenOf c) (hline : c.lines[slot.line]? = some line)
    (hts : tokenize line.text = .ok ts) {t : Token} (ht : t ∈ ts)
    (hspan : slot.span = ⟨t.start, t.stop⟩) : slot.text = t.text := by
  obtain ⟨line', ts', u, hline', hts', hu, hspan', htext⟩ := h
  cases hline.symm.trans hline'
  cases hts.symm.trans hts'
  obtain ⟨i, hi⟩ := List.getElem?_of_mem ht
  obtain ⟨j, hj⟩ := List.getElem?_of_mem hu
  have hstart : t.start = u.start := by
    rw [hspan] at hspan'
    exact congrArg Span.start hspan'
  obtain rfl := eq_of_start_eq hts hi hj hstart
  cases hi.symm.trans hj
  exact htext

/-- A line that can be lexed is filled token by token. -/
theorem filled_of_ok {fills : List (Slot × Text)} {number : Nat} {line : Text} {ts : List Token}
    (h : tokenize line = .ok ts) :
    LineTexts.filled fills number line = .tokens (ts.map (filledText fills number)) := by
  rw [LineTexts.filled, h]

/-- A line in which the slots hold what stands there anyway. -/
theorem filled_eq_of {fills : List (Slot × Text)} {number : Nat} {line : Text}
    (h : ∀ ts, tokenize line = .ok ts → ∀ t ∈ ts, filledText fills number t = t.text) :
    LineTexts.filled fills number line = LineTexts.of line := by
  rcases hts : tokenize line with e | ts
  · rw [LineTexts.filled, LineTexts.of, hts]
  · rw [filled_of_ok hts, lineTexts_of_ok hts, List.map_congr_left (h ts hts)]

/-- The keys of a function are those of its lines. -/
theorem getElem?_keys (rules : LineRules) (d : Declaration) (n : Nat) :
    (FunctionForm.of rules d).keys[n]? = d.lines[n]?.map fun line =>
      (LineForm.of rules (d.params.map fun param => (Param.name? param).getD []) line.text).key := by
  rw [FunctionForm.keys, List.getElem?_map, getElem?_lines, Option.map_map]
  rfl

/-- Lines whose keys agree have the same texts. -/
theorem lineTexts_eq_of_keys (hnames : rules.ignoreParamNames = false) {c m : Declaration} {n : Nat}
    (hkeys : (FunctionForm.of rules c).keys[n]? = (FunctionForm.of rules m).keys[n]?)
    {l l' : LogicalLine} (hl : c.lines[n]? = some l) (hl' : m.lines[n]? = some l') :
    LineTexts.of l.text = LineTexts.of l'.text := by
  rw [getElem?_keys, getElem?_keys, hl, hl'] at hkeys
  exact lineTexts_eq_of_key_eq hnames (Option.some_inj.mp hkeys)

/-- What stands at a token of the line of a slot: the value of the member in its slot, or the token
itself. -/
theorem filledText_own {c : Declaration} {slots : List Slot} {value : Slot → Text} {own : Slot}
    {form : LineForm} {i : Nat} {t : FormToken} {text : Text}
    (hslots : ∀ slot ∈ slots, slot.IsTokenOf c) (hfits : own.Fits (.of rules c) form i t)
    (hthere : ∃ slot ∈ slots, own.samePlace slot = true)
    (hown : ∀ slot, own.samePlace slot = true → value slot = text)
    (hother : ∀ slot, own.samePlace slot = false → value slot = slot.text)
    {l : LogicalLine} (hl : c.lines[own.line]? = some l) (hts : tokenize l.text = .ok ts) {j : Nat}
    {v : Token} (hj : ts[j]? = some v) :
    filledText (slots.map fun slot => (slot, value slot)) own.line v =
      if i = j then text else v.text := by
  obtain ⟨_, hti⟩ := hfits.token_of_line hl hts
  split
  · rename_i hij
    subst hij
    cases hti.symm.trans hj
    refine filledText_eq ?_ ?_
    · intro slot _ hline hspan
      exact hown slot (Slot.samePlace_iff.mpr ⟨hline.symm, hfits.span_eq.trans hspan.symm⟩)
    · intro hnone
      obtain ⟨slot, hslot, hsame⟩ := hthere
      obtain ⟨hline, hspan⟩ := Slot.samePlace_iff.mp hsame
      exact absurd (hspan.symm.trans hfits.span_eq) (hnone slot hslot hline.symm)
  · rename_i hij
    refine filledText_eq ?_ fun _ => rfl
    intro slot hslot hline hspan
    rw [hother slot ?_]
    · exact (hslots slot hslot).text_eq (hline ▸ hl) hts (List.mem_of_getElem? hj) hspan
    · by_contra hsame
      rw [Bool.not_eq_false] at hsame
      obtain ⟨_, hsame⟩ := Slot.samePlace_iff.mp hsame
      -- Different tokens begin in different places.
      have hstart : t.token.start = v.start := by
        rw [hfits.span_eq, hspan] at hsame
        exact congrArg Span.start hsame
      exact hij (eq_of_start_eq hts hti hj hstart)

/-- **The line of the slot.**  With the value of the member in its slot, the canonical line has
the tokens of the line of the member. -/
theorem filled_own_line (hnames : rules.ignoreParamNames = false) {c : Declaration}
    {slots : List Slot} {value : Slot → Text} {own : Slot} {form form' : LineForm} {i : Nat}
    {t u : FormToken} (hslots : ∀ slot ∈ slots, slot.IsTokenOf c)
    (hfits : own.Fits (.of rules c) form i t)
    (hthere : ∃ slot ∈ slots, own.samePlace slot = true)
    (hown : ∀ slot, own.samePlace slot = true → value slot = u.token.text)
    (hother : ∀ slot, own.samePlace slot = false → value slot = slot.text)
    {l : LogicalLine} {line' : Text} {names' : List Text} (hl : c.lines[own.line]? = some l)
    (hform' : LineForm.of rules names' line' = form')
    (hwords : form'.tokens.map FormToken.word = (form.tokens.map FormToken.word).set i u.word)
    (hu : form'.tokens[i]? = some u) :
    LineTexts.filled (slots.map fun slot => (slot, value slot)) own.line l.text =
      LineTexts.of line' := by
  obtain ⟨_, ts, hl₀, hts⟩ := hfits.exists_line
  cases hl.symm.trans hl₀
  obtain ⟨_, hti⟩ := hfits.token_of_line hl hts
  have hilt : i < ts.length := (List.getElem?_eq_some_iff.mp hti).1
  have hform : form.tokens.map FormToken.word = ts.map Token.text := by
    have hline := hfits.line_eq
    rw [getElem?_lines, hl, Option.map_some, Option.some_inj] at hline
    rw [← hline]
    exact LineForm.map_word_of_ok hnames hts
  subst hform'
  rcases hts' : tokenize line' with e | ts'
  · rw [(LineForm.of_error hts').1, hform] at hwords
    have := congrArg List.length hwords
    simp only [List.map_nil, List.length_nil, List.length_set, List.length_map] at this
    omega
  rw [LineForm.map_word_of_ok hnames hts', hform,
    LineForm.word_of_ok hnames hts' (List.mem_of_getElem? hu)] at hwords
  rw [lineTexts_of_ok hts', filled_of_ok hts, hwords]
  congr 1
  apply List.ext_getElem?
  intro j
  rw [List.getElem?_map, List.getElem?_set, List.length_map, if_pos hilt, List.getElem?_map]
  rcases hj : ts[j]? with _ | v
  · have hlen : ts.length ≤ j := List.getElem?_eq_none_iff.mp hj
    rw [if_neg (by omega)]
    rfl
  · rw [Option.map_some, Option.map_some,
      filledText_own hslots hfits hthere hown hother hl hts hj]
    exact apply_ite some _ _ _

/-- A line whose slots hold what stands there anyway, and whose key is that of the line of the
member, has the tokens of the line of the member. -/
theorem filled_common_line (hnames : rules.ignoreParamNames = false) {c m : Declaration}
    {slots : List Slot} {value : Slot → Text} (hslots : ∀ slot ∈ slots, slot.IsTokenOf c) {n : Nat}
    {l l' : LogicalLine} (hl : c.lines[n]? = some l) (hl' : m.lines[n]? = some l')
    (hkeys : (FunctionForm.of rules c).keys[n]? = (FunctionForm.of rules m).keys[n]?)
    (hvalue : ∀ slot ∈ slots, slot.line = n → value slot = slot.text) :
    LineTexts.filled (slots.map fun slot => (slot, value slot)) n l.text = LineTexts.of l'.text := by
  rw [← lineTexts_eq_of_keys hnames hkeys hl hl']
  refine filled_eq_of fun ts hts t ht => filledText_eq ?_ fun _ => rfl
  intro slot hslot hline hspan
  rw [hvalue slot hslot hline]
  exact (hslots slot hslot).text_eq (hline ▸ hl) hts ht hspan

/-- A member that can share a canonical body has as many lines. -/
theorem Assessed.length_lines {m : Declaration} {difference : Option (Slot × Text)}
    (h : Assessed (.of rules c) (.of rules m) difference) : c.lines.length = m.lines.length := by
  have hlength : ∀ d : Declaration, (FunctionForm.of rules d).keys.length = d.lines.length := by
    intro d
    simp [FunctionForm.of]
  rw [← hlength, ← hlength]
  cases h with
  | identical hkeys => rw [hkeys]
  | differs _ _ _ _ _ _ hlen => exact hlen

/-- **Members carry their own values.**  The canonical body with the values of a member in the
slots has the tokens of the body of the member. -/
theorem filledTexts_values (hnames : rules.ignoreParamNames = false) {ds : List Declaration}
    {s : Sharing} (hsound : s.Sound (.of rules c) ds rules) {slots : List Slot}
    (hperm : slots.Perm s.slots) {m : Member} (hm : m ∈ s.members) :
    c.filledTexts (slots.zip (m.values slots)) = m.declaration.bodyTexts := by
  have hslots : ∀ slot ∈ slots, slot.IsTokenOf c := by
    intro slot hslot
    obtain ⟨form, i, t, hfits⟩ := hsound.fits slot (hperm.mem_iff.mp hslot)
    exact hfits.isTokenOf
  rw [zip_values]
  obtain ⟨_, hassess⟩ := hsound.assessed m hm
  obtain ⟨_, _, _, hassessed⟩ := assessed_of_assess hassess
  have hlen := hassessed.length_lines
  apply List.ext_getElem?
  intro n
  rw [Declaration.filledTexts, Declaration.bodyTexts, List.getElem?_mapIdx, List.getElem?_map]
  rcases hl : c.lines[n]? with _ | l
  · have hnone : m.declaration.lines[n]? = none := by
      rw [List.getElem?_eq_none_iff] at hl ⊢
      omega
    rw [hnone]
    rfl
  obtain ⟨l', hl'⟩ : ∃ l', m.declaration.lines[n]? = some l' := by
    have hlt := (List.getElem?_eq_some_iff.mp hl).1
    exact ⟨_, List.getElem?_eq_getElem (hlen ▸ hlt)⟩
  rw [hl', Option.map_some, Option.map_some, Option.some_inj]
  generalize hdifference : m.difference = difference at hassessed
  cases hassessed with
  | identical hkeys =>
    refine filled_common_line hnames hslots hl hl' (by rw [hkeys]) ?_
    intro slot _ _
    rw [Member.valueAt, hdifference]
  | differs own form form' i t u hkeys herase hfits hform' hu _ hwords =>
    have hvalueAt : ∀ slot, m.valueAt slot =
        if own.samePlace slot then u.token.text else slot.text := by
      intro slot
      rw [Member.valueAt, hdifference]
    by_cases hn : own.line = n
    · subst hn
      rw [getElem?_lines, hl', Option.map_some, Option.some_inj] at hform'
      refine filled_own_line hnames hslots hfits ?_ ?_ ?_ hl hform' hwords hu
      · obtain ⟨slot, hslot, hsame⟩ := hsound.own m hm own _ hdifference
        exact ⟨slot, hperm.mem_iff.mpr hslot, hsame⟩
      · intro slot hsame
        rw [hvalueAt, if_pos hsame]
      · intro slot hsame
        rw [hvalueAt, hsame, if_neg Bool.false_ne_true]
    · refine filled_common_line hnames hslots hl hl'
        (getElem?_eq_of_eraseIdx hkeys herase hn) ?_
      · intro slot _ hline
        have hsame : own.samePlace slot = false := by
          rw [← Bool.not_eq_true, Slot.samePlace_iff]
          exact fun h => hn (h.1.trans hline)
        rw [hvalueAt, hsame, if_neg Bool.false_ne_true]

end

end Twinfold
