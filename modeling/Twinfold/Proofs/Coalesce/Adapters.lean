import Twinfold.Proofs.Coalesce.Works

/-!
# What adapters pass on

The plan for a source text holds, for every group that shares a body, the edits that make
adapters of its members (`SharedBody.Carried`).  An adapter calls the helper with one argument
for each slot and then with its own parameters; put into the slots of the canonical body, the
arguments give the tokens that the adapter had in its body before (`Work.Sound.carried`).  An
adapter that calls the canonical function itself had the same tokens.
-/

namespace Twinfold

/-! ### The text of an adapter -/

/-- What stands in front of the call in an adapter. -/
def Layout.opening (l : Layout) : Text := if l.compact then ['{'] else " \x7b ".toList

/-- What stands behind the call in an adapter. -/
def Layout.closing (l : Layout) : Text := if l.compact then ['}'] else "; \x7d".toList

/-- `name` is the word that a text begins with, behind white space: it is not empty, and the
character behind it is none of a word. -/
def BeginsWithName (text name : Text) : Prop :=
  ∃ blanks behind, text = blanks ++ (name ++ behind) ∧ name ≠ [] ∧
    (∀ c ∈ blanks, Text.isBlank c = true) ∧ (∀ c ∈ name, Text.isWordChar c = true) ∧
    ∀ c ∈ behind.head?, Text.isWordChar c = false

/-- What an adapter passes for a parameter: its name, and of a rest parameter the dots and the name.
Nothing is passed for a pattern, which begins with no word. -/
inductive PassesOn : (param passed : Text) → Prop
  | plain {param name : Text} (hplain : ¬"...".toList <+: param)
      (hname : BeginsWithName param name) : PassesOn param name
  | rest {param name : Text} (hname : BeginsWithName param name) :
      PassesOn ("...".toList ++ param) ("...".toList ++ name)

/-- The text is that of the function `d` with a call of `target` for its body, which passes the
`leading` arguments and then the parameters of `d`, one argument for each. -/
def CallsWith (l : Layout) (d : Declaration) (target : Text) (leading : List Text) (text : Text) :
    Prop :=
  ∃ passed, List.Forall₂ PassesOn d.params passed ∧
    text = d.header.trimEnd ++ (l.opening ++ ("return ".toList ++ (target ++
      ('(' :: (Text.join l.separator (leading ++ passed) ++ (')' :: l.closing))))))

/-- The name of a parameter is cut out of its text: white space in front, other characters behind. -/
theorem beginsWithName_of_takeWhile {text name : Text}
    (htake : text.trimStart.takeWhile Text.isWordChar = name) (hne : name ≠ []) :
    BeginsWithName text name := by
  refine ⟨text.takeWhile Text.isBlank, text.trimStart.dropWhile Text.isWordChar, ?_, hne,
    fun c hc => List.mem_takeWhile_imp hc, fun c hc => List.mem_takeWhile_imp (htake ▸ hc),
    fun c hc => ?_⟩
  · rw [← htake, List.takeWhile_append_dropWhile, Text.trimStart, List.takeWhile_append_dropWhile]
  · have hhead := List.head?_dropWhile_not Text.isWordChar text.trimStart
    rw [Option.mem_def.mp hc] at hhead
    simpa using hhead

/-- The arguments that pass the parameters on are made from the parameters one by one.  None is
left out and none is added, and each argument begins its parameter. -/
theorem forall₂_passesOn {d : Declaration} {passed : List Text}
    (h : d.passedParams? = some passed) : List.Forall₂ PassesOn d.params passed := by
  refine (forall₂_of_mapM h).imp fun param arg harg => ?_
  obtain ⟨-, hmap⟩ := Option.ite_none_left_eq_some.mp harg
  obtain ⟨name, hfound, rfl⟩ := Option.map_eq_some_iff.mp hmap
  obtain ⟨hne, htake⟩ := Option.ite_none_left_eq_some.mp hfound
  rw [List.isEmpty_iff] at hne
  cases Option.some_inj.mp htake
  by_cases hrest : Param.isRest param = true
  · -- The dots are in front of both, and the name is looked for behind them.
    obtain ⟨bare, rfl⟩ := List.isPrefixOf_iff_prefix.mp hrest
    rw [if_pos hrest] at hne ⊢
    exact .rest (beginsWithName_of_takeWhile rfl hne)
  · simp only [if_neg hrest] at hne ⊢
    exact .plain (fun hdots => hrest (List.isPrefixOf_iff_prefix.mpr hdots))
      (beginsWithName_of_takeWhile rfl hne)

/-- The adapter that the layout writes calls its target with the leading arguments and with what
each parameter passes on. -/
theorem callsWith_adapter (l : Layout) {d : Declaration} {passed : List Text}
    (hpassed : d.passedParams? = some passed) (target : Text) (leading : List Text) :
    CallsWith l d target leading (l.adapter d target leading) := by
  refine ⟨passed, forall₂_passesOn hpassed, ?_⟩
  unfold Layout.adapter Layout.opening Layout.closing
  rw [hpassed, Option.getD_some]
  cases l.compact <;> simp

/-! ### Groups in a plan -/

/-- The members of a group that shares the body of `c` pass on what is their own. -/
structure SharedBody.Carried (layout : Layout) (ds : List Declaration) (edits : List Edit)
    (g : SharedBody) (c : Declaration) (slots : List Slot) : Prop where
  canonical_eq : ds[g.canonical]? = some c
  length_slots : slots.length = g.slots
  /-- The slots are in the order of the body. -/
  ordered : slots.Pairwise fun slot other => slot.before other = true
  isTokenOf : ∀ slot ∈ slots, slot.IsTokenOf c
  /-- The canonical function calls the helper that follows it. -/
  canonical_calls : ∀ helper, g.helper = some helper → ∃ arguments text params,
    arguments.length = g.slots ∧ CallsWith layout c helper arguments text ∧
      params.length = g.slots ∧
      c.replaceBy (text ++ layout.lineEnd ++ layout.helper c helper (slots.zip params)) ∈ edits ∧
      c.filledTexts (slots.zip arguments) = c.bodyTexts
  /-- An adapter calls the helper with what it has in the slots. -/
  adapter_calls : ∀ helper, g.helper = some helper → ∀ i ∈ g.adapters, ∃ m arguments text,
    ds[i]? = some m ∧ arguments.length = g.slots ∧ CallsWith layout m helper arguments text ∧
      m.replaceBy text ∈ edits ∧ c.filledTexts (slots.zip arguments) = m.bodyTexts
  /-- Without a helper an adapter calls the canonical function, and its body was the same. -/
  adapter_calls_canonical : g.helper = none → ∀ i ∈ g.adapters, ∃ m text,
    ds[i]? = some m ∧ CallsWith layout m c.name [] text ∧ m.replaceBy text ∈ edits ∧
      m.bodyTexts = c.bodyTexts

section

variable {layout : Layout} {d : Detection} {c : Declaration}

/-- The values of a member without a difference are those of the canonical body. -/
theorem filledTexts_own_texts {slots : List Slot} (htoken : ∀ slot ∈ slots, slot.IsTokenOf c) :
    c.filledTexts (slots.zip (slots.map Slot.text)) = c.bodyTexts := by
  rw [← List.map_prod_left_eq_zip]
  apply List.ext_getElem?
  intro n
  rw [Declaration.filledTexts, Declaration.bodyTexts, List.getElem?_mapIdx, List.getElem?_map]
  rcases hl : c.lines[n]? with _ | l
  · rfl
  rw [Option.map_some, Option.map_some]
  refine congrArg some (filled_eq_of fun ts hts t ht => filledText_eq ?_ fun _ => rfl)
  intro slot hslot hline hspan
  exact (htoken slot hslot).text_eq (hline ▸ hl) hts ht hspan

/-- The canonical function of a group that shares a body can pass on all its parameters. -/
theorem exists_passed_of_groupObstacle? {rules : LineRules}
    (h : groupObstacle? (.of rules c) = none) : ∃ passed, c.passedParams? = some passed := by
  simp only [groupObstacle?] at h
  split_ifs at h with _ _ hpassed
  rw [← Option.isSome_iff_exists]
  exact Option.isSome_iff_ne_none.mpr (by simpa [FunctionForm.of] using hpassed)

/-- What is known of a member. -/
theorem Work.declaration_of_mem {w : Work} {m : Member} (hm : m ∈ (w.sharing d).members) :
    d.declarations[m.index]? = some m.declaration ∧
      ∃ passed, m.declaration.passedParams? = some passed := by
  obtain ⟨hdecl, hassess⟩ := (w.sound_sharing d).assessed m hm
  exact ⟨hdecl, (assessed_of_assess hassess).2.1⟩

/-- **The work on a group** lets its members pass on what is their own.  The canonical function
passes the texts of its own slots, and an adapter passes the text that it has in the place of each
slot, which is its own where it differs and the canonical one elsewhere. -/
theorem Work.Sound.carried {w : Work} (hnames : d.rules.ignoreParamNames = false)
    (h : w.Sound d) {edits : List Edit} (hedits : ∀ e ∈ w.edits layout d, e ∈ edits) :
    (w.shared d).Carried layout d.declarations edits w.canonical (w.slots d) := by
  obtain ⟨passed, hpassed⟩ := exists_passed_of_groupObstacle? h.no_obstacle
  have htoken : ∀ slot ∈ w.slots d, slot.IsTokenOf w.canonical := by
    intro slot hslot
    obtain ⟨form, i, t, hfits⟩ := exists_fits hslot
    exact hfits.isTokenOf
  have hmember : ∀ m ∈ (w.sharing d).members,
      m.declaration.replaceBy (w.memberText layout d m) ∈ edits := fun m hm =>
    hedits _ (List.mem_append_right _ (List.mem_map_of_mem hm))
  have hfilled : ∀ m ∈ (w.sharing d).members,
      w.canonical.filledTexts ((w.slots d).zip (m.values (w.slots d))) = m.declaration.bodyTexts :=
    fun m hm => filledTexts_values hnames (w.sound_sharing d) (w.slots_perm d) hm
  refine ⟨h.canonical_eq, rfl, w.pairwise_slots d, htoken, ?_, ?_, ?_⟩
  · intro helper hhelper
    simp only [shared, Option.ite_none_right_eq_some, Option.some.injEq] at hhelper
    obtain ⟨hhas, rfl⟩ := hhelper
    refine ⟨_, _, w.slotParams d, List.length_map _, callsWith_adapter layout hpassed _ _,
      w.length_slotParams d, hedits _ ?_, filledTexts_own_texts htoken⟩
    rw [Work.edits, if_pos hhas]
    exact List.mem_append_left _ List.mem_cons_self
  · intro helper hhelper i hi
    simp only [shared, Option.ite_none_right_eq_some, Option.some.injEq] at hhelper
    obtain ⟨hhas, rfl⟩ := hhelper
    obtain ⟨m, hm, rfl⟩ := List.mem_map.mp hi
    obtain ⟨hdecl, passed', hpassed'⟩ := declaration_of_mem hm
    have hedit := hmember m hm
    rw [memberText, target, if_pos hhas] at hedit
    exact ⟨m.declaration, _, _, hdecl, List.length_map _, callsWith_adapter layout hpassed' _ _,
      hedit, hfilled m hm⟩
  · intro hnone i hi
    have hhas : w.hasHelper d = false := by simpa [shared] using hnone
    have hnil := slots_eq_nil hhas
    obtain ⟨m, hm, rfl⟩ := List.mem_map.mp hi
    obtain ⟨hdecl, passed', hpassed'⟩ := declaration_of_mem hm
    have hedit := hmember m hm
    rw [memberText, target, hhas, if_neg Bool.false_ne_true, hnil] at hedit
    refine ⟨m.declaration, _, hdecl, callsWith_adapter layout hpassed' _ _, hedit, ?_⟩
    rw [← hfilled m hm, hnil]
    have hnone : ∀ slot ∈ ([] : List Slot), slot.IsTokenOf w.canonical := by simp
    exact filledTexts_own_texts hnone

end

/-- **Adapters carry each member's own values.**  When a source text is coalesced and parameters
are compared by name, every group passes on what is its members' own. -/
theorem coalesce_carries_values {source : Text} {options : Options} {d : Detection}
    {layout : Layout} {r : Coalesced} (hnames : options.rules.ignoreParamNames = false)
    (hdetect : detect source options = .ok d) (hcoalesce : coalesce source d layout = .ok r) :
    ∃ p, plan source d layout = .ok p ∧ r.text = p.apply source ∧
      ∀ g ∈ r.shared, ∃ c slots, g.Carried layout d.declarations p.edits c slots := by
  obtain ⟨p, hplan, htext, hshared⟩ := plan_of_coalesce hcoalesce
  refine ⟨p, hplan, htext, ?_⟩
  obtain ⟨works, hdoes, _⟩ := exists_works_of_plan hplan
  intro g hg
  rw [hshared, hdoes.shared_eq] at hg
  obtain ⟨w, hw, rfl⟩ := List.mem_map.mp hg
  refine ⟨w.canonical, w.slots d, ?_⟩
  refine (hdoes.sound w hw).carried (rules_of_detect hdetect ▸ hnames) fun e he => ?_
  rw [hdoes.edits_eq]
  exact List.mem_flatMap_of_mem hw he

/-- Two functions that differ in one number. -/
def onePlusTwo : Text := "function f(a){return a+1}function g(a){return a+2}".toList

/-- What becomes of the two functions: each passes its number and then its parameter. -/
def onePlusTwoShared : Text :=
  "function f(a){return $(1,a)}function $(A,a){return a+A}function g(a){return $(2,a)}".toList

/-- Two functions that differ in a literal and take a list of parameters.  Both adapters pass on
every parameter behind the value of the slot, as the text shows. -/
theorem carried_one_plus_two :
    ∃ d r p, detect onePlusTwo {} = .ok d ∧ coalesce onePlusTwo d ⟨true⟩ = .ok r ∧
      r.shared = [⟨0, [1], some ['$'], 1⟩] ∧ r.text = onePlusTwoShared ∧
      plan onePlusTwo d ⟨true⟩ = .ok p ∧ r.text = p.apply onePlusTwo ∧
      ∀ g ∈ r.shared, ∃ c slots, g.Carried ⟨true⟩ d.declarations p.edits c slots := by
  have hrun : ((detect onePlusTwo {}).toOption.bind fun d =>
      (coalesce onePlusTwo d ⟨true⟩).toOption).map (fun r => (r.shared, r.text)) =
      some ([⟨0, [1], some ['$'], 1⟩], onePlusTwoShared) := by decide +kernel
  rcases hdetect : detect onePlusTwo {} with e | d <;> rw [hdetect] at hrun
  · cases hrun
  rcases hcoalesce : coalesce onePlusTwo d ⟨true⟩ with e | r <;>
    simp only [Except.toOption, Option.bind_some, hcoalesce] at hrun
  · cases hrun
  have hnames : ({} : Options).rules.ignoreParamNames = false := rfl
  obtain ⟨hshared, hemitted⟩ := Prod.mk.injEq .. ▸ Option.some_inj.mp hrun
  obtain ⟨p, hplan, htext, hcarried⟩ := coalesce_carries_values hnames hdetect hcoalesce
  exact ⟨d, r, p, rfl, hcoalesce, hshared, hemitted, hplan, htext, hcarried⟩

end Twinfold
