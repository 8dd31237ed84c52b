import Twinfold.Proofs.Coalesce.ParamNames

/-!
# Generated names are fresh

A helper brings up its own name and one for each of its slots.  The names of a plan come from one
supply, which the groups take from in turn (`handsOut_of_threaded`), so they are all different.
None of them is avoided: no identifier of the text and no word of a template.

* `coalesce_names_fresh` — all generated names are different; none is an identifier of the text, or
  one in the code of a template but for those that run together with a number in front; and one can
  be the name of a canonical parameter only if an identifier of the text hides that name, in the
  letters that are white space for trimming;
* `parameter_repeated` — behind an ideographic space the name of a parameter is generated again.
-/

namespace Twinfold

/-! ### The names of a plan -/

section

variable {d : Detection}

/-- A group takes the names it brings up from those that are left. -/
theorem Work.handsOut_introduced (d : Detection) (w : Work) :
    w.names.HandsOut (w.introduced d) (w.namesAfter d) := by
  unfold introduced namesAfter
  split
  · exact w.names.handsOut_fresh.append (w.names.fresh.2.handsOut_freshList _)
  · exact .nil w.names

/-- **The names of a plan are handed out one behind the other.**  The supply that one group leaves
is the one from which the next group takes. -/
theorem handsOut_of_threaded {names : NameSupply} {works : List Work}
    (h : Threaded d names works) :
    ∃ left, names.HandsOut (works.flatMap (Work.introduced d)) left := by
  induction works generalizing names with
  | nil => exact ⟨names, .nil names⟩
  | cons w works ih =>
    obtain ⟨rfl, hrest⟩ := h
    obtain ⟨left, hleft⟩ := ih hrest
    exact ⟨left, (w.handsOut_introduced d).append hleft⟩

end

/-- Generated names are made of letters. -/
theorem letters_nameAt (n : Nat) :
    ∃ c body, nameAt n = c :: body ∧ beginsIdent c = true ∧
      ∀ e ∈ c :: body, Text.isWordChar e = true := by
  have hfirst : ∀ c ∈ firstChars, beginsIdent c = true ∧ Text.isWordChar c = true := by
    decide +kernel
  have hlater : ∀ c ∈ laterChars, Text.isWordChar c = true := by decide +kernel
  obtain ⟨c, body, hname, hc, hbody⟩ := nameAt_cases n
  refine ⟨c, body, hname, (hfirst c hc).1, List.forall_mem_cons.mpr ⟨(hfirst c hc).2, ?_⟩⟩
  exact fun e he => hlater e (hbody e he)

/-- The identifiers of a text and the words of its templates are taken. -/
theorem mem_takenNames {ts : List Token} {name : Text} :
    name ∈ takenNames ts ↔ ∃ t ∈ ts, t.kind = .ident ∧ name = t.text ∨
      t.kind = .template ∧ name ∈ t.text.words Text.isWordChar := by
  unfold takenNames
  rw [List.mem_flatMap]
  refine exists_congr fun t => and_congr_right fun _ => ?_
  cases t.kind <;> simp

/-! ### Heads of helpers -/

/-- A helper that is introduced, without its body. -/
structure HelperHead where
  /-- The function whose body it takes over. -/
  canonical : Declaration
  name : Text
  /-- The parameters that stand for the slots. -/
  slotParams : List Text

/-- What is generated for a group with a helper. -/
def Work.head (d : Detection) (w : Work) : HelperHead :=
  ⟨w.canonical, w.helperName, w.slotParams d⟩

namespace HelperHead

/-- The names that are introduced with the helper. -/
def names (h : HelperHead) : List Text := h.name :: h.slotParams

/-- What is written in place of the canonical function: the adapter, which passes on the values for
the slots, and the helper. -/
def written (layout : Layout) (slots : List Slot) (values : List Text) (h : HelperHead) : Text :=
  layout.adapter h.canonical h.name values ++ layout.lineEnd ++
    layout.helper h.canonical h.name (slots.zip h.slotParams)

/-- By the plan, this is the helper of the group. -/
structure IsOf (layout : Layout) (d : Detection) (p : Plan) (g : SharedBody) (h : HelperHead) :
    Prop where
  canonical_eq : d.declarations[g.canonical]? = some h.canonical
  name_eq : g.helper = some h.name
  length_slotParams : h.slotParams.length = g.slots
  edit : ∃ slots values, slots.length = g.slots ∧
    h.canonical.replaceBy (h.written layout slots values) ∈ p.edits

/-- No name of the helper is used in the text, as far as the tokens of the text tell. -/
structure Fresh (source : Text) (h : HelperHead) : Prop where
  /-- No identifier of the text has the name. -/
  idents : ∀ name ∈ h.names, ∀ t ∈ (lex source).tokens, t.kind = .ident → t.text ≠ name
  /-- Nor has one in the code of a template, unless it runs together with a number. -/
  templates : ∀ name ∈ h.names, ∀ t ∈ (lex source).tokens, t.kind = .template →
    ∀ code, Substitutes t.text.tail code → ¬CodeNames name code
  /-- A canonical parameter has the name only if a longer identifier begins with it. -/
  params : ∀ param ∈ h.canonical.params, ∃ own, Param.name? param = some own ∧
    (own ∈ h.names → ∃ t ∈ (lex source).tokens,
      t.kind = .ident ∧ t.text ≠ own ∧ leadingWord t.text = own)

end HelperHead

section

variable {layout : Layout} {d : Detection} {p : Plan} {works : List Work}

/-- The helpers of a plan are those of the groups that need one.  They come in the order of the
groups, each with its name and as many parameters as slots. -/
theorem Plan.Does.heads (h : p.Does layout d works) :
    List.Forall₂ (HelperHead.IsOf layout d p) (p.shared.filter fun g => g.helper.isSome)
      ((works.filter (Work.hasHelper d)).map (Work.head d)) := by
  have hfilter : (p.shared.filter fun g => g.helper.isSome) =
      (works.filter (Work.hasHelper d)).map (Work.shared d) := by
    rw [h.shared_eq, List.filter_map]
    congr 2
    funext w
    cases hhas : w.hasHelper d <;> simp [Work.shared, hhas]
  rw [hfilter, List.forall₂_map_left_iff, List.forall₂_map_right_iff, List.forall₂_same]
  intro w hw
  obtain ⟨hw, hhas⟩ := List.mem_filter.mp hw
  refine ⟨(h.sound w hw).canonical_eq, by simp [Work.shared, Work.head, hhas],
    w.length_slotParams d, w.slots d, (w.slots d).map Slot.text, rfl, ?_⟩
  rw [h.edits_eq]
  refine List.mem_flatMap_of_mem hw (List.mem_append_left _ ?_)
  rw [if_pos hhas]
  exact List.mem_cons_self

/-- The names of the heads are those that come up with the groups. -/
theorem flatMap_names_heads (d : Detection) (works : List Work) :
    ((works.filter (Work.hasHelper d)).map (Work.head d)).flatMap HelperHead.names =
      works.flatMap (Work.introduced d) := by
  induction works with
  | nil => rfl
  | cons w works ih =>
    rw [List.flatMap_cons, ← ih, List.filter_cons]
    cases hhas : w.hasHelper d
    · simp [Work.introduced, hhas]
    · simp [Work.introduced, hhas, Work.head, HelperHead.names]

end

/-- A function whose parameters can be passed has no parameter without a name. -/
theorem exists_name?_of_passed {d : Declaration} {passed : List Text}
    (h : d.passedParams? = some passed) :
    ∀ param ∈ d.params, ∃ own, Param.name? param = some own := by
  intro param hparam
  obtain ⟨_, hsome⟩ := exists_of_mapM h param hparam
  rw [Option.ite_none_left_eq_some] at hsome
  obtain ⟨own, hown, _⟩ := Option.map_eq_some_iff.mp hsome.2
  exact ⟨own, hown⟩

/-- **Generated names are fresh.**  All names that are introduced are different, and as far as the
tokens tell none of them is used in the text. -/
theorem coalesce_names_fresh {source : Text} {options : Options} {d : Detection} {layout : Layout}
    {r : Coalesced} (hdetect : detect source options = .ok d)
    (hcoalesce : coalesce source d layout = .ok r) :
    ∃ p heads, plan source d layout = .ok p ∧ r.text = p.apply source ∧
      List.Forall₂ (HelperHead.IsOf layout d p) (r.shared.filter fun g => g.helper.isSome) heads ∧
      (heads.flatMap HelperHead.names).Nodup ∧ ∀ head ∈ heads, head.Fresh source := by
  obtain ⟨p, hplan, htext, hshared⟩ := plan_of_coalesce hcoalesce
  obtain ⟨ts, works, hts, hdoes, _, hthreaded⟩ := exists_threaded_works_of_plan hplan
  obtain ⟨left, hhands⟩ := handsOut_of_threaded hthreaded
  have htokens := (tokenize_eq_ok_iff.mp hts).1
  have hdeclared := (declarations_eq_ok_iff.mp (declarations_of_detect hdetect)).1
  refine ⟨p, (works.filter (Work.hasHelper d)).map (Work.head d), hplan, htext,
    hshared ▸ hdoes.heads, flatMap_names_heads d works ▸ hhands.nodup, ?_⟩
  intro head hhead
  obtain ⟨w, hw, rfl⟩ := List.mem_map.mp hhead
  have hmem : ∀ name ∈ (w.head d).names, name ∈ works.flatMap (Work.introduced d) := by
    intro name hname
    rw [← flatMap_names_heads]
    exact List.mem_flatMap_of_mem hhead hname
  have havoided : ∀ name ∈ (w.head d).names, name ∉ takenNames ts := fun name hname htaken =>
    hhands.not_mem_avoided name (hmem name hname) (List.mem_append_right _ htaken)
  have hletters : ∀ name ∈ (w.head d).names, ∃ c body, name = c :: body ∧ beginsIdent c = true ∧
      ∀ e ∈ c :: body, Text.isWordChar e = true := by
    intro name hname
    obtain ⟨n, rfl⟩ := hhands.exists_number name (hmem name hname)
    exact letters_nameAt n
  have hidents : ∀ name ∈ (w.head d).names, ∀ t ∈ (lex source).tokens, t.kind = .ident →
      t.text ≠ name := by
    rintro name hname t ht hkind rfl
    exact havoided _ hname (mem_takenNames.mpr ⟨t, htokens ▸ ht, .inl ⟨hkind, rfl⟩⟩)
  refine ⟨hidents, ?_, ?_⟩
  · intro name hname t ht hkind code hcode hnames
    obtain ⟨c, body, rfl, _, hword⟩ := hletters name hname
    refine havoided _ hname (mem_takenNames.mpr ⟨t, htokens ▸ ht, .inr ⟨hkind, ?_⟩⟩)
    exact mem_words_of_codeNames hcode hnames (List.cons_ne_nil _ _) hword
  · intro param hparam
    have hsound := hdoes.sound w (List.mem_filter.mp hw).1
    obtain ⟨_, ⟨passed, hpassed⟩, _⟩ := groupObstacle?_eq_none hsound.no_obstacle
    obtain ⟨own, hown⟩ := exists_name?_of_passed hpassed param hparam
    refine ⟨own, hown, fun hname => ?_⟩
    obtain ⟨c, body, rfl, hbegins, _⟩ := hletters own hname
    have hcanonical : w.canonical ∈ (extract source options).declarations := by
      rw [hdeclared]
      exact List.mem_of_getElem? hsound.canonical_eq
    obtain ⟨t, ht, hkind, hleading⟩ := exists_ident_of_mem_params hcanonical hparam hown hbegins
    exact ⟨t, ht, hkind, hidents _ hname t ht hkind, hleading⟩

/-- Two functions with a parameter `$` and with `A` in a template. -/
def twoTaken : Text :=
  ("function f($)\x7breturn `$\x7bA\x7d`+1\x7d\n" ++
    "function g($)\x7breturn `$\x7bA\x7d`+2\x7d").toList

/-- A text in which two of the names that would come first are taken. -/
theorem names_fresh_twoTaken : ∃ d r p heads, detect twoTaken {} = .ok d ∧
    coalesce twoTaken d {} = .ok r ∧ r.shared = [⟨0, [1], some ['B'], 1⟩] ∧
    plan twoTaken d {} = .ok p ∧ r.text = p.apply twoTaken ∧
    List.Forall₂ (HelperHead.IsOf {} d p) (r.shared.filter fun g => g.helper.isSome) heads ∧
    (heads.flatMap HelperHead.names).Nodup ∧ ∀ head ∈ heads, head.Fresh twoTaken := by
  have hrun : (runOn twoTaken {}).map (fun x => x.2.shared) = some [⟨0, [1], some ['B'], 1⟩] := by
    decide +kernel
  obtain ⟨⟨d, r⟩, hresult, hshared⟩ := Option.map_eq_some_iff.mp hrun
  obtain ⟨hdetect, hcoalesce⟩ := of_runOn hresult
  obtain ⟨p, heads, hfresh⟩ := coalesce_names_fresh hdetect hcoalesce
  exact ⟨d, r, p, heads, hdetect, hcoalesce, hshared, hfresh⟩

/-- Two functions with an ideographic space in front of their parameters. -/
def wideSpaced : Text :=
  "function f(\u3000A)\x7breturn 1\x7d\nfunction g(\u3000A)\x7breturn 2\x7d".toList

/-- **A parameter is generated that the function already has.**  The identifier of the text is the
space and the letter, and the parameter is the letter. -/
theorem parameter_repeated : ∃ d r p heads, detect wideSpaced {} = .ok d ∧
    coalesce wideSpaced d {} = .ok r ∧ plan wideSpaced d {} = .ok p ∧
    r.text = ("function f(\u3000A) \x7b return $(1, A); \x7d\n" ++
      "function $(A, A) \x7breturn A\x7d\nfunction g(\u3000A) \x7b return $(2, A); \x7d").toList ∧
    List.Forall₂ (HelperHead.IsOf {} d p) (r.shared.filter fun g => g.helper.isSome) heads ∧
    ¬∀ head ∈ heads, ∀ name ∈ head.slotParams, name ∉ head.canonical.params := by
  have hrun : ((runOn wideSpaced {}).bind fun x => (plan wideSpaced x.1 {}).toOption.bind fun p =>
      x.1.declarations[0]?.map fun c => (x.2.shared, x.2.text, c.params,
        p.edits.any fun e => e.start = c.start && e.stop = c.stop &&
          e.text = HelperHead.written {} [⟨0, ⟨7, 8⟩, ['1']⟩] [['1']] ⟨c, ['$'], [['A']]⟩)) =
      some ([⟨0, [1], some ['$'], 1⟩], ("function f(\u3000A) \x7b return $(1, A); \x7d\n" ++
        "function $(A, A) \x7breturn A\x7d\nfunction g(\u3000A) \x7b return $(2, A); \x7d").toList,
        [['A']], true) := by
    decide +kernel
  obtain ⟨⟨d, r⟩, hresult, hplanned⟩ := Option.bind_eq_some_iff.mp hrun
  obtain ⟨p, hplan, hfound⟩ := Option.bind_eq_some_iff.mp hplanned
  obtain ⟨c, hc, hfields⟩ := Option.map_eq_some_iff.mp hfound
  simp only [Prod.mk.injEq] at hfields
  obtain ⟨hshared, htext, hparams, hany⟩ := hfields
  obtain ⟨hdetect, hcoalesce⟩ := of_runOn hresult
  have hplan : plan wideSpaced d {} = .ok p := by
    rcases hp : plan wideSpaced d {} with e | q <;> rw [hp] at hplan <;> cases hplan
    rfl
  have hedit : c.replaceBy
      (HelperHead.written {} [⟨0, ⟨7, 8⟩, ['1']⟩] [['1']] ⟨c, ['$'], [['A']]⟩) ∈ p.edits := by
    obtain ⟨⟨start, stop, text⟩, he, hsame⟩ := List.any_eq_true.mp hany
    simp only [Bool.and_eq_true, decide_eq_true_eq] at hsame
    obtain ⟨⟨rfl, rfl⟩, rfl⟩ := hsame
    exact he
  refine ⟨d, r, p, [⟨c, ['$'], [['A']]⟩], hdetect, hcoalesce, hplan, htext, ?_, fun hall => ?_⟩
  · rw [hshared]
    exact .cons ⟨hc, rfl, rfl, _, _, rfl, hedit⟩ .nil
  · have hparam : ['A'] ∈ c.params := by
      rw [hparams]
      exact List.mem_cons_self
    exact hall _ List.mem_cons_self ['A'] List.mem_cons_self hparam

end Twinfold
