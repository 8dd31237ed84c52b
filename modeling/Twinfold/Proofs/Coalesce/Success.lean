import Twinfold.Proofs.Coalesce.Assembly
import Twinfold.Proofs.Coalesce.Outcome

/-!
# When a text can be coalesced

Coalescing succeeds and gives a text that is read as it was meant if and only if the adapters and
the helpers are read as such (`coalesce_ok_iff`).  That the new text declares as many functions as
were meant is then no further condition, because each change adds its helper and nothing else
(`length_flatMap_expectedOf`).

A change is read as such if nothing in it runs together (`Change.Apart`): the trimmed header does
not take in the brace behind it, each parameter is read by itself, and no name in the body of the
helper runs together with a neighbour.  The first of these fails for a header that ends with a
line comment, and then a text can fail to be coalesced at all (`unclosed_cannot_be_read`).
-/

namespace Twinfold

/-! ### Counting what is declared -/

/-- A changed function that gets a helper is expected to make two declarations. -/
theorem length_expectedOf (layout : Layout) (changes : List Change) (d : Declaration) :
    (expectedOf layout changes d).length =
      1 + if (changeOf changes d.index).any (fun c => c.fills.isSome) then 1 else 0 := by
  unfold expectedOf
  cases changeOf changes d.index with
  | none => rfl
  | some c => cases hfills : c.fills <;> simp [Change.expected, hfills]

/-- Every function is expected to be declared, and every helper in addition.  Each change is of a
function of its own, so helpers are counted once. -/
theorem length_flatMap_expectedOf (layout : Layout) {changes : List Change}
    (hnodup : (changes.map fun c => c.declaration.index).Nodup) {ds : List Declaration}
    (hindex : (ds.map Declaration.index).Nodup)
    (hplace : ∀ c ∈ changes, c.declaration.index ∈ ds.map Declaration.index) :
    (ds.flatMap (expectedOf layout changes)).length =
      ds.length + changes.countP fun c => c.fills.isSome := by
  have hperm : ((ds.filter fun d => (changeOf changes d.index).any fun c => c.fills.isSome).map
      Declaration.index).Perm
        ((changes.filter fun c => c.fills.isSome).map fun c => c.declaration.index) := by
    refine (List.perm_ext_iff_of_nodup (hindex.sublist (List.filter_sublist.map _))
      (hnodup.sublist (List.filter_sublist.map _))).mpr fun i => ?_
    simp only [List.mem_map, List.mem_filter]
    constructor
    · rintro ⟨d, ⟨hd, hany⟩, rfl⟩
      obtain ⟨c, hc, hfills⟩ := (Option.any_eq_true _ _).mp hany
      obtain ⟨hmem, hsame⟩ := (changeOf_eq_some_iff hnodup).mp hc
      exact ⟨c, ⟨hmem, hfills⟩, hsame⟩
    · rintro ⟨c, ⟨hc, hfills⟩, rfl⟩
      obtain ⟨d, hd, hsame⟩ := List.mem_map.mp (hplace c hc)
      have hfound := (changeOf_eq_some_iff hnodup).mpr ⟨hc, hsame.symm⟩
      exact ⟨d, ⟨hd, by rw [hfound]; exact hfills⟩, hsame⟩
  have hlength := hperm.length_eq
  rw [List.length_map, List.length_map, ← List.countP_eq_length_filter,
    ← List.countP_eq_length_filter] at hlength
  rw [← hlength, List.length_flatMap]
  clear hperm hlength hplace hindex
  induction ds with
  | nil => rfl
  | cons d ds ih =>
    rw [List.map_cons, List.sum_cons, ih, length_expectedOf, List.countP_cons, List.length_cons]
    omega

/-- A plan makes as many helpers as changes that put one.  A group has one helper at most, which is
put with the change of its canonical function. -/
theorem Plan.Makes.countP_fills {layout : Layout} {d : Detection} {p : Plan} {changes : List Change}
    (h : p.Makes layout d changes) : changes.countP (fun c => c.fills.isSome) = p.helpers := by
  have hcalls : (changes.map Change.call).countP (fun call => call.2.2) =
      (p.shared.flatMap (SharedBody.calls d.declarations)).countP fun call => call.2.2 := by
    rw [h.calls_eq]
  rw [List.countP_map] at hcalls
  refine Eq.trans hcalls ?_
  unfold Plan.helpers
  clear h hcalls
  induction p.shared with
  | nil => rfl
  | cons g gs ih =>
    rw [List.flatMap_cons, List.countP_append, ih, List.countP_cons, Nat.add_comm]
    congr 1
    unfold SharedBody.calls
    cases g.helper <;> simp [List.countP_map, Function.comp_def]

/-! ### Changes in which nothing runs together -/

/-- Nothing in the change runs together.  Only the text of a helper holds parameters and slots. -/
structure Change.Apart (layout : Layout) (c : Change) : Prop where
  closes : HeaderCloses layout c.declaration
  params : c.fills.isSome → ∀ text ∈ c.declaration.params, ParamReads text
  slots : ∀ fills ∈ c.fills, ∃ ts, tokenize c.declaration.body = .ok ts ∧
    CanAbstract (Layout.slotEdits c.declaration fills) ts

/-- The parameters of a declaration have no white space around them. -/
theorem trim_of_mem_params {source : Text} {options : Options} {ds : List Declaration}
    (hregion : options.region = none) (h : declarations source options = .ok ds) :
    ∀ d ∈ ds, ∀ text ∈ d.params, text.trim = text := by
  intro d hd text htext
  obtain ⟨p, scope, _, _, hread⟩ := exists_alone_of_declarations hregion h d hd
  rw [hread] at htext
  exact trim_of_mem_readParams htext

/-- **Nothing runs together**, so the adapter and the helper are read as such.  What is asked of
the header, the parameters and the slots can be decided one by one. -/
theorem Change.Apart.reads {layout : Layout} {c : Change} (h : c.Apart layout)
    {rules : LineRules} {ts : List Token} (htarget : IsName c.target)
    (hread : c.declaration.BodyRead ts)
    (hfilled : ∀ fills ∈ c.fills, FillsSlots rules c.declaration fills)
    (htrim : ∀ text ∈ c.declaration.params, text.trim = text) : c.Reads layout := by
  refine ⟨h.closes, fun fills hfills => ?_⟩
  obtain ⟨us, hus, hslots⟩ := h.slots fills hfills
  obtain rfl := Except.ok.inj (hread.tokenize_eq.symm.trans hus)
  have hsome : c.fills.isSome := by simp [Option.mem_def.mp hfills]
  exact helperReads_of_canAbstract htarget hread (hfilled fills hfills)
    (fun text htext => ⟨h.params hsome text htext, htrim text htext⟩) hslots

/-! ### Success -/

/-- **Coalescing succeeds and is read as it was meant**, if and only if the adapters and the
helpers are read as such.  This is so where nothing runs together.  A text in which functions were
detected always has a plan. -/
theorem coalesce_ok_iff {source : Text} {options : Options} {d : Detection} (layout : Layout)
    (hregion : options.region = none) (hdetect : detect source options = .ok d) :
    ∃ p changes, plan source d layout = .ok p ∧ p.Makes layout d changes ∧
      (∀ c ∈ changes, c.Sound d.declarations) ∧
      ((∃ r, coalesce source d layout = .ok r ∧ ReadAsMeant layout changes source r.text) ↔
        ∀ c ∈ changes, c.Reads layout) ∧
      ∀ c ∈ changes, c.Apart layout → c.Reads layout := by
  have hds := declarations_of_detect hdetect
  obtain ⟨ts, hts⟩ := exists_tokens_of_declarations hregion hds
  obtain ⟨p, hplan⟩ : ∃ p, plan source d layout = .ok p := ⟨_, by rw [plan, hts]; rfl⟩
  obtain ⟨changes, hmakes, hsound⟩ := exists_changes_of_plan hdetect hplan
  have hsound := hsound hregion
  refine ⟨p, changes, hplan, hmakes, hsound, ?_, ?_⟩
  · obtain ⟨items, rfl, hwalks, hitems⟩ := exists_walk_of_declarations hregion hts hds
    have hmem := hmakes.mem
    rw [hitems] at hsound hmem
    constructor
    · rintro ⟨r, _, hmeant⟩
      exact reads_of_readAsMeant hts hwalks hmakes.nodup hsound hmeant
    · intro hreads
      have hmeant := readAsMeant_of_reads hts hwalks hmakes.nodup hsound hreads
      rw [← hmakes.edits_eq] at hmeant
      obtain ⟨ds, ds', hold, hnew, hall⟩ := hmeant
      have hwhole := @declarations_of_walks _ {} _ rfl hts hwalks
      cases hold.symm.trans hwhole
      have hcount := @length_flatMap_expectedOf layout _ hmakes.nodup
        (declarationsOf true 0 [] items) ?_ ?_
      · rw [hmakes.countP_fills] at hcount
        refine ⟨⟨p.apply source, p.shared, p.kept⟩, coalesce_eq_ok_iff.mpr
          ⟨p, (declarationsOf true 0 [] items).length, hplan, ?_, ?_, rfl⟩,
          _, ds', hold, hnew, hall⟩
        · rw [countDeclarations, hold]
        · rw [countDeclarations, Plan.apply, hnew, ← hcount, hall.length_eq]
      · rw [map_index_declarationsOf]
        exact List.nodup_range'
      · intro c hc
        obtain ⟨q, scope, _, _, hread⟩ := exists_parts_of_mem_declarationsOf (hmem c hc)
        exact List.mem_map.mpr ⟨_, hread true, rfl⟩
  · intro c hc happart
    obtain ⟨us, hread⟩ := bodyRead_of_declarations hts hds c.declaration (hmakes.mem c hc)
    exact happart.reads (hsound c hc).target hread (hmakes.filled c hc)
      (trim_of_mem_params hregion hds c.declaration (hmakes.mem c hc))

/-- Two similar functions, the first with a line comment at the end of its header. -/
def unclosed : Text :=
  "function f() // one\n\x7breturn 1\x7d\nfunction g()\x7breturn 2\x7d".toList

/-- The comment takes in the brace of the adapter, and the new text cannot be read. -/
theorem unclosed_cannot_be_read : ∃ d, detect unclosed {} = .ok d ∧
    coalesce unclosed d {} = .error (.parse ⟨.unexpectedToken, ⟨37, 2⟩⟩) := by
  have hrun : (detect unclosed {}).toOption.map (fun d => coalesce unclosed d {}) =
      some (.error (.parse ⟨.unexpectedToken, ⟨37, 2⟩⟩)) := by
    decide +kernel
  rcases hdetect : detect unclosed {} with e | d <;> rw [hdetect] at hrun
  · cases hrun
  · exact ⟨d, rfl, Option.some_inj.mp hrun⟩

/-- The condition for a text in which the literal adjoins the word in front of it. -/
theorem ok_iff_adjoining : ∃ d r, Options.region {} = none ∧ detect adjoining {} = .ok d ∧
    coalesce adjoining d {} = .ok r ∧
    ∃ p changes, plan adjoining d {} = .ok p ∧ p.Makes {} d changes ∧
      (∀ c ∈ changes, c.Sound d.declarations) ∧
      ((∃ r, coalesce adjoining d {} = .ok r ∧ ReadAsMeant {} changes adjoining r.text) ↔
        ∀ c ∈ changes, c.Reads {}) ∧
      ∀ c ∈ changes, c.Apart {} → c.Reads {} := by
  have hrun : (runOn adjoining {}).isSome = true := by
    decide +kernel
  obtain ⟨⟨d, r⟩, hresult⟩ := Option.isSome_iff_exists.mp hrun
  obtain ⟨hdetect, hcoalesce⟩ := of_runOn hresult
  have hregion : Options.region {} = none := rfl
  exact ⟨d, r, hregion, hdetect, hcoalesce, coalesce_ok_iff {} hregion hdetect⟩

end Twinfold
