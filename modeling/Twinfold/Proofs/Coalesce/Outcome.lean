import Twinfold.Proofs.Coalesce.Changes
import Twinfold.Proofs.Coalesce.Reread

/-!
# What is read in a coalesced text

A coalesced text is read again as it was meant when every function in it is either one that was
not changed, or an adapter that is a single call, or a helper behind its canonical function
(`ReadAsMeant`).  This is so if and only if the header of every changed function lets the brace
behind it be read as such, and every helper is read by itself (`coalesce_reads_iff`).
-/

namespace Twinfold

/-! ### What is expected -/

namespace Change

section

variable (layout : Layout) (c : Change)

/-- What is expected of the changed function: an adapter, and the helper behind it. -/
def expected (d : Declaration) : List Expected :=
  layout.adapted d c.target c.arguments ::
    (c.fills.map (layout.helped c.declaration c.target)).toList

/-- The adapter and the helper are read as such. -/
structure Reads : Prop where
  closes : HeaderCloses layout c.declaration
  helper : ∀ fills ∈ c.fills, HelperReads layout c.declaration c.target fills

end

end Change

/-- What is expected of a function, changed or not. -/
def expectedOf (layout : Layout) (changes : List Change) (d : Declaration) : List Expected :=
  match changeOf changes d.index with
  | some c => c.expected layout d
  | none => [d.unchanged]

/-- The new text declares what the source does, with calls for the bodies of changed functions
and with the helpers behind them. -/
def ReadAsMeant (layout : Layout) (changes : List Change) (source text : Text) : Prop :=
  ∃ ds ds', declarations source {} = .ok ds ∧ declarations text {} = .ok ds' ∧
    List.Forall₂ Expected.Is (ds.flatMap (expectedOf layout changes)) ds'

/-! ### Reading the new text -/

/-- What is expected of a changed function. -/
theorem expectedOf_read {layout : Layout} {changes : List Change}
    (hnodup : (changes.map fun c => c.declaration.index).Nodup) {c : Change} (hc : c ∈ changes)
    {p : Parts} {normalize : Bool} {scope : Option Nat} :
    expectedOf layout changes (p.read normalize c.declaration.index scope) =
      c.expected layout (p.read normalize c.declaration.index scope) := by
  have hchange := (changeOf_eq_some_iff hnodup).mpr ⟨hc, rfl⟩
  have hindex : (p.read normalize c.declaration.index scope).index = c.declaration.index := rfl
  rw [expectedOf, hindex, hchange]

/-- What stands between a function and its helper is a gap. -/
theorem isGap_lineEnd (layout : Layout) : IsGap layout.lineEnd := by
  unfold Layout.lineEnd
  cases layout.compact
  · exact ⟨_, rfl⟩
  · exact isGap_nil

section

variable {layout : Layout} {ds : List Declaration} {c : Change} {p : Parts} {normalize : Bool}
  {index : Nat} {scope : Option Nat}

/-- **A changed function is read as expected**, if its adapter and its helper are.  The parts of
the adapter take the place of those of the function, and the parts of the helper stand in front of
them, if there is one. -/
theorem Change.Sound.exists_parts (h : c.Sound ds) (hreads : c.Reads layout) (hfound : p.Found)
    (halone : Spells none p.alone []) (hread : c.declaration = p.read normalize index scope) :
    ∃ q us, c.text layout = Token.sourceOf q.alone ++ Token.sourceOf (us.flatMap Parts.unit) ∧
      p.async = none ∧
      (∀ scope, List.Forall₂ (fun e u => ∀ index scope, e.Is (u.read true index scope))
        (c.expected layout (p.read true index scope)) (q :: us)) ∧
      p.Replaces q ∧ ∀ u ∈ us, u.Follows := by
  obtain ⟨passed, hpassed⟩ := h.passed
  obtain ⟨afterDefault, hwell⟩ := hfound.wellFormed
  have hasync : p.async = none := by
    have hplain := h.plain
    rw [hread] at hplain
    exact Parts.async_eq_none_of_plain hplain
  have harguments : c.arguments = c.leading ++ passed := by
    rw [Change.arguments, hpassed, Option.getD_some]
  have hpasses : ∀ text ∈ c.arguments, Passes text := by
    intro text htext
    rw [harguments] at htext
    rcases List.mem_append.mp htext with htext | htext
    · exact h.leading text htext
    · exact passes_of_passedParams? hpassed text htext
  obtain ⟨args, hargs⟩ := exists_spellArguments layout hpasses
  have hcloses := hreads.closes
  rw [hread, hwell.headerCloses_iff halone hfound.function hasync] at hcloses
  have hadapter : layout.adapter c.declaration c.target c.leading =
      Token.sourceOf (p.calling layout c.target args).alone := by
    rw [Layout.adapter_eq hpassed, ← harguments, hread, hwell.trimEnd_header hasync,
      List.append_assoc, ← Parts.sourceOf_block_calling hargs, ← sourceOf_append]
    rfl
  have hadapted : ∀ (scope : Option Nat) (index' : Nat) (scope' : Option Nat),
      (layout.adapted (p.read true index scope) c.target c.arguments).Is
        ((p.calling layout c.target args).read true index' scope') := fun scope index' scope' =>
    hwell.is_adapted hasync hargs c.target true index index' scope scope'
  have hreplaces := hfound.replaces_calling halone hcloses hargs h.target
  cases hfills : c.fills with
  | none =>
    refine ⟨p.calling layout c.target args, [], ?_, hasync, fun scope => ?_, hreplaces, by simp⟩
    · simp [Change.text, hfills, hadapter]
    · rw [Change.expected, hfills]
      exact .cons (hadapted scope) .nil
  | some fills =>
    obtain ⟨u, hfollows, hgap, hsource, hhelped⟩ :=
      (hreads.helper fills hfills).exists_follows h.target (isGap_lineEnd layout)
    refine ⟨p.calling layout c.target args, [u], ?_, hasync, fun scope => ?_, hreplaces, ?_⟩
    · simp [Change.text, hfills, hadapter, Parts.sourceOf_unit, hgap, hsource]
    · rw [Change.expected, hfills]
      exact .cons (hadapted scope) (.cons hhelped .nil)
    · simpa using hfollows

/-- A function that is not changed is read as it was. -/
theorem Parts.Found.replaces_self (h : p.Found) (halone : Spells none p.alone []) :
    p.Replaces p := by
  obtain ⟨_, hwell⟩ := h.wellFormed
  exact ⟨rfl, rfl, rfl, h.function, hwell.braceClose, fun _ => id, hwell.braceClose, halone⟩

end

/-! ### Both directions -/

section

variable {layout : Layout} {changes : List Change} {items : List Item} {normalize : Bool}
  {source : Text}

/-- **Adapters and helpers that are read** make a text that is read as it was meant.  The items of
the text are rewritten one by one; extraction walks over the new ones as it did over the old ones
and finds what was expected in each place. -/
theorem readAsMeant_of_reads (hts : tokenize source = .ok (tokensOf items))
    (hwalks : Walks 0 none none [] items [])
    (hnodup : (changes.map fun c => c.declaration.index).Nodup)
    (hsound : ∀ c ∈ changes, c.Sound (declarationsOf normalize 0 [] items))
    (hreads : ∀ c ∈ changes, c.Reads layout) :
    ReadAsMeant layout changes source (Text.splice 0
      (sortList (fun e f => e.start < f.start) (changes.map (Change.edit layout))) source) := by
  obtain ⟨items', hrewritten⟩ : ∃ items', Rewritten (Becomes
      (fun i => (changeOf changes i).map (Change.text layout)) (expectedOf layout changes))
      0 items items' := by
    refine @exists_rewritten _ _ 0 items [] fun p scope index hp hread => ?_
    have hfound := hwalks.found p hp
    have halone := Parts.spells_alone hts hp hfound
    cases hchange : changeOf changes index with
    | none =>
      refine ⟨p, [], ⟨?_, ?_, fun scope => ?_⟩, hfound.replaces_self halone, by simp⟩
      · simp [hchange]
      · simp [hchange]
      · have hindex : (p.read true index scope).index = index := rfl
        rw [expectedOf, hindex, hchange]
        refine .cons (fun index' scope' => ⟨rfl, rfl, rfl, rfl, ?_⟩) .nil
        rintro texts ⟨⟩
        rfl
    | some c =>
      obtain ⟨hc, rfl⟩ := (changeOf_eq_some_iff hnodup).mp hchange
      have hsame : c.declaration = p.read normalize c.declaration.index scope :=
        eq_of_index_declarationsOf (hsound c hc).mem (hread normalize) rfl
      obtain ⟨q, us, hsource, hasync, hexpected, hreplaces, hfollows⟩ :=
        (hsound c hc).exists_parts (hreads c hc) hfound halone hsame
      refine ⟨q, us, ⟨?_, fun _ => hasync, fun scope => ?_⟩, hreplaces, hfollows⟩
      · simp [hchange, hsource]
      · rw [expectedOf_read hnodup hc]
        exact hexpected scope
  have hascending : Ascending (sortList (fun e f => e.start < f.start)
      (changes.map (Change.edit layout))) := by
    have hstand := @standIn_of_tokenize _ _ _ [] (by rwa [List.append_nil]) hwalks normalize
    exact ascending_edits hstand hnodup fun c hc => (hsound c hc).mem
  have hplace : ∀ c ∈ changes, ∃ d ∈ declarationsOf true 0 [] items,
      d.index = c.declaration.index ∧ d.start = c.declaration.start ∧
        d.stop = c.declaration.stop := by
    intro c hc
    obtain ⟨p, scope, _, hread, hmem⟩ := exists_parts_of_mem_declarationsOf (hsound c hc).mem
    exact ⟨_, hmem true, rfl, by rw [hread]; rfl, by rw [hread]; rfl⟩
  obtain ⟨ds', hds', hall⟩ := declarations_of_rewritten hts hwalks hrewritten hascending
    (mem_edits_iff hnodup hplace fun d hd d' hd' => eq_of_index_declarationsOf hd hd')
  exact ⟨_, ds', declarations_of_walks rfl hts hwalks, hds', hall⟩

/-- **A text that is read as it was meant** holds adapters and helpers that are read.  What is
found in the place of a change is found by itself, too, since a declaration does not depend on what
stands around it. -/
theorem reads_of_readAsMeant (hts : tokenize source = .ok (tokensOf items))
    (hwalks : Walks 0 none none [] items [])
    (hnodup : (changes.map fun c => c.declaration.index).Nodup)
    (hsound : ∀ c ∈ changes, c.Sound (declarationsOf normalize 0 [] items)) {text : Text}
    (h : ReadAsMeant layout changes source text) : ∀ c ∈ changes, c.Reads layout := by
  obtain ⟨ds, ds', hds, hds', hall⟩ := h
  obtain rfl := Except.ok.inj ((declarations_of_walks rfl hts hwalks).symm.trans hds)
  intro c hc
  obtain ⟨p, scope, hp, hread, hmem⟩ := exists_parts_of_mem_declarationsOf (hsound c hc).mem
  have hfound := hwalks.found p hp
  obtain ⟨afterDefault, hwell⟩ := hfound.wellFormed
  have hasync : p.async = none := by
    have hplain := (hsound c hc).plain
    rw [hread] at hplain
    exact Parts.async_eq_none_of_plain hplain
  -- Whatever is expected of the function is read in the new text.
  have hexpected : ∀ e ∈ c.expected layout (p.read true c.declaration.index scope),
      ∃ (q : Parts) (index : Nat) (scope : Option Nat), q.Found ∧ Spells none q.alone [] ∧
        e.Is (q.read true index scope) := by
    intro e he
    rw [← expectedOf_read hnodup hc] at he
    obtain ⟨d', hd', his⟩ := exists_of_forall₂ hall e (List.mem_flatMap_of_mem (hmem true) he)
    obtain ⟨q, scope', hfound', halone, hsame⟩ := exists_alone_of_declarations rfl hds' d' hd'
    rw [hsame] at his
    exact ⟨q, _, scope', hfound', halone, his⟩
  constructor
  · obtain ⟨q, index, scope', hfound', halone, his⟩ := hexpected _ List.mem_cons_self
    have hcloses := hfound'.headerCloses_of_is halone hwell hfound.function hasync his
    rw [hread]
    exact hcloses
  · intro fills hfills
    have hmem : layout.helped c.declaration c.target fills ∈
        c.expected layout (p.read true c.declaration.index scope) := by
      rw [Change.expected, Option.mem_def.mp hfills]
      exact List.mem_cons_of_mem _ List.mem_cons_self
    obtain ⟨q, index, scope', hfound', halone, his⟩ := hexpected _ hmem
    exact helperReads_of_is hfound' halone (hsound c hc).target his

end

/-! ### Coalesced texts -/

/-- **What is emitted is what was meant**, if and only if the adapters and the helpers are read
as such.  For every function that is changed, the brace behind its header has to be read, and its
helper, if it has one, has to be read by itself. -/
theorem coalesce_reads_iff {source : Text} {options : Options} {d : Detection} {layout : Layout}
    {r : Coalesced} (hregion : options.region = none) (hdetect : detect source options = .ok d)
    (hcoalesce : coalesce source d layout = .ok r) :
    ∃ changes : List Change,
      changes.map Change.call = r.shared.flatMap (SharedBody.calls d.declarations) ∧
      (∀ c ∈ changes, c.Sound d.declarations) ∧
      r.text = Text.splice 0
        (sortList (fun e f => e.start < f.start) (changes.map (Change.edit layout))) source ∧
      (ReadAsMeant layout changes source r.text ↔ ∀ c ∈ changes, c.Reads layout) := by
  obtain ⟨p, hplan, htext, hshared⟩ := plan_of_coalesce hcoalesce
  obtain ⟨changes, hmakes, hsound⟩ := exists_changes_of_plan hdetect hplan
  have hsound := hsound hregion
  have hsplice : r.text = Text.splice 0 (sortList (fun e f => e.start < f.start)
      (changes.map (Change.edit layout))) source := by
    rw [htext, Plan.apply, hmakes.edits_eq]
  refine ⟨changes, hshared ▸ hmakes.calls_eq, hsound, hsplice, ?_⟩
  obtain ⟨ts, hts⟩ := exists_tokens_of_plan hplan
  obtain ⟨items, rfl, hwalks, hitems⟩ :=
    exists_walk_of_declarations hregion hts (declarations_of_detect hdetect)
  rw [hitems] at hsound
  constructor
  · exact reads_of_readAsMeant hts hwalks hmakes.nodup hsound
  · intro hreads
    rw [hsplice]
    exact readAsMeant_of_reads hts hwalks hmakes.nodup hsound hreads

/-- A call begins with `return`. -/
theorem Layout.head?_call (l : Layout) (target : Text) (arguments : List Text) :
    (l.call target arguments).head? = some 'r' := by
  have hword : "return ".toList = 'r' :: "eturn ".toList := by decide
  unfold call
  generalize "return ".toList = word at hword ⊢
  rw [hword]
  rfl

/-- A function whose header ends with a line comment, in front of a block. -/
def swallowing : Text :=
  ("function f()\x7breturn 1\x7d\nfunction g() // copy\n\x7breturn 1\x7d\n" ++
    "\x7binit()\x7d").toList

/-- The text that `swallowing` becomes. -/
def swallowed : Text :=
  ("function f()\x7breturn 1\x7d\nfunction g() // copy \x7b return f(); \x7d\n" ++
    "\x7binit()\x7d").toList

/-- The comment takes in the call, and the block behind the adapter is read as its body.  The
second function then does what the block did, and does not call the first one. -/
theorem swallowing_loses_the_call : ∃ d r ds, detect swallowing {} = .ok d ∧
    coalesce swallowing d {} = .ok r ∧ r.shared = [⟨0, [1], none, 0⟩] ∧ r.text = swallowed ∧
    declarations r.text {} = .ok ds ∧ ds.map Declaration.name = [['f'], ['g']] ∧
    ds.map (fun d => d.lines.map LogicalLine.text) = [["return 1".toList], ["init()".toList]] ∧
    ∀ arguments, Layout.call {} ['f'] arguments ≠ "init()".toList := by
  have hrun : (runOn swallowing {}).map (fun x => (x.2.shared, x.2.text)) =
      some ([⟨0, [1], none, 0⟩], swallowed) := by
    decide +kernel
  have hread : (declarations swallowed {}).toOption.map (fun ds => (ds.map Declaration.name,
      ds.map fun d => d.lines.map LogicalLine.text)) =
      some ([['f'], ['g']], [["return 1".toList], ["init()".toList]]) := by
    decide +kernel
  obtain ⟨⟨d, r⟩, hresult, hfields⟩ := Option.map_eq_some_iff.mp hrun
  obtain ⟨hshared, htext⟩ := Prod.mk.inj hfields
  obtain ⟨hdetect, hcoalesce⟩ := of_runOn hresult
  have htext : r.text = swallowed := htext
  rcases hds : declarations swallowed {} with e | ds <;> rw [hds] at hread
  · cases hread
  obtain ⟨hnames, hlines⟩ := Prod.mk.inj (Option.some_inj.mp hread)
  refine ⟨d, r, ds, hdetect, hcoalesce, hshared, htext, htext ▸ hds, hnames, hlines, ?_⟩
  intro arguments hcall
  have hhead := Layout.head?_call {} ['f'] arguments
  rw [hcall] at hhead
  revert hhead
  decide

/-- The condition for a text in which a line comment swallows the call.  The only change is the
adapter of the second function, whose header ends in the comment. -/
theorem reads_iff_swallowing : ∃ d r, Options.region {} = none ∧ detect swallowing {} = .ok d ∧
    coalesce swallowing d {} = .ok r ∧ r.shared = [⟨0, [1], none, 0⟩] ∧
    ∃ changes : List Change,
      changes.map Change.call = [(1, ['f'], false)] ∧ (∀ c ∈ changes, c.Sound d.declarations) ∧
      r.text = Text.splice 0
        (sortList (fun e f => e.start < f.start) (changes.map (Change.edit {}))) swallowing ∧
      (ReadAsMeant {} changes swallowing r.text ↔ ∀ c ∈ changes, c.Reads {}) := by
  have hrun : (runOn swallowing {}).map (fun x => (x.2.shared,
      x.2.shared.flatMap (SharedBody.calls x.1.declarations))) =
      some ([⟨0, [1], none, 0⟩], [(1, ['f'], false)]) := by
    decide +kernel
  obtain ⟨⟨d, r⟩, hresult, hfields⟩ := Option.map_eq_some_iff.mp hrun
  obtain ⟨hshared, hcalls⟩ := Prod.mk.inj hfields
  obtain ⟨hdetect, hcoalesce⟩ := of_runOn hresult
  have hregion : Options.region {} = none := rfl
  obtain ⟨changes, hchanges, hsound, htext, hiff⟩ := coalesce_reads_iff hregion hdetect hcoalesce
  exact ⟨d, r, hregion, hdetect, hcoalesce, hshared, changes, hchanges.trans hcalls, hsound, htext,
    hiff⟩

end Twinfold

