import Twinfold.Proofs.Coalesce.NameSupply
import Twinfold.Proofs.Coalesce.Works
import Twinfold.Proofs.Declaration.Source
import Twinfold.Proofs.Text.Splice
import Twinfold.Proofs.Token.Renaming

/-!
# Bodies of helpers

A helper has the canonical body in which names stand in the places of the slots.  The names are
put in byte for byte, and nothing is put around them.  So the helper holds the tokens of the
canonical body, with identifiers in the places of the slots, if the slots are tokens of the body
and no name runs together with a neighbour (`CanAbstract`), and only then
(`abstracts_iff`).

A string directly behind the word `return` is enough for a name to run together with it
(`helper_of_adjoining`).
-/

namespace Twinfold

/-! ### Generated names -/

/-- Generated names are identifiers. -/
theorem isName_nameAt (n : Nat) : IsName (nameAt n) := by
  have hfirst : ∀ c ∈ firstChars, beginsIdent c = true ∧ isGapSpace c = false := by decide
  have hlater : ∀ c ∈ laterChars, continuesIdent c = true ∧ isWideSpace c = false := by decide
  obtain ⟨c, body, hname, hc, hbody⟩ := nameAt_cases n
  rw [hname]
  exact isName_of_continues (hfirst c hc).1 (hfirst c hc).2 fun d hd => hlater d (hbody d hd)

theorem isName_fresh (names : NameSupply) : IsName names.fresh.1 := isName_nameAt _

/-- Generated names are identifiers. -/
theorem isName_of_mem_freshList {names : NameSupply} {count : Nat} :
    ∀ name ∈ (names.freshList count).1, IsName name := by
  intro name hname
  obtain ⟨n, rfl⟩ := (names.handsOut_freshList count).exists_number name hname
  exact isName_nameAt n

/-! ### Edits of tokens -/

/-- The edit replaces the token. -/
def Edit.At (e : Edit) (t : Token) : Prop := e.start = t.start ∧ e.stop = t.stop

instance (e : Edit) (t : Token) : Decidable (e.At t) := inferInstanceAs (Decidable (_ ∧ _))

/-- What replaces a token. -/
def replacement (edits : List Edit) (t : Token) : Option Text :=
  (edits.find? fun e => e.At t).map Edit.text

/-- No two of ascending edits are in one place.  The edit that is found for a token is therefore
the only one there. -/
theorem replacement_eq_some_iff {edits : List Edit} (h : Ascending edits) {t : Token} {text : Text} :
    replacement edits t = some text ↔ ⟨t.start, t.stop, text⟩ ∈ edits := by
  induction edits with
  | nil => simp [replacement]
  | cons e edits ih =>
    obtain ⟨hhead, htail⟩ := List.pairwise_cons.mp h
    obtain ⟨start, stop, text'⟩ := e
    rw [replacement, List.find?_cons, List.mem_cons, Edit.mk.injEq]
    by_cases hat : (⟨start, stop, text'⟩ : Edit).At t
    · have hother : (⟨t.start, t.stop, text⟩ : Edit) ∉ edits := by
        intro hmem
        have hlt := hhead _ hmem
        rw [hat.1] at hlt
        exact Nat.lt_irrefl _ hlt
      obtain ⟨rfl, rfl⟩ := hat
      simp [Edit.At, hother, eq_comm]
    · have hne : ¬(t.start = start ∧ t.stop = stop ∧ text = text') := fun heq =>
        hat ⟨heq.1.symm, heq.2.1.symm⟩
      simp only [hat, decide_false, hne, false_or]
      exact ih htail

/-- The gaps and the texts of tokens, with names for some of the tokens. -/
def chunksOf (names : Token → Option Text) (ts : List Token) : List Chunk :=
  ts.flatMap fun t => [⟨t.gap, none⟩, ⟨t.text, names t⟩]

section

variable {names : Token → Option Text} {ts : List Token}

theorem chunksOf_cons (names : Token → Option Text) (t : Token) (ts : List Token) :
    chunksOf names (t :: ts) = ⟨t.gap, none⟩ :: ⟨t.text, names t⟩ :: chunksOf names ts := rfl

/-- The chunks of tokens make up the text of the tokens. -/
theorem oldText_chunksOf (names : Token → Option Text) (ts : List Token) :
    oldText (chunksOf names ts) = Token.sourceOf ts := by
  induction ts with
  | nil => rfl
  | cons t ts ih => rw [chunksOf_cons, oldText_cons, oldText_cons, ih, sourceOf_cons]

/-- The chunks of tokens with names in their places make up the text with the names. -/
theorem newText_chunksOf (names : Token → Option Text) (ts : List Token) :
    newText (chunksOf names ts) = Token.sourceOf (ts.map (Token.renamed names)) := by
  induction ts with
  | nil => rfl
  | cons t ts ih =>
    have htext : (t.renamed names).text = (names t).getD t.text := by
      unfold Token.renamed
      cases names t <;> rfl
    rw [chunksOf_cons, newText_cons, newText_cons, ih, List.map_cons, sourceOf_cons, htext,
      gap_renamed]
    rfl

/-- The edits of the tokens that get a name.  Each of them replaces the whole token, where it
stands in the text. -/
theorem mem_editsOf_chunksOf {offset : Nat} (h : Placed offset ts) {e : Edit} :
    e ∈ editsOf offset (chunksOf names ts) ↔ ∃ t ∈ ts, names t = some e.text ∧ e.At t := by
  induction ts generalizing offset with
  | nil => simp [chunksOf, editsOf]
  | cons t ts ih =>
    obtain ⟨hstart, hrest⟩ := h
    have hhead : e ∈ ((names t).map fun text => (⟨t.start, t.stop, text⟩ : Edit)).toList ↔
        names t = some e.text ∧ e.At t := by
      obtain ⟨start, stop, text⟩ := e
      simp only [Option.mem_toList, Option.map_eq_some_iff, Edit.mk.injEq, Edit.At]
      grind
    have hedits : editsOf offset (chunksOf names (t :: ts)) =
        ((names t).map fun text => (⟨t.start, t.stop, text⟩ : Edit)).toList ++
          editsOf t.stop (chunksOf names ts) := by
      rw [chunksOf_cons, editsOf, editsOf, ← hstart]
      rfl
    rw [hedits, List.mem_append, ih hrest, hhead]
    simp

/-- **Splicing tokens.**  Edits that replace tokens of a text put their texts in the places of
the tokens. -/
theorem splice_tokens {edits : List Edit} (hplaced : Placed 0 ts) (hne : ∀ t ∈ ts, t.text ≠ [])
    (hascending : Ascending edits) (hat : ∀ e ∈ edits, ∃ t ∈ ts, e.At t) :
    Text.splice 0 edits (Token.sourceOf ts) =
      Token.sourceOf (ts.map (Token.renamed (replacement edits))) := by
  have hedits : edits = editsOf 0 (chunksOf (replacement edits) ts) := by
    refine eq_of_ascending hascending (ascending_editsOf ?_) fun e => ?_
    · intro c hc hnew
      obtain ⟨t, ht, hc⟩ := List.mem_flatMap.mp hc
      simp only [List.mem_cons, List.not_mem_nil, or_false] at hc
      rcases hc with rfl | rfl
      · cases hnew
      · exact hne t ht
    · rw [mem_editsOf_chunksOf hplaced]
      simp only [replacement_eq_some_iff hascending]
      constructor
      · intro he
        obtain ⟨t, ht, hat⟩ := hat e he
        refine ⟨t, ht, ?_, hat⟩
        rw [← hat.1, ← hat.2]
        exact he
      · rintro ⟨t, _, he, hat⟩
        rw [← hat.1, ← hat.2] at he
        exact he
  conv_lhs => rw [hedits]
  rw [← oldText_chunksOf (replacement edits), splice_edits, newText_chunksOf]

end

/-! ### Slots in a body -/

section

variable {rules : LineRules} {c : Declaration} {ts : List Token} {slot : Slot}
  {fills : List (Slot × Text)}

/-- The edit that puts a name into a slot. -/
def slotEdit (c : Declaration) (fill : Slot × Text) (line : LogicalLine) : Edit :=
  ⟨line.start - c.bodyStart + fill.1.span.start, line.start - c.bodyStart + fill.1.span.stop, fill.2⟩

theorem slotEdits_eq (c : Declaration) (fills : List (Slot × Text)) :
    Layout.slotEdits c fills =
      fills.filterMap fun fill => c.lines[fill.1.line]?.map (slotEdit c fill) := rfl

theorem mem_slotEdits {e : Edit} : e ∈ Layout.slotEdits c fills ↔
    ∃ fill ∈ fills, ∃ line, c.lines[fill.1.line]? = some line ∧ slotEdit c fill line = e := by
  simp only [slotEdits_eq, List.mem_filterMap, Option.map_eq_some_iff]

/-- Every slot gets its name. -/
theorem map_text_slotEdits (htoken : ∀ fill ∈ fills, fill.1.IsTokenOf c) :
    (Layout.slotEdits c fills).map Edit.text = fills.map Prod.snd := by
  induction fills with
  | nil => rfl
  | cons fill fills ih =>
    obtain ⟨line, _, _, hline, _⟩ := htoken fill List.mem_cons_self
    have hmore := ih fun f hf => htoken f (List.mem_cons_of_mem _ hf)
    rw [slotEdits_eq] at hmore ⊢
    rw [List.filterMap_cons, hline, Option.map_some, List.map_cons, List.map_cons, hmore]
    rfl

/-- A slot lies in its line, and the line in the body.  It is not empty, since tokens are not. -/
theorem Slot.IsTokenOf.bounds (h : slot.IsTokenOf c) (hlines : LinesIn c.bodyStart c.body c.lines)
    {line : LogicalLine} (hline : c.lines[slot.line]? = some line) :
    c.bodyStart ≤ line.start ∧ slot.span.start < slot.span.stop ∧
      line.start + slot.span.stop ≤ line.stop := by
  obtain ⟨line', us, u, hline', hus, hu, hspan, _⟩ := h
  cases hline.symm.trans hline'
  obtain ⟨before, rest, _, hstart, hstop⟩ :=
    hlines.exists_split line (List.mem_of_getElem? hline)
  obtain ⟨front, behind, hsource, hplace⟩ := (placed_of_tokenize hus).exists_split u hu
  obtain ⟨closing, htext⟩ := exists_closing_of_tokenize hus
  have hsize := congrArg Text.size htext
  rw [hsource] at hsize
  simp only [Text.size_append] at hsize
  have hpos := (pairwise_of_tokenize hus).2 u hu
  have hustop : u.stop = u.start + u.text.size := rfl
  rw [hspan]
  dsimp only
  omega

/-- Slots in the order of the body stand in one line, or in lines one behind the other. -/
theorem Slot.lines_of_before (hlines : LinesIn c.bodyStart c.body c.lines) {s t : Slot}
    (hbefore : s.before t = true) {line line' : LogicalLine} (hline : c.lines[s.line]? = some line)
    (hline' : c.lines[t.line]? = some line') :
    line.stop ≤ line'.start ∨ s.line = t.line ∧ line = line' ∧ s.span.start < t.span.start := by
  rcases Slot.before_iff.mp hbefore with hlt | ⟨heq, hlt⟩
  · obtain ⟨hi, rfl⟩ := List.getElem?_eq_some_iff.mp hline
    obtain ⟨hj, rfl⟩ := List.getElem?_eq_some_iff.mp hline'
    exact .inl (List.pairwise_iff_getElem.mp hlines.pairwise _ _ hi hj hlt)
  · rw [heq, hline'] at hline
    exact .inr ⟨heq, (Option.some_inj.mp hline).symm, hlt⟩

/-- The edits for slots in the order of the body ascend. -/
theorem ascending_slotEdits (hlines : LinesIn c.bodyStart c.body c.lines)
    (htoken : ∀ fill ∈ fills, fill.1.IsTokenOf c)
    (hordered : fills.Pairwise fun fill other => fill.1.before other.1 = true) :
    Ascending (Layout.slotEdits c fills) := by
  rw [slotEdits_eq, Ascending, List.pairwise_filterMap]
  refine hordered.imp_of_mem ?_
  intro fill other hfill hother hbefore e he f hf
  obtain ⟨line, hline, rfl⟩ := Option.map_eq_some_iff.mp he
  obtain ⟨line', hline', rfl⟩ := Option.map_eq_some_iff.mp hf
  obtain ⟨hlow, hpos, hhigh⟩ := (htoken fill hfill).bounds hlines hline
  obtain ⟨hlow', hpos', hhigh'⟩ := (htoken other hother).bounds hlines hline'
  dsimp only [slotEdit]
  rcases Slot.lines_of_before hlines hbefore hline hline' with hbehind | ⟨-, rfl, hlt⟩ <;> omega

/-- A token of the body in the place of a slot is the token of the slot.  Both are read at one
place of the same text, and the kind of a token that does not begin with a slash does not depend on
what stands before it. -/
theorem Declaration.BodyRead.word_eq (h : c.BodyRead ts) {line : LogicalLine} {us : List Token}
    {t u : Token} (hline : line ∈ c.lines) (hus : tokenize line.text = .ok us) (hu : u ∈ us)
    (ht : t ∈ ts) (hstart : line.start - c.bodyStart + u.start = t.start)
    (hstop : line.start - c.bodyStart + u.stop = t.stop) (hslash : u.text.head? ≠ some '/') :
    t.word = u.word := by
  obtain ⟨before, rest, hbody, hlineStart, _⟩ := h.lines.exists_split line hline
  obtain ⟨front, behind, hfront, huStart⟩ := (placed_of_tokenize hus).exists_split u hu
  obtain ⟨front', behind', hfront', htStart⟩ :=
    (placed_of_tokenize h.tokenize_eq).exists_split t ht
  obtain ⟨closing, hclosing⟩ := exists_closing_of_tokenize hus
  -- The text of the body around the token, once seen from the line and once from the body.
  have hsplit : (before ++ front) ++ (u.text ++ (behind ++ (closing ++ rest))) =
      front' ++ (t.text ++ behind') := by
    rw [← hfront', h.sourceOf_eq, hbody, hclosing, hfront]
    simp
  have hustop : u.stop = u.start + u.text.size := rfl
  have htstop : t.stop = t.start + t.text.size := rfl
  obtain ⟨_, hrest⟩ := append_inj_of_size hsplit (by rw [Text.size_append]; omega)
  obtain ⟨htext, _⟩ := append_inj_of_size hrest (by omega)
  obtain ⟨_, _, hreads⟩ := exists_reads_of_tokenize hus u hu
  obtain ⟨_, _, hreads'⟩ := h.spells.exists_reads t ht
  rw [← htext] at hreads'
  exact word_eq_iff.mpr ⟨kind_eq_of_reads hreads' hreads hslash, htext.symm⟩

/-- What can be replaced is no word that waits for an operand.  So a slash behind it divides,
whether it stays or a name takes its place. -/
theorem slash_of_isReplaceable {f : FunctionForm} {before after : Option Token} {t : FormToken}
    (h : f.isReplaceable before t after = true) : slashBeginsRegex (some t.token) = false ∧
      t.token.kind ≠ .regex ∧ t.token.kind ≠ .punct := by
  have hkeywords : t.token.isAnyOf wordsBeforeRegex = true → t.token.isAnyOf keywords = true := by
    have hsub : ∀ s ∈ wordsBeforeRegex, s ∈ keywords := by decide
    intro hword
    obtain ⟨s, hs, htext⟩ := List.any_eq_true.mp hword
    exact List.any_eq_true.mpr ⟨s, hsub s hs, htext⟩
  have hconstants : t.token.isAnyOf constantWords = true →
      t.token.isAnyOf wordsBeforeRegex = false := by
    have hapart : ∀ s ∈ constantWords, ∀ w ∈ wordsBeforeRegex, s.toList ≠ w.toList := by decide
    intro hword
    obtain ⟨s, hs, htext⟩ := List.any_eq_true.mp hword
    by_contra hother
    obtain ⟨w, hw, htext'⟩ := List.any_eq_true.mp (Bool.not_eq_false _ ▸ hother)
    exact hapart s hs w hw ((of_decide_eq_true htext).symm.trans (of_decide_eq_true htext'))
  unfold FunctionForm.isReplaceable at h
  split at h
  · cases h
  split at h <;> rename_i hkind <;> simp only [slashBeginsRegex, hkind]
  case h_4 =>
    refine ⟨?_, by decide, by decide⟩
    simp only [Bool.or_eq_true, Bool.and_eq_true, Bool.not_eq_true'] at h
    rcases h with hconstant | ⟨⟨⟨⟨_, hkeyword⟩, _⟩, _⟩, _⟩
    · exact hconstants hconstant
    · by_contra hword
      rw [hkeywords (Bool.not_eq_false _ ▸ hword)] at hkeyword
      cases hkeyword
  case h_5 => cases h
  case h_6 => cases h
  all_goals exact ⟨trivial, by decide, by decide⟩

/-- What is no regular expression and no punctuator does not begin with a slash. -/
theorem head?_ne_slash_of_reads {previous : Option Token} {kind : TokenKind} {text tail : Text}
    (h : Reads previous kind text tail) (hregex : kind ≠ .regex) (hpunct : kind ≠ .punct) :
    text.head? ≠ some '/' := by
  intro hslash
  cases text with
  | nil => cases hslash
  | cons c body =>
    cases hslash
    obtain ⟨_, hkind, _⟩ := reads_cons_iff.mp h
    rw [kindAt_slash] at hkind
    split at hkind
    · exact hregex hkind.symm
    · exact hpunct hkind.symm

/-! ### Abstracting the slots -/

/-- The text holds the tokens of the body in which those that the edits are at, and no others,
are replaced by identifiers. -/
def Abstracts (edits : List Edit) (body text : Text) : Prop :=
  ∃ ts us, tokenize body = .ok ts ∧ tokenize text = .ok us ∧
    (∀ e ∈ edits, ∃ t ∈ ts, e.At t) ∧
      us.map Token.word = (ts.map (Token.renamed (replacement edits))).map Token.word

/-- The edits are at tokens of the body, and no name runs together with a neighbour. -/
structure CanAbstract (edits : List Edit) (ts : List Token) : Prop where
  at_tokens : ∀ e ∈ edits, ∃ t ∈ ts, e.At t
  apart : Token.Apart (replacement edits) ts

/-- Slots that fit the lines of a function are tokens of them. -/
theorem isTokenOf_of_fits (hfits : ∀ fill ∈ fills, ∃ form i t, fill.1.Fits (.of rules c) form i t) :
    ∀ fill ∈ fills, fill.1.IsTokenOf c := by
  intro fill hfill
  obtain ⟨form, i, t, hfits⟩ := hfits fill hfill
  exact hfits.isTokenOf

/-- A token of a body that is replaced is one that can be.  An edit replaces the token that begins
where its slot does, and the slot fits a line of the function. -/
theorem Declaration.BodyRead.of_replaced (h : c.BodyRead ts)
    (hfits : ∀ fill ∈ fills, ∃ form i t, fill.1.Fits (.of rules c) form i t)
    (hordered : fills.Pairwise fun fill other => fill.1.before other.1 = true) {t : Token}
    (ht : t ∈ ts) (hsome : (replacement (Layout.slotEdits c fills) t).isSome) :
    slashBeginsRegex (some t) = false ∧ t.text.head? ≠ some '/' ∧ t.kind ≠ .punct := by
  have hascending := ascending_slotEdits h.lines (isTokenOf_of_fits hfits) hordered
  obtain ⟨name, hname⟩ := Option.isSome_iff_exists.mp hsome
  rw [replacement_eq_some_iff hascending, mem_slotEdits] at hname
  obtain ⟨fill, hfill, line, hline, hedit⟩ := hname
  obtain ⟨form, i, u, hfits⟩ := hfits fill hfill
  obtain ⟨_, us, hline', hus⟩ := hfits.exists_line
  cases hline.symm.trans hline'
  obtain ⟨_, hu⟩ := hfits.token_of_line hline hus
  have hmem := List.mem_of_getElem? hu
  have hreplaceable := hfits.replaceable
  rw [FunctionForm.isReplaceableAt, hfits.token_eq] at hreplaceable
  obtain ⟨hslash, hregex, hpunct⟩ := slash_of_isReplaceable hreplaceable
  obtain ⟨_, _, hreads⟩ := exists_reads_of_tokenize hus _ hmem
  have hhead := head?_ne_slash_of_reads hreads hregex hpunct
  have hspan := hfits.span_eq
  have hstart : line.start - c.bodyStart + u.token.start = t.start := by
    have hstart := congrArg Edit.start hedit
    rw [slotEdit, hspan] at hstart
    exact hstart
  have hstop : line.start - c.bodyStart + u.token.stop = t.stop := by
    have hstop := congrArg Edit.stop hedit
    rw [slotEdit, hspan] at hstop
    exact hstop
  have hword := h.word_eq (List.mem_of_getElem? hline) hus hmem ht hstart hstop hhead
  obtain ⟨hkind, htext⟩ := word_eq_iff.mp hword
  rw [slashBeginsRegex_congr hkind htext, htext, hkind]
  exact ⟨hslash, hhead, hpunct⟩

/-- The tokens of a body can be named where the slots are. -/
theorem Declaration.BodyRead.nameable (h : c.BodyRead ts)
    (hfits : ∀ fill ∈ fills, ∃ form i t, fill.1.Fits (.of rules c) form i t)
    (hordered : fills.Pairwise fun fill other => fill.1.before other.1 = true)
    (hnames : ∀ fill ∈ fills, IsName fill.2) :
    ∀ t ∈ ts, t.Nameable (replacement (Layout.slotEdits c fills)) := by
  have hascending := ascending_slotEdits h.lines (isTokenOf_of_fits hfits) hordered
  intro t ht
  refine ⟨fun name hname => ?_, fun hsome => ?_⟩
  · rw [replacement_eq_some_iff hascending, mem_slotEdits] at hname
    obtain ⟨fill, hfill, line, _, hedit⟩ := hname
    have htext : fill.2 = name := congrArg Edit.text hedit
    exact htext ▸ hnames fill hfill
  · obtain ⟨hslash, hhead, _⟩ := h.of_replaced hfits hordered ht hsome
    exact ⟨hslash, hhead⟩

/-- The names stand in the places of the tokens that the slots are at. -/
theorem Declaration.BodyRead.splice_eq (h : c.BodyRead ts)
    (hfits : ∀ fill ∈ fills, ∃ form i t, fill.1.Fits (.of rules c) form i t)
    (hordered : fills.Pairwise fun fill other => fill.1.before other.1 = true)
    (hat : ∀ e ∈ Layout.slotEdits c fills, ∃ t ∈ ts, e.At t) :
    Text.splice 0 (Layout.slotEdits c fills) c.body =
      Token.sourceOf (ts.map (Token.renamed (replacement (Layout.slotEdits c fills)))) := by
  rw [← h.sourceOf_eq]
  exact splice_tokens (placed_of_tokenize h.tokenize_eq) h.spells.text_ne_nil
    (ascending_slotEdits h.lines (isTokenOf_of_fits hfits) hordered) hat

/-- **Helpers abstract.**  A body with names in the places of slots holds its tokens with
identifiers in the places of the slots if and only if the slots are tokens of the body and no
name runs together with a neighbour. -/
theorem abstracts_iff (h : c.BodyRead ts)
    (hfits : ∀ fill ∈ fills, ∃ form i t, fill.1.Fits (.of rules c) form i t)
    (hordered : fills.Pairwise fun fill other => fill.1.before other.1 = true)
    (hnames : ∀ fill ∈ fills, IsName fill.2) :
    Abstracts (Layout.slotEdits c fills) c.body
        (Text.splice 0 (Layout.slotEdits c fills) c.body) ↔
      CanAbstract (Layout.slotEdits c fills) ts := by
  have hnameable := h.nameable hfits hordered hnames
  have hne := h.spells.text_ne_nil
  -- The new text begins with the brace or with a name, hence with no hash.
  have hbang : hashBang (Token.sourceOf
      (ts.map (Token.renamed (replacement (Layout.slotEdits c fills))))) = [] := by
    refine hashBang_of_head? ?_
    have hhead := h.head?_eq
    rw [← h.sourceOf_eq] at hhead
    rcases sourceOf_renamed_cases ts hnameable hne with hsame | ⟨common, old, d, new, hold, hnew, hd, _⟩
    · rw [hsame, hhead]
      decide
    · rw [hnew]
      cases common with
      | nil =>
        rintro ⟨⟩
        cases hd
      | cons e common =>
        rw [hold] at hhead
        cases hhead
        simp
  have hiff := tokenize_renamed_iff h.spells hnameable hbang
  constructor
  · rintro ⟨ts', us, hts', hus, hat, hwords⟩
    cases h.tokenize_eq.symm.trans hts'
    rw [h.splice_eq hfits hordered hat] at hus
    exact ⟨hat, hiff.mp ⟨us, hus, hwords⟩⟩
  · rintro ⟨hat, hapart⟩
    obtain ⟨us, hus, hwords⟩ := hiff.mpr hapart
    rw [← h.splice_eq hfits hordered hat] at hus
    exact ⟨ts, us, h.tokenize_eq, hus, hat, hwords⟩

end

/-! ### Helpers of a coalesced text -/

/-- What stands in front of the body of a helper. -/
def Layout.helperHead (l : Layout) (name : Text) (params : List Text) : Text :=
  "function ".toList ++ name ++ '(' :: Text.join l.separator params ++ ')' ::
    (if l.compact then [] else [' '])

/-- A helper is its head, with the names in front of the parameters, and the body with its slots
filled. -/
theorem helper_eq (l : Layout) (d : Declaration) (name : Text) (fills : List (Slot × Text)) :
    l.helper d name fills = l.helperHead name (fills.map Prod.snd ++ d.params) ++
      Text.splice 0 (Layout.slotEdits d fills) d.body := by
  unfold Layout.helper Layout.helperHead
  generalize "function ".toList = word
  simp only [List.append_assoc, List.cons_append]

/-- **Helpers have the canonical body with the slots abstracted**, if and only if the slots are
tokens of it and no name runs together with a neighbour. -/
theorem coalesce_abstracts_iff {source : Text} {options : Options} {d : Detection}
    {layout : Layout} {r : Coalesced} (hdetect : detect source options = .ok d)
    (hcoalesce : coalesce source d layout = .ok r) :
    ∃ p, plan source d layout = .ok p ∧ r.text = p.apply source ∧
      ∀ g ∈ r.shared, ∀ helper, g.helper = some helper → ∃ c fills front body ts,
        d.declarations[g.canonical]? = some c ∧ fills.length = g.slots ∧
        (∀ fill ∈ fills, fill.1.IsTokenOf c) ∧
        (Layout.slotEdits c fills).map Edit.text = fills.map Prod.snd ∧
        c.replaceBy (front ++ layout.helperHead helper (fills.map Prod.snd ++ c.params) ++ body) ∈
          p.edits ∧
        tokenize c.body = .ok ts ∧
        (Abstracts (Layout.slotEdits c fills) c.body body ↔
          CanAbstract (Layout.slotEdits c fills) ts) := by
  obtain ⟨p, hplan, htext, hshared⟩ := plan_of_coalesce hcoalesce
  refine ⟨p, hplan, htext, ?_⟩
  obtain ⟨works, hdoes, _⟩ := exists_works_of_plan hplan
  obtain ⟨ts, hts⟩ := exists_tokens_of_plan hplan
  intro g hg helper hhelper
  rw [hshared, hdoes.shared_eq] at hg
  obtain ⟨w, hw, rfl⟩ := List.mem_map.mp hg
  have hsound := hdoes.sound w hw
  simp only [Work.shared, Option.ite_none_right_eq_some, Option.some.injEq] at hhelper
  obtain ⟨hhas, rfl⟩ := hhelper
  obtain ⟨us, hread⟩ := bodyRead_of_declarations hts (declarations_of_detect hdetect) w.canonical
    (List.mem_of_getElem? hsound.canonical_eq)
  have hlength := w.length_slotParams d
  have hfits : ∀ fill ∈ (w.slots d).zip (w.slotParams d),
      ∃ form i t, fill.1.Fits (.of d.rules w.canonical) form i t := fun fill hfill =>
    Work.exists_fits (List.of_mem_zip hfill).1
  have hordered : ((w.slots d).zip (w.slotParams d)).Pairwise
      fun fill other => fill.1.before other.1 = true := by
    have hpairwise := w.pairwise_slots d
    rw [← List.map_fst_zip (Nat.le_of_eq hlength.symm), List.pairwise_map] at hpairwise
    exact hpairwise
  have hnames : ∀ fill ∈ (w.slots d).zip (w.slotParams d), IsName fill.2 := fun fill hfill =>
    isName_of_mem_freshList _ (List.of_mem_zip hfill).2
  have htoken := isTokenOf_of_fits hfits
  refine ⟨w.canonical, (w.slots d).zip (w.slotParams d),
    layout.adapter w.canonical w.helperName ((w.slots d).map Slot.text) ++ layout.lineEnd, _, us,
    hsound.canonical_eq, ?_, htoken, map_text_slotEdits htoken, ?_, hread.tokenize_eq,
    abstracts_iff hread hfits hordered hnames⟩
  · simp [List.length_zip, hlength, Work.shared]
  · have hedit : w.canonical.replaceBy (w.canonicalText layout d) ∈ p.edits := by
      rw [hdoes.edits_eq]
      refine List.mem_flatMap_of_mem hw (List.mem_append_left _ ?_)
      rw [if_pos hhas]
      exact List.mem_cons_self
    rw [Work.canonicalText, helper_eq] at hedit
    simpa using hedit

/-- Two functions that differ in a string directly behind the word `return`. -/
def adjoining : Text :=
  "function f()\x7breturn\"a\"\x7dfunction g()\x7breturn\"b\"\x7d".toList

/-- The detection and the result for a text. -/
def runOn (source : Text) (layout : Layout) : Option (Detection × Coalesced) :=
  (detect source {}).toOption.bind fun d =>
    (coalesce source d layout).toOption.map fun r => (d, r)

/-- A run on a text detects and then coalesces. -/
theorem of_runOn {source : Text} {layout : Layout} {d : Detection} {r : Coalesced}
    (h : runOn source layout = some (d, r)) :
    detect source {} = .ok d ∧ coalesce source d layout = .ok r := by
  unfold runOn at h
  rcases hdetect : detect source {} with e | d' <;> rw [hdetect] at h
  · cases h
  rcases hcoalesce : coalesce source d' layout with e | r' <;>
    simp only [Except.toOption, Option.bind_some, hcoalesce] at h
  · cases h
  · cases h
    exact ⟨rfl, hcoalesce⟩

/-- The helper is meant to return its parameter, and names another variable.  The word `return` and
the name have become one word, and the argument is not used. -/
theorem adjoining_runs_together : ∃ d r c, runOn adjoining ⟨true⟩ = some (d, r) ∧
    d.declarations[0]? = some c ∧ c.body = "\x7breturn\"a\"\x7d".toList ∧
    r.shared = [⟨0, [1], some ['$'], 1⟩] ∧
    r.text = ("function f()\x7breturn $(\"a\")\x7dfunction $(A)\x7breturnA\x7d" ++
      "function g()\x7breturn $(\"b\")\x7d").toList ∧
    ¬Abstracts (Layout.slotEdits c [(⟨0, ⟨6, 9⟩, "\"a\"".toList⟩, ['A'])]) c.body
      "\x7breturnA\x7d".toList := by
  have hrun : (runOn adjoining ⟨true⟩).map (fun x =>
      (x.1.declarations[0]?.map Declaration.body, x.2.shared, x.2.text)) =
      some (some "\x7breturn\"a\"\x7d".toList, [⟨0, [1], some ['$'], 1⟩],
        ("function f()\x7breturn $(\"a\")\x7dfunction $(A)\x7breturnA\x7d" ++
          "function g()\x7breturn $(\"b\")\x7d").toList) := by
    decide +kernel
  obtain ⟨⟨d, r⟩, hresult, hfields⟩ := Option.map_eq_some_iff.mp hrun
  simp only [Prod.mk.injEq] at hfields
  obtain ⟨hbody, hshared, htext⟩ := hfields
  obtain ⟨c, hc, hbody⟩ := Option.map_eq_some_iff.mp hbody
  refine ⟨d, r, c, hresult, hc, hbody, hshared, htext, ?_⟩
  rintro ⟨ts, us, hts, hus, _, hwords⟩
  rw [hbody] at hts
  have hlength := congrArg List.length hwords
  simp only [List.length_map] at hlength
  have hold : (tokenize "\x7breturn\"a\"\x7d".toList).toOption.map List.length = some 4 := by
    decide +kernel
  have hnew : (tokenize "\x7breturnA\x7d".toList).toOption.map List.length = some 3 := by
    decide +kernel
  rw [hts] at hold
  rw [hus] at hnew
  simp only [Except.toOption, Option.map_some, Option.some.injEq] at hold hnew
  omega

/-- The condition for a text in which the literal adjoins the word in front of it.  Neither side
holds: the name would run into the word in front of it. -/
theorem abstracts_iff_adjoining : ∃ d r p, detect adjoining {} = .ok d ∧
    coalesce adjoining d ⟨true⟩ = .ok r ∧ r.shared = [⟨0, [1], some ['$'], 1⟩] ∧
    plan adjoining d ⟨true⟩ = .ok p ∧ r.text = p.apply adjoining ∧
    ∃ c fills front body ts,
      d.declarations[0]? = some c ∧ fills.length = 1 ∧ (∀ fill ∈ fills, fill.1.IsTokenOf c) ∧
      (Layout.slotEdits c fills).map Edit.text = fills.map Prod.snd ∧
      c.replaceBy (front ++ Layout.helperHead ⟨true⟩ ['$'] (fills.map Prod.snd ++ c.params) ++ body) ∈
        p.edits ∧
      tokenize c.body = .ok ts ∧
      (Abstracts (Layout.slotEdits c fills) c.body body ↔
        CanAbstract (Layout.slotEdits c fills) ts) := by
  have hrun : (runOn adjoining ⟨true⟩).map (fun x => x.2.shared) =
      some [⟨0, [1], some ['$'], 1⟩] := by
    decide +kernel
  obtain ⟨⟨d, r⟩, hresult, hshared⟩ := Option.map_eq_some_iff.mp hrun
  obtain ⟨hdetect, hcoalesce⟩ := of_runOn hresult
  obtain ⟨p, hplan, htext, hhelpers⟩ := coalesce_abstracts_iff hdetect hcoalesce
  have hshared : r.shared = [⟨0, [1], some ['$'], 1⟩] := hshared
  have hmem : (⟨0, [1], some ['$'], 1⟩ : SharedBody) ∈ r.shared := by simp [hshared]
  exact ⟨d, r, p, hdetect, hcoalesce, hshared, hplan, htext, hhelpers _ hmem ['$'] rfl⟩

end Twinfold
