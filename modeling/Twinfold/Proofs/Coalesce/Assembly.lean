import Twinfold.Proofs.Coalesce.Changes
import Twinfold.Proofs.Coalesce.Parameters

/-!
# Helpers that are put together

The text of a helper is put together from a header, the parameters and the canonical body with
names in the slots.  If each parameter is read by itself, and no name runs together with a
neighbour, then the helper is read with the parts that it was put together from
(`helperReads_of_canAbstract`).
-/

namespace Twinfold

/-! ### Bodies with names -/

/-- Names that replace no punctuators leave the delimiters as they are. -/
theorem map_delimiter_renamed {names : Token → Option Text} {ts : List Token}
    (h : ∀ t ∈ ts, (names t).isSome → t.kind ≠ .punct) :
    (ts.map (Token.renamed names)).map Token.delimiter = ts.map Token.delimiter := by
  rw [List.map_map]
  refine List.map_congr_left fun t ht => ?_
  have hplain : ∀ u : Token, u.kind ≠ .punct → u.delimiter = none := by
    intro u hu
    simp [Token.delimiter, Token.opens, Token.closes, hu]
  rw [Function.comp_apply]
  cases hname : names t with
  | none => rw [renamed_of_none hname]
  | some name =>
    rw [renamed_of_some hname, hplain t (h t ht (by simp [hname])), hplain _ (by simp [Token.named])]

/-- Between the same braces stand the tokens with names.  Names are given to words and literals,
never to delimiters, so that every delimiter keeps its partner. -/
theorem Braced.renamed {ts inner : List Token} {brace close : Token}
    (h : Braced ts brace inner close) {names : Token → Option Text}
    (hnames : ∀ t ∈ ts, (names t).isSome → t.kind ≠ .punct) :
    Braced (ts.map (Token.renamed names)) brace (inner.map (Token.renamed names)) close := by
  obtain ⟨rfl, hgap, hbrace, hinner⟩ := h
  have hkept : ∀ t ∈ brace :: (inner ++ [close]), t.kind = .punct → t.renamed names = t := by
    intro t ht hkind
    refine renamed_of_none (Option.not_isSome_iff_eq_none.mp fun hsome => hnames t ht hsome hkind)
  have hclose : close.kind = .punct := by
    have hcloses := (closes_of_closedBy (closedBy_of_enclose hinner brace rfl)).1
    simp only [Token.closes, Bool.and_eq_true, decide_eq_true_eq] at hcloses
    exact hcloses.1
  have hopen : brace.kind = .punct := (Prod.mk.inj (punctIs_iff.mp hbrace)).1
  refine ⟨?_, hgap, hbrace, ?_⟩
  · rw [List.map_cons, List.map_append, List.map_singleton, hkept brace (by simp) hopen,
      hkept close (by simp) hclose]
  · refine enclose_congr hinner rfl rfl (map_delimiter_renamed fun t ht => ?_).symm rfl []
    exact hnames t (by simp [ht])

section

variable {rules : LineRules} {c : Declaration} {ts : List Token} {fills : List (Slot × Text)}

/-- A body in which no name runs together with a neighbour is spelled from brace to brace. -/
theorem exists_braced_of_canAbstract (hread : c.BodyRead ts) (hfills : FillsSlots rules c fills)
    (h : CanAbstract (Layout.slotEdits c fills) ts) :
    ∃ us brace inner close, Token.sourceOf us = Text.splice 0 (Layout.slotEdits c fills) c.body ∧
      Spells none us [] ∧ Braced us brace inner close := by
  obtain ⟨brace, inner, close, hbraced⟩ := hread.braced
  refine ⟨_, brace, _, close, (hread.splice_eq hfills.fits hfills.ordered h.at_tokens).symm, ?_,
    hbraced.renamed fun t ht hsome => (hread.of_replaced hfills.fits hfills.ordered ht hsome).2.2⟩
  exact (spells_renamed_iff hread.spells
    (hread.nameable hfills.fits hfills.ordered hfills.names)).mpr h.apart

end

/-! ### Whole helpers -/

/-- The parts of a helper with the parameters `ps`; the body is that of `brace`. -/
def helperParts (l : Layout) (name : Text) (ps : List Token) (closing : Text) (brace : Token)
    (inner : List Token) (close : Token) : Parts :=
  ⟨none, .written .ident [] "function".toList, none, some (.written .ident [' '] name),
    .written .punct [] ['('], ps, .written .punct closing [')'], { brace with gap := l.blank }, inner,
    close⟩

section

variable {l : Layout} {c : Declaration} {name text : Text} {params : List Text}
  {fills : List (Slot × Text)} {ps us inner : List Token} {closing : Text} {brace close : Token}

/-- The parts of a helper are those of a declaration. -/
theorem wellFormed_helperParts (hparams : SpellParams text params ps closing)
    (hbraced : Braced us brace inner close) :
    (helperParts l name ps closing brace inner close).WellFormed false := by
  obtain ⟨-, -, hbrace, hinner⟩ := hbraced
  have hbehind : ∀ gap, ({ brace with gap } : Token).word = brace.word := fun _ => rfl
  refine ⟨nofun, ?_, nofun, rfl, ?_, (punctIs_congr (hbehind _) _).trans hbrace,
    enclose_congr hinner (hbehind _).symm rfl rfl rfl []⟩
  · rintro _ ⟨⟩
    rfl
  · have hclose : enclose none (.written .punct [] ['(']) [] [.written .punct closing [')']] =
        .ok ⟨[], .written .punct closing [')'], []⟩ := rfl
    have hinner := hparams.balanced.enclose hclose
    rw [List.append_nil] at hinner
    exact hinner

/-- The parts of a helper are spelled as they are put together.  Where two parts meet, the first
one ends in a delimiter or the second one begins with one. -/
theorem spells_helperParts (hname : IsName name) (hparams : SpellParams text params ps closing)
    (hspells : Spells none us []) (hbraced : Braced us brace inner close) :
    Spells none (helperParts l name ps closing brace inner close).alone [] := by
  obtain ⟨rfl, -, hbrace, -⟩ := hbraced
  have hsplit : (helperParts l name ps closing brace inner close).alone =
      helperFront name ++ (ps ++ .written .punct closing [')'] ::
        { brace with gap := l.blank } :: (inner ++ [close])) := by
    simp [helperParts, Parts.alone, Parts.signature, Parts.block, helperFront, Token.written]
  obtain ⟨_, hreads, hrest⟩ := hspells
  have hslash : slashBeginsRegex (lastToken none (helperFront name)) = true := rfl
  have hps := hparams.spells _
    (Token.sourceOf ({ brace with gap := l.blank } :: (inner ++ [close]))) hslash
  rw [hsplit]
  refine spells_append_iff.mpr ⟨spells_helperFront hname _, spells_append_iff.mpr
    ⟨by simpa [Token.written] using hps, hparams.isGap, reads_delimiter (by decide) _ _,
      l.isGap_blank.1, hreads.behind fun hslash => ?_,
      hrest.behind (slashBeginsRegex_congr rfl rfl)⟩⟩
  rw [text_of_punctIs hbrace] at hslash
  cases hslash

/-- The parts of a helper are read as the helper that is emitted.  The name, the parameters and the
lines agree, since each of them is what the parts spell. -/
theorem is_helperParts
    (hparams : SpellParams (Text.join l.separator (fills.map Prod.snd ++ c.params))
      (fills.map Prod.snd ++ c.params) ps closing)
    (hsource : Token.sourceOf us = Text.splice 0 (Layout.slotEdits c fills) c.body)
    (hbraced : Braced us brace inner close) :
    (l.helped c name fills).Is
      ((helperParts l name ps closing brace inner close).read true 0 none) := by
  obtain ⟨rfl, hgap, -, -⟩ := hbraced
  refine ⟨rfl, hparams.read, ?header, ?body, ?lines⟩
  case header =>
    have hasync : (helperParts l name ps closing brace inner close).async = none := rfl
    have hword : "function ".toList = "function".toList ++ [' '] := by decide
    have hsource := hparams.source
    rw [Parts.header_eq hasync]
    unfold Layout.helped Layout.helperHead helperParts Parts.head Parts.signature Layout.blank
    generalize "function".toList = word at hword ⊢
    rw [hword, ← hsource]
    simp [Token.written]
  case body =>
    rw [Layout.helped, ← hsource]
    simp [helperParts, Parts.read, hgap]
  case lines =>
    intro texts htexts
    have hnone : (l.helped c name fills).lines = none := rfl
    rw [hnone] at htexts
    cases htexts

/-- **Helpers from their parts.**  A helper is read with the parameters and with the body that it
was put together from. -/
theorem helperReads_of_parts (hname : IsName name)
    (hparams : SpellParams (Text.join l.separator (fills.map Prod.snd ++ c.params))
      (fills.map Prod.snd ++ c.params) ps closing)
    (hsource : Token.sourceOf us = Text.splice 0 (Layout.slotEdits c fills) c.body)
    (hspells : Spells none us []) (hbraced : Braced us brace inner close) :
    HelperReads l c name fills := by
  have hfound : (helperParts l name ps closing brace inner close).Found :=
    ⟨⟨false, wellFormed_helperParts hparams hbraced⟩, rfl, nofun⟩
  exact helperReads_of_is hfound (spells_helperParts hname hparams hspells hbraced) hname
    (is_helperParts hparams hsource hbraced)

/-- Generated names are read as parameters. -/
theorem paramReads_nameAt (n : Nat) : ParamReads (nameAt n) ∧ (nameAt n).trim = nameAt n := by
  have hfirst : ∀ c ∈ firstChars, Text.isBlank c = false := by decide +kernel
  have hlater : ∀ c ∈ laterChars, Text.isBlank c = false := by decide +kernel
  refine ⟨(isName_nameAt n).paramReads, trim_of_not_blank fun d hd => ?_⟩
  obtain ⟨c, body, hname, hc, hbody⟩ := nameAt_cases n
  rw [hname] at hd
  rcases List.mem_cons.mp hd with rfl | hd
  · exact hfirst d hc
  · exact hlater d (hbody d hd)

/-- **Helpers that are read.**  If each parameter of the canonical function is read by itself and
no name runs together with a neighbour in its body, the helper is read. -/
theorem helperReads_of_canAbstract (hname : IsName name) {rules : LineRules} {ts : List Token}
    (hread : c.BodyRead ts) (hfills : FillsSlots rules c fills)
    (hparams : ∀ text ∈ c.params, ParamReads text ∧ text.trim = text)
    (hslots : CanAbstract (Layout.slotEdits c fills) ts) : HelperReads l c name fills := by
  have hall : ∀ text ∈ fills.map Prod.snd ++ c.params, ParamReads text ∧ text.trim = text := by
    intro text htext
    rcases List.mem_append.mp htext with htext | htext
    · obtain ⟨fill, hfill, rfl⟩ := List.mem_map.mp htext
      obtain ⟨n, hn⟩ := hfills.generated fill hfill
      exact hn ▸ paramReads_nameAt n
    · exact hparams text htext
  have hblank : ∀ c ∈ l.blank, c = ' ' := by
    unfold Layout.blank
    cases l.compact <;> simp
  obtain ⟨ps, closing, hps⟩ := @exists_spellParams _ hblank _ hall [] (by simp)
  obtain ⟨us, brace, inner, close, hsource, hspells, hbraced⟩ :=
    exists_braced_of_canAbstract hread hfills hslots
  rw [List.nil_append, ← l.separator_eq] at hps
  exact helperReads_of_parts hname hps hsource hspells hbraced

end

end Twinfold
