import Twinfold.Proofs.Coalesce.Headers

/-!
# Helpers that are read back

A helper is emitted with the parameters of the canonical function and with its body, in which
names were put.  Whether it is read back as one declaration with that name, those parameters and
that body can be told from its text alone (`HelperReads`): wherever it is put behind a
declaration it is read as it is read by itself (`HelperReads.exists_follows`), and what is read
in a text can be read by itself (`helperReads_of_is`).
-/

namespace Twinfold

/-! ### Declarations by themselves -/

section

variable {p : Parts}

/-- The header and the body of a function without `async` are its source. -/
theorem Parts.header_append_body (hasync : p.async = none) (normalize : Bool) (index : Nat)
    (scope : Option Nat) :
    (p.read normalize index scope).header ++ (p.read normalize index scope).body =
      Token.sourceOf p.alone := by
  rw [Parts.header_eq hasync]
  simp [Parts.read, Parts.head, Parts.alone, Parts.block]

/-- A declaration that has a name begins at the start of a text. -/
theorem Parts.WellFormed.lead_first (h : p.WellFormed false) (hasync : p.async = none)
    (hfunction : p.keyword.identIs "function" = true) (rest : List Token) :
    leadAt? none none p.keyword (p.signature ++ rest) = some (p.lead false) := by
  have hcontinues : continuesDeclaration false (p.signature ++ rest) = true := by
    unfold Parts.signature
    cases hstar : p.star with
    | some t => simp [continuesDeclaration, h.star t hstar]
    | none =>
      cases hname : p.ident with
      | some t => simp [continuesDeclaration, h.ident t hname]
      | none => exact absurd (h.named hname) Bool.false_ne_true
  have hleads : leads none none p.keyword (p.signature ++ rest) = true := by
    simp [leads, asyncOf, openerOf, afterDefaultOf, beginsStatement, hfunction, hcontinues]
  rw [leadAt?_eq, if_pos hleads]
  simp [Parts.lead, Parts.first, hasync, asyncOf, afterDefaultOf, openerOf]

end

/-! ### Helpers -/

/-- What is expected of a helper. -/
def Layout.helped (l : Layout) (c : Declaration) (name : Text) (fills : List (Slot × Text)) :
    Expected :=
  ⟨name, fills.map Prod.snd ++ c.params, l.helperHead name (fills.map Prod.snd ++ c.params),
    Text.splice 0 (Layout.slotEdits c fills) c.body, none⟩

/-- The helper is by itself read as one declaration, and as it is meant. -/
def HelperReads (l : Layout) (c : Declaration) (name : Text) (fills : List (Slot × Text)) : Prop :=
  ∃ d, declarations (l.helper c name fills) {} = .ok [d] ∧ (l.helped c name fills).Is d

/-- The tokens that a helper begins with. -/
def helperFront (name : Text) : List Token :=
  [.written .ident [] "function".toList, .written .ident [' '] name, .written .punct [] ['(']]

theorem isName_function : IsName "function".toList :=
  @isName_of_continues 'f' "unction".toList (by decide) (by decide) (by decide)

section

variable {l : Layout} {c : Declaration} {name : Text} {fills : List (Slot × Text)}

/-- The front of a helper up to its parameters can be read in front of every text. -/
theorem spells_helperFront (hname : IsName name) (tail : Text) :
    Spells none (helperFront name) tail := by
  have hparen : Spells (some (.written .ident [' '] name)) [.written .punct [] ['(']] tail :=
    ⟨isGap_nil, reads_delimiter (by decide) _ _, trivial⟩
  have hrest : Spells (some (.written .ident [] "function".toList))
      [.written .ident [' '] name, .written .punct [] ['(']] tail :=
    ⟨isGap_space, hname.reads_before (by decide) _ _, hparen⟩
  exact ⟨isGap_nil, isName_function.reads_before (by decide) _ _, hrest⟩

/-- A helper begins with its front. -/
theorem exists_helper_eq (l : Layout) (c : Declaration) (name : Text)
    (fills : List (Slot × Text)) :
    ∃ tail, l.helper c name fills = Token.sourceOf (helperFront name) ++ tail := by
  rw [helper_eq]
  unfold Layout.helperHead helperFront
  have hword : "function ".toList = "function".toList ++ [' '] := by decide
  generalize "function".toList = word at hword ⊢
  rw [hword]
  refine ⟨Text.join l.separator (fills.map Prod.snd ++ c.params) ++ ')' ::
    ((if l.compact then [] else [' ']) ++ Text.splice 0 (Layout.slotEdits c fills) c.body), ?_⟩
  simp [Token.written]

/-- The first tokens of a helper. -/
theorem exists_front_of_helper (hname : IsName name) {us : List Token} {closing : Text}
    (hspells : Spells none us closing) (hclosing : IsClosing closing)
    (hsource : l.helper c name fills = Token.sourceOf us ++ closing) :
    ∃ k n rest, us = k :: n :: rest ∧ k.gap = [] ∧ k.identIs "function" = true ∧
      n.kind = .ident := by
  obtain ⟨tail, htail⟩ := exists_helper_eq l c name fills
  rw [htail] at hsource
  obtain ⟨front, rest, rfl, hsame⟩ :=
    (spells_helperFront hname tail).exists_front hspells hclosing rfl hsource
  simp only [helperFront, SameTokens, List.map_cons, List.map_nil, List.map_eq_cons_iff,
    List.map_eq_nil_iff] at hsame
  obtain ⟨k, _, rfl, hk, n, _, rfl, hn, o, _, rfl, _, rfl⟩ := hsame
  refine ⟨k, n, o :: rest, rfl, (bare_eq_iff.mp hk).2.1, ?_, (bare_eq_iff.mp hn).1⟩
  exact (identIs_congr (word_eq_of_bare hk) _).trans (identIs_iff.mpr rfl)

/-- The text of a helper has no first line of its own. -/
theorem hashBang_helper (l : Layout) (c : Declaration) (name : Text) (fills : List (Slot × Text)) :
    hashBang (l.helper c name fills) = [] := by
  obtain ⟨tail, htail⟩ := exists_helper_eq l c name fills
  refine hashBang_of_head? ?_
  have hword : "function".toList = 'f' :: "unction".toList := by decide
  rw [htail, helperFront, sourceOf_cons, Token.written, hword]
  simp

/-- The header and the body of a helper are its text. -/
theorem Expected.Is.source_eq {d : Declaration} (h : (l.helped c name fills).Is d) :
    d.header ++ d.body = l.helper c name fills := by
  rw [h.header, h.body, helper_eq, Layout.helped]

/-- What is expected of a helper does not depend on what stands in front of it. -/
theorem Expected.Is.regapped {e : Expected} {p : Parts} {index : Nat} {scope : Option Nat}
    (h : e.Is (p.read true index scope)) (hasync : p.async = none) (gap : Text) (index' : Nat)
    (scope' : Option Nat) :
    e.Is (Parts.read { p with keyword := { p.keyword with gap } } true index' scope') := by
  refine ⟨h.name, h.params, ?_, h.body, h.lines⟩
  rw [← h.header, Parts.header_eq hasync]
  exact @Parts.header_eq { p with keyword := { p.keyword with gap } } hasync true index' scope'

/-- **Helpers behind declarations.**  A helper that is read by itself is read behind a
declaration. -/
theorem HelperReads.exists_follows (h : HelperReads l c name fills) (hname : IsName name)
    {gap : Text} (hgap : IsGap gap) :
    ∃ u : Parts, u.Follows ∧ u.keyword.gap = gap ∧
      Token.sourceOf u.alone = l.helper c name fills ∧
      ∀ index scope, (l.helped c name fills).Is (u.read true index scope) := by
  obtain ⟨d, hd, his⟩ := h
  obtain ⟨ts, hts⟩ := exists_tokens_of_declarations rfl hd
  obtain ⟨items, rfl, hwalks, hitems⟩ := exists_walk_of_declarations rfl hts hd
  obtain ⟨us, closing, hus, hsource, hspells, hclosing, _⟩ := spells_of_tokenize hts
  rw [hashBang_helper, prependGap_nil] at hus
  rw [hashBang_helper, List.nil_append] at hsource
  obtain ⟨k, n, rest, rfl, _, hk, hn⟩ := exists_front_of_helper hname hspells hclosing hsource
  cases items with
  | nil => cases hus
  | cons item items =>
    cases item with
    | token t =>
      -- The word `function` with a name behind it begins a declaration.
      obtain ⟨rfl, hrest⟩ := List.cons.inj hus
      have hlead := hwalks.1 (Nat.zero_le _)
      have hleads : leads none none t (tokensOf items ++ []) = true := by
        have hrest : tokensOf items = n :: rest := hrest
        simp [leads, asyncOf, openerOf, beginsStatement, continuesDeclaration, hk, hrest, hn]
      rw [leadAt?_eq, if_pos hleads] at hlead
      cases hlead
    | unit p =>
      obtain ⟨⟨afterDefault, hwell, _, hlead⟩, hbehind⟩ := hwalks
      have hfound := Parts.found_of_lead hwell hlead
      rw [leadAt?_eq, Option.ite_none_right_eq_some] at hlead
      simp only [Option.some.injEq, Parts.lead, Lead.mk.injEq, true_and] at hlead
      obtain ⟨hfirst, hisSome, hdefault⟩ := hlead.2
      have hasync : p.async = none := (eq_of_getD_eq hfirst hisSome).symm
      obtain rfl : false = afterDefault := hdefault
      obtain ⟨rfl, _⟩ := List.cons.inj hitems
      have halone := Parts.spells_alone hts List.mem_cons_self hfound
      refine ⟨{ p with keyword := { p.keyword with gap } }, ⟨hasync, hfound.function, ?_, hgap, halone⟩,
        rfl, ?_, his.regapped hasync gap⟩
      · exact ⟨hwell.star, hwell.ident, hwell.named, hwell.paren, hwell.params, hwell.brace,
          hwell.inner⟩
      · exact (Parts.header_append_body hasync true 0 (scopeOf [])).symm.trans his.source_eq

/-- A declaration whose second token is a word has a name. -/
theorem Parts.WellFormed.named_of_head? {q : Parts} {afterDefault : Bool}
    (h : q.WellFormed afterDefault) {n : Token} (hn : q.signature.head? = some n)
    (hkind : n.kind = .ident) : q.WellFormed false := by
  refine ⟨h.star, h.ident, fun hnone => ?_, h.paren, h.params, h.brace, h.inner⟩
  have hpunct : n.kind = .punct := by
    cases hstar : q.star with
    | some t =>
      obtain rfl : t = n := by simpa [Parts.signature, hstar] using hn
      exact (Prod.mk.inj (punctIs_iff.mp (h.star t hstar))).1
    | none =>
      obtain rfl : q.paren = n := by simpa [Parts.signature, hstar, hnone] using hn
      exact (Prod.mk.inj (punctIs_iff.mp h.paren)).1
  rw [hkind] at hpunct
  cases hpunct

/-- **Helpers by themselves.**  A helper that is read in a text is read by itself.  The tokens of
its parts spell the helper wherever they stand, so its body can be read and is cut into the same
lines. -/
theorem helperReads_of_is {q : Parts} (hfound : q.Found) (halone : Spells none q.alone [])
    (hname : IsName name) {index : Nat} {scope : Option Nat}
    (h : (l.helped c name fills).Is (q.read true index scope)) : HelperReads l c name fills := by
  obtain ⟨afterDefault, hwell⟩ := hfound.wellFormed
  have hasync : q.async = none := by
    have hheader := h.header
    unfold Layout.helped Layout.helperHead at hheader
    have hword : "function ".toList = 'f' :: "unction ".toList := by decide
    generalize "unction ".toList = word at hword
    simp only [hword, List.cons_append] at hheader
    exact hfound.async_eq_none hheader
  have hsource : l.helper c name fills = Token.sourceOf q.alone ++ [] := by
    rw [← h.source_eq, Parts.header_append_body hasync, List.append_nil]
  obtain ⟨k, n, rest, hsplit, _, _, hkind⟩ :=
    exists_front_of_helper hname halone isClosing_nil hsource
  have hn : q.signature.head? = some n := by
    rw [← q.head?_signature q.block, (List.cons.inj hsplit).2]
    rfl
  have hnamed := hwell.named_of_head? hn hkind
  -- The declaration without a gap in front of it.
  have hwell : Parts.WellFormed { q with keyword := { q.keyword with gap := [] } } false :=
    ⟨hnamed.star, hnamed.ident, hnamed.named, hnamed.paren, hnamed.params, hnamed.brace,
      hnamed.inner⟩
  have hlead := hwell.lead_first hasync hfound.function (q.block ++ ([] ++ []))
  have hwalks : Walks 0 none none [] [.unit { q with keyword := { q.keyword with gap := [] } }] [] := by
    refine ⟨⟨false, hwell, Nat.zero_le _, ?_⟩, fun _ => rfl⟩
    rw [List.append_assoc]
    exact hlead
  have hitems : q.alone = tokensOf [.unit { q with keyword := { q.keyword with gap := [] } }] := by
    rw [tokensOf_cons, tokensOf_nil, List.append_nil]
    rfl
  obtain ⟨ds, hds, hread⟩ := @declarations_of_spells (l.helper c name fills) [] q.alone _
    (by rw [hashBang_helper, List.nil_append]; exact hsource) halone isClosing_nil
    (by rw [hashBang_helper, prependGap_nil]; exact hitems) hwalks
  cases hread with
  | cons hsame hrest =>
    cases hrest with
    | nil => exact ⟨_, hds, (h.regapped hasync [] 0 (scopeOf [])).of_same hsame⟩

end

end Twinfold
