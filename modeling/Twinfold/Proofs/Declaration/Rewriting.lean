import Twinfold.Proofs.Declaration.Source
import Twinfold.Proofs.Text.Splice

/-!
# Declarations that are replaced

Some declarations of a text are replaced, each by a declaration with the same words in front of
its body and by further declarations behind it (`Rewritten`).  What stands around them is read
as before, because declarations begin with the word `function` and end with a brace.  So the
declarations of the new text are those that are kept and those that were put in, in this order.

* `Rewritten.spells` — the tokens of the new items spell the new text;
* `Rewritten.walks` — extraction walks over the new items;
* `declarations_of_rewritten` — so it finds what is expected of each declaration.
-/

namespace Twinfold

/-! ### Units in another place -/

/-- The tokens of a declaration without what stands in front of its word `function`. -/
def Parts.alone (p : Parts) : List Token :=
  { p.keyword with gap := [] } :: (p.signature ++ p.block)

/-- The declarations of a text can be read alone. -/
theorem Parts.spells_alone {source : Text} {items : List Item}
    (hts : tokenize source = .ok (tokensOf items)) {p : Parts} (hp : .unit p ∈ items)
    (hfound : p.Found) : Spells none p.alone [] := by
  obtain ⟨before, after, rfl⟩ := List.append_of_mem hp
  obtain ⟨htokens, -⟩ := tokenize_eq_ok_iff.mp hts
  have hsplit : tokensOf (before ++ .unit p :: after) =
      tokensOf before ++ p.keyword :: ((p.signature ++ p.block) ++ tokensOf after) := by
    simp [Item.tokens, Parts.unit]
  obtain ⟨body, htext⟩ := exists_text_of_function hfound.function
  exact spells_alone_of_lex (htokens.trans hsplit) (by simp [htext])

/-- What is extracted from a text is read from parts that can be read alone. -/
theorem exists_alone_of_declarations {source : Text} {options : Options} {ds : List Declaration}
    (hregion : options.region = none) (h : declarations source options = .ok ds) :
    ∀ d ∈ ds, ∃ (p : Parts) (scope : Option Nat), p.Found ∧ Spells none p.alone [] ∧
      d = p.read options.rules.normalizeWhitespace d.index scope := by
  intro d hd
  obtain ⟨ts, hts⟩ := exists_tokens_of_declarations hregion h
  obtain ⟨items, rfl, hwalks, rfl⟩ := exists_walk_of_declarations hregion hts h
  obtain ⟨p, scope, hp, hread, _⟩ := exists_parts_of_mem_declarationsOf hd
  have hfound := hwalks.found p hp
  exact ⟨p, scope, hfound, Parts.spells_alone hts hp hfound, hread⟩

/-- The declaration `q` can stand where `p` stands. -/
structure Parts.Replaces (p q : Parts) : Prop where
  async : q.async = p.async
  keyword : q.keyword = p.keyword
  head?_eq : q.signature.head? = p.signature.head?
  function : p.keyword.identIs "function" = true
  closes : p.braceClose.punctIs "\x7d" = true
  wellFormed : ∀ afterDefault, p.WellFormed afterDefault → q.WellFormed afterDefault
  closes' : q.braceClose.punctIs "\x7d" = true
  alone : Spells none q.alone []

/-- The declaration can stand behind any other. -/
structure Parts.Follows (u : Parts) : Prop where
  async : u.async = none
  function : u.keyword.identIs "function" = true
  wellFormed : u.WellFormed false
  gap : IsGap u.keyword.gap
  alone : Spells none u.alone []

/-- Some declarations among the items are replaced, the first of them with a number. -/
inductive Rewritten (becomes : Nat → Parts → Parts → List Parts → Prop) :
    Nat → List Item → List Item → Prop
  | nil {i : Nat} : Rewritten becomes i [] []
  | token {i : Nat} {t : Token} {items items' : List Item}
      (rest : Rewritten becomes i items items') :
      Rewritten becomes i (.token t :: items) (.token t :: items')
  | unit {i : Nat} {p q : Parts} {us : List Parts} {items items' : List Item}
      (made : becomes i p q us) (replaces : p.Replaces q) (follows : ∀ u ∈ us, u.Follows)
      (rest : Rewritten becomes (i + 1) items items') :
      Rewritten becomes i (.unit p :: items) (.unit q :: (us.map .unit ++ items'))

section

variable {becomes : Nat → Parts → Parts → List Parts → Prop} {i : Nat} {items items' : List Item}

/-- A declaration that is read alone is read wherever a gap precedes it. -/
theorem Parts.spells_unit {p : Parts} (halone : Spells none p.alone [])
    (hfunction : p.keyword.identIs "function" = true)
    (hcloses : p.braceClose.punctIs "\x7d" = true) {gap : Text} (hgap : IsGap gap)
    (previous : Option Token) (tail : Text) :
    Spells previous ({ p.keyword with gap } :: (p.signature ++ p.block)) tail := by
  obtain ⟨body, htext⟩ := exists_text_of_function hfunction
  have hsplit : p.signature ++ p.block =
      (p.signature ++ p.brace :: p.inner) ++ [p.braceClose] := by simp [Parts.block]
  rw [Parts.alone, hsplit, ← List.cons_append] at halone
  obtain ⟨_, hreads, hbehind⟩ := halone.before_all hcloses (by decide) tail
  rw [hsplit]
  refine ⟨hgap, hreads.behind fun hslash => ?_, hbehind.behind (slashBeginsRegex_congr rfl rfl)⟩
  have hhead : p.keyword.text.head? = some '/' := hslash
  rw [htext] at hhead
  cases hhead

/-! ### What stays the same around the declarations -/

/-- The texts are the same up to where a declaration begins. -/
def BeginTogether (t t' : Text) : Prop :=
  t = t' ∨ ∃ u s s', t = u ++ 'f' :: 'u' :: s ∧ t' = u ++ 'f' :: 'u' :: s'

/-- Texts that begin together begin alike. -/
theorem BeginTogether.beginAlike {t t' : Text} (h : BeginTogether t t') : BeginAlike t t' := by
  have hf : InNoPunct 'f' := by
    unfold InNoPunct
    decide
  rcases h with rfl | ⟨u, s, s', rfl, rfl⟩
  · exact .inl rfl
  · exact .inr ⟨u, 'f', 'u' :: s, 'u' :: s', hf, rfl, rfl⟩

/-- The new text begins like the old one.  They are the same up to the first declaration that is
replaced, and its keyword begins in both. -/
theorem Rewritten.beginTogether (h : Rewritten becomes i items items') (closing : Text) :
    BeginTogether (Token.sourceOf (tokensOf items) ++ closing)
      (Token.sourceOf (tokensOf items') ++ closing) := by
  induction h with
  | nil => exact .inl rfl
  | @token i t items items' _ ih =>
    simp only [tokensOf_cons, Item.tokens, List.singleton_append, sourceOf_cons, List.append_assoc]
    rcases ih with heq | ⟨u, s, s', heq, heq'⟩
    · exact .inl (by rw [heq])
    · exact .inr ⟨t.gap ++ (t.text ++ u), s, s', by simp [heq], by simp [heq']⟩
  | @unit i p q us items items' _ hreplaces _ _ _ =>
    obtain ⟨body, htext⟩ := exists_text_of_function hreplaces.function
    refine .inr ⟨p.keyword.gap, ?_⟩
    simp only [tokensOf_cons, Item.tokens, Parts.unit, List.cons_append, sourceOf_cons,
      hreplaces.keyword, htext, List.append_assoc]
    exact ⟨_, _, rfl, rfl⟩

theorem Parts.unit_eq (p : Parts) :
    p.unit = (p.keyword :: (p.signature ++ p.brace :: p.inner)) ++ [p.braceClose] := by
  simp [unit, block]

/-- A function ends with the brace of its body. -/
theorem lastToken_unit (previous : Option Token) (p : Parts) :
    lastToken previous p.unit = some p.braceClose := by
  rw [p.unit_eq, lastToken, List.getLast?_concat]
  rfl

/-- Behind a closing brace a slash begins a regular expression. -/
theorem slash_of_closes {t : Token} (h : t.punctIs "\x7d" = true) :
    slashBeginsRegex (some t) = true := by
  obtain ⟨hkind, htext⟩ := Prod.mk.inj (punctIs_iff.mp h)
  simp [slashBeginsRegex, hkind, Token.isAnyOf, htext]

/-- The declarations behind a replaced one are read. -/
theorem spells_follows {us : List Parts} (h : ∀ u ∈ us, u.Follows) {closing : Text}
    (hrest : ∀ previous, slashBeginsRegex previous = true →
      Spells previous (tokensOf items') closing)
    {previous : Option Token} (hslash : slashBeginsRegex previous = true) :
    Spells previous (tokensOf (us.map .unit ++ items')) closing := by
  induction us generalizing previous with
  | nil => exact hrest previous hslash
  | cons u us ih =>
    have hu := h u List.mem_cons_self
    have hcloses := hu.wellFormed.braceClose
    rw [List.map_cons, List.cons_append, tokensOf_cons, Item.tokens, spells_append_iff, lastToken_unit]
    exact ⟨Parts.spells_unit hu.alone hu.function hcloses hu.gap _ _,
      ih (fun u hu => h u (List.mem_cons_of_mem _ hu)) (slash_of_closes hcloses)⟩

/-- **Spelling.**  The new tokens spell the new text.  The induction is on the rewriting: kept
tokens are read in front of a text that begins like the old one, and new functions are spelled by
themselves. -/
theorem Rewritten.spells (h : Rewritten becomes i items items') {previous previous' : Option Token}
    {closing : Text} (hspells : Spells previous (tokensOf items) closing)
    (hslash : slashBeginsRegex previous = slashBeginsRegex previous') :
    Spells previous' (tokensOf items') closing := by
  induction h generalizing previous previous' with
  | nil => trivial
  | @token i t items items' hrest ih =>
    obtain ⟨hgap, hreads, hbehind⟩ := hspells
    have hone : Spells previous' [t] (Token.sourceOf (tokensOf items) ++ closing) :=
      ⟨hgap, hreads.behind fun _ => hslash, trivial⟩
    obtain ⟨_, hreads', _⟩ := hone.retail (hrest.beginTogether closing).beginAlike
    exact ⟨hgap, hreads', ih hbehind rfl⟩
  | @unit i p q us items items' _ hreplaces hfollows _ ih =>
    rw [tokensOf_cons, Item.tokens, spells_append_iff, lastToken_unit] at hspells
    obtain ⟨hunit, hbehind⟩ := hspells
    have hgap : IsGap q.keyword.gap := by
      rw [hreplaces.keyword]
      exact hunit.isGap _ List.mem_cons_self
    rw [tokensOf_cons, Item.tokens, spells_append_iff, lastToken_unit]
    refine ⟨Parts.spells_unit hreplaces.alone (hreplaces.keyword ▸ hreplaces.function)
      hreplaces.closes' hgap _ _, spells_follows hfollows ?_ (slash_of_closes hreplaces.closes')⟩
    intro previous hprevious
    exact ih hbehind ((slash_of_closes hreplaces.closes).trans hprevious.symm)

/-! ### The walk -/

/-- The tokens are the same, or both are closing braces. -/
def Token.Near (t u : Token) : Prop := t = u ∨ t.punctIs "\x7d" = true ∧ u.punctIs "\x7d" = true

/-- Tokens that are near one another are alike. -/
theorem Token.Near.alike {t u : Token} (h : t.Near u) : t.Alike u := by
  rcases h with rfl | ⟨ht, hu⟩
  · exact ⟨rfl, fun _ => rfl⟩
  · have hword := punctIs_iff.mp ht
    refine ⟨hword.trans (punctIs_iff.mp hu).symm, fun hkind => ?_⟩
    rw [(Prod.mk.inj hword).1] at hkind
    cases hkind

/-- Neighbours that are near one another are alike, if there are any. -/
theorem rel_alike_of_near {o o' : Option Token} (h : Option.Rel Token.Near o o') :
    Option.Rel Token.Alike o o' := by
  cases h with
  | none => exact .none
  | some hnear => exact .some hnear.alike

/-- A closing brace is no `async`.  Whether a word is `async` is therefore seen the same in both
texts. -/
theorem asyncOf_near {previous previous' beforePrevious beforePrevious' : Option Token}
    (hprevious : Option.Rel Token.Near previous previous')
    (hbefore : Option.Rel Token.Near beforePrevious beforePrevious') :
    asyncOf previous beforePrevious = asyncOf previous' beforePrevious' := by
  rcases asyncOf_congr (rel_alike_of_near hprevious) (rel_alike_of_near hbefore) with
    ⟨hnone, hnone'⟩ | ⟨hasync, hasync', _, hident⟩
  · rw [hnone, hnone']
  · rw [hasync, hasync']
    cases hprevious with
    | none => rfl
    | some hnear =>
      rcases hnear with rfl | ⟨hbrace, _⟩
      · rfl
      · have hkind := identIs_kind hident
        rw [(Prod.mk.inj (punctIs_iff.mp hbrace)).1] at hkind
        cases hkind

/-- The tokens begin with the same word. -/
theorem Rewritten.head?_word (h : Rewritten becomes i items items') :
    (tokensOf items).head?.map Token.word = (tokensOf items').head?.map Token.word := by
  cases h with
  | nil => rfl
  | token => rfl
  | unit _ hreplaces =>
    simp [Item.tokens, Parts.unit, hreplaces.keyword]

/-- The first token behind the word `function` is in front of the body. -/
theorem Parts.head?_signature (p : Parts) (rest : List Token) :
    (p.signature ++ rest).head? = p.signature.head? := by
  have hne : p.signature ≠ [] := by simp [signature]
  obtain ⟨t, ts, hcons⟩ := List.exists_cons_of_ne_nil hne
  rw [hcons]
  rfl

/-- Behind a closing brace a declaration can begin.  A new function has a name and no `async`, so
the word `function` alone begins it. -/
theorem Parts.Follows.lead {u : Parts} (h : u.Follows) {brace : Token}
    (hbrace : brace.punctIs "\x7d" = true) (rest : List Token) :
    leadAt? (some brace) none u.keyword (u.signature ++ rest) = some (u.lead false) := by
  obtain ⟨hkind, htext⟩ := Prod.mk.inj (punctIs_iff.mp hbrace)
  have hident := identIs_of_punctIs hbrace
  have hasync : asyncOf (some brace) none = none := by
    simp [asyncOf, Option.filter, hident]
  have hopener : openerOf (some brace) none = some brace := by
    simp [openerOf, hasync]
  have hdefault : afterDefaultOf (some brace) none = false := by
    simp [afterDefaultOf, hopener, hident]
  have hbegins : beginsStatement (some brace) u.keyword = true := by
    simp [beginsStatement, hkind, Token.isAnyOf, htext]
  have hcontinues : continuesDeclaration false (u.signature ++ rest) = true := by
    unfold Parts.signature
    cases hstar : u.star with
    | some t => simp [continuesDeclaration, h.wellFormed.star t hstar]
    | none =>
      cases hname : u.ident with
      | some t => simp [continuesDeclaration, h.wellFormed.ident t hname]
      | none => exact absurd (h.wellFormed.named hname) Bool.false_ne_true
  have hleads : leads (some brace) none u.keyword (u.signature ++ rest) = true := by
    simp [leads, h.function, hasync, hident, hopener, hbegins, hdefault, hcontinues]
  rw [leadAt?_eq, if_pos hleads, hasync, hdefault]
  simp [Parts.lead, Parts.first, h.async]

/-- A declaration that can stand where another stands begins there.  Only the tokens next to the
keyword are looked at, and they are alike. -/
theorem Parts.Replaces.lead {p q : Parts} (h : p.Replaces q)
    {previous previous' beforePrevious beforePrevious' : Option Token} {afterDefault : Bool}
    (hprevious : Option.Rel Token.Near previous previous')
    (hbefore : Option.Rel Token.Near beforePrevious beforePrevious') {rest rest' : List Token}
    (hlead : leadAt? previous beforePrevious p.keyword (p.signature ++ rest) =
      some (p.lead afterDefault)) :
    leadAt? previous' beforePrevious' q.keyword (q.signature ++ rest') =
      some (q.lead afterDefault) := by
  have hhead : (p.signature ++ rest).head?.map Token.word =
      (q.signature ++ rest').head?.map Token.word := by
    rw [p.head?_signature, q.head?_signature, h.head?_eq]
  obtain ⟨hleads, hdefault⟩ := leads_congr (rel_alike_of_near hprevious) (rel_alike_of_near hbefore)
    (⟨rfl, fun _ => rfl⟩ : p.keyword.Alike p.keyword) hhead
  rw [leadAt?_eq, asyncOf_near hprevious hbefore, hleads, hdefault] at hlead
  rw [leadAt?_eq, h.keyword, hlead]
  simp [Parts.lead, Parts.first, h.async, h.keyword]

/-- Extraction walks over the declarations that were put behind another one. -/
theorem walks_follows {us : List Parts} (h : ∀ u ∈ us, u.Follows) {opened : List Token}
    (hrest : ∀ brace : Token, brace.punctIs "\x7d" = true →
      Walks 0 (some brace) none opened items' [])
    {brace : Token} (hbrace : brace.punctIs "\x7d" = true) :
    Walks 0 (some brace) none opened (us.map .unit ++ items') [] := by
  induction us generalizing brace with
  | nil => exact hrest brace hbrace
  | cons u us ih =>
    have hu := h u List.mem_cons_self
    refine ⟨⟨false, hu.wellFormed, Nat.zero_le _, ?_⟩,
      ih (fun u hu => h u (List.mem_cons_of_mem _ hu)) hu.wellFormed.braceClose⟩
    rw [List.append_assoc]
    exact hu.lead hbrace _

/-- **The walk.**  Extraction walks over the new items as it did over the old ones.  What decides
where a declaration begins are the tokens directly before it, and these are near the old ones. -/
theorem Rewritten.walks (h : Rewritten becomes i items items')
    {previous previous' beforePrevious beforePrevious' : Option Token} {opened : List Token}
    (hwalks : Walks 0 previous beforePrevious opened items [])
    (hprevious : Option.Rel Token.Near previous previous')
    (hbefore : Option.Rel Token.Near beforePrevious beforePrevious') :
    Walks 0 previous' beforePrevious' opened items' [] := by
  induction h generalizing previous previous' beforePrevious beforePrevious' opened with
  | nil => exact hwalks
  | @token i t items items' hrest ih =>
    obtain ⟨hlead, htrack, hwalks⟩ := hwalks
    refine ⟨fun _ => ?_, htrack, ih hwalks (.some (.inl rfl)) hprevious⟩
    have hnone := hlead (Nat.zero_le _)
    rw [List.append_nil] at hnone ⊢
    exact leadAt?_eq_none_of_alike (rel_alike_of_near hprevious) (rel_alike_of_near hbefore)
      ⟨rfl, fun _ => rfl⟩ hrest.head?_word hnone
  | @unit i p q us items items' _ hreplaces hfollows hrest ih =>
    obtain ⟨⟨afterDefault, hwell, hlow, hlead⟩, hwalks⟩ := hwalks
    refine ⟨⟨afterDefault, hreplaces.wellFormed _ hwell, Nat.zero_le _, ?_⟩, ?_⟩
    · rw [List.append_assoc] at hlead ⊢
      exact hreplaces.lead hprevious hbefore hlead
    · refine walks_follows hfollows (fun brace hbrace => ?_) hreplaces.closes'
      exact ih hwalks (.some (.inr ⟨hreplaces.closes, hbrace⟩)) .none

end

/-! ### What is extracted -/

/-- What is expected of a declaration that is extracted. -/
structure Expected where
  name : Text
  params : List Text
  header : Text
  body : Text
  /-- The texts of the lines, if they are foreseen. -/
  lines : Option (List Text)

/-- The declaration is as expected. -/
structure Expected.Is (e : Expected) (d : Declaration) : Prop where
  name : d.name = e.name
  params : d.params = e.params
  header : d.header = e.header
  body : d.body = e.body
  lines : ∀ texts ∈ e.lines, d.lines.map LogicalLine.text = texts

/-- Where a declaration stands does not matter. -/
theorem Expected.Is.of_same {e : Expected} {d d' : Declaration} (h : e.Is d) (hd : d.SameAs d') :
    e.Is d' :=
  ⟨hd.name ▸ h.name, hd.params ▸ h.params, hd.header ▸ h.header, hd.body ▸ h.body,
    fun texts htexts => hd.lines ▸ h.lines texts htexts⟩

/-- A declaration is expected to be as it was. -/
def Declaration.unchanged (d : Declaration) : Expected :=
  ⟨d.name, d.params, d.header, d.body, some (d.lines.map LogicalLine.text)⟩

/-- A declaration with a number is replaced by the `text` for the number, if there is one, and
read as expected. -/
structure Becomes (text : Nat → Option Text) (expected : Declaration → List Expected) (i : Nat)
    (p q : Parts) (us : List Parts) : Prop where
  source : (text i).getD (Token.sourceOf p.alone) =
    Token.sourceOf q.alone ++ Token.sourceOf (us.flatMap Parts.unit)
  async : (text i).isSome → p.async = none
  expected : ∀ scope, List.Forall₂ (fun e u => ∀ index scope, e.Is (u.read true index scope))
    (expected (p.read true i scope)) (q :: us)

section

variable {text : Nat → Option Text} {expected : Declaration → List Expected} {i : Nat}
  {items items' : List Item}

/-- New functions in a row are all found, each as a function that was written. -/
theorem declarationsOf_follows (index : Nat) (opened : List Token) (us : List Parts) :
    ∃ ds index', declarationsOf true index opened (us.map .unit ++ items') =
      ds ++ declarationsOf true index' opened items' ∧
      List.Forall₂ (fun d u => ∃ index scope, d = u.read true index scope) ds us := by
  induction us generalizing index with
  | nil => exact ⟨[], index, rfl, .nil⟩
  | cons u us ih =>
    obtain ⟨ds, index', hds, hread⟩ := ih (index + 1)
    refine ⟨u.read true index (scopeOf opened) :: ds, index', ?_, .cons ⟨_, _, rfl⟩ hread⟩
    rw [List.map_cons, List.cons_append, declarationsOf, hds, List.cons_append]

/-- Two lists that are both related to a third one element by element. -/
theorem forall₂_meet {α β γ : Type} {r : α → γ → Prop} {s : β → γ → Prop} {q : α → β → Prop}
    {as : List α} {bs : List β} {cs : List γ} (h : List.Forall₂ r as cs) (h' : List.Forall₂ s bs cs)
    (himp : ∀ a b c, r a c → s b c → q a b) : List.Forall₂ q as bs := by
  induction h generalizing bs with
  | nil =>
    cases h'
    exact .nil
  | cons hr _ ih =>
    cases h' with
    | cons hs hrest => exact .cons (himp _ _ _ hr hs) (ih hrest)

/-- Every element of a list has its partner in a related one. -/
theorem exists_of_forall₂ {α β : Type} {r : α → β → Prop} {as : List α} {bs : List β}
    (h : List.Forall₂ r as bs) : ∀ a ∈ as, ∃ b ∈ bs, r a b := by
  induction h with
  | nil => simp
  | cons hr _ ih =>
    intro a ha
    rcases List.mem_cons.mp ha with rfl | ha
    · exact ⟨_, List.mem_cons_self, hr⟩
    · obtain ⟨b, hb, hab⟩ := ih a ha
      exact ⟨b, List.mem_cons_of_mem _ hb, hab⟩

/-- **Extraction.**  What is extracted from the new items is what is expected.  Helpers that follow
a declaration are extracted behind it, each with its own number. -/
theorem Rewritten.declarations (h : Rewritten (Becomes text expected) i items items')
    (opened opened' : List Token) (index : Nat) :
    List.Forall₂ Expected.Is ((declarationsOf true i opened items).flatMap expected)
      (declarationsOf true index opened' items') := by
  induction h generalizing opened opened' index with
  | nil => exact .nil
  | @token i t items items' _ ih => exact ih _ _ _
  | @unit i p q us items items' hmade _ _ _ ih =>
    obtain ⟨ds, index', hds, hread⟩ := @declarationsOf_follows items' (index + 1) opened' us
    have hnew : declarationsOf true index opened' (.unit q :: (us.map .unit ++ items')) =
        (q.read true index (scopeOf opened') :: ds) ++ declarationsOf true index' opened' items' := by
      rw [declarationsOf, hds, List.cons_append]
    rw [declarationsOf, List.flatMap_cons, hnew]
    refine List.rel_append ?_ (ih opened opened' index')
    have hall : List.Forall₂ (fun d u => ∃ index scope, d = u.read true index scope)
        (q.read true index (scopeOf opened') :: ds) (q :: us) := .cons ⟨_, _, rfl⟩ hread
    refine forall₂_meet (hmade.expected (scopeOf opened)) hall ?_
    rintro e d u he ⟨index, scope, rfl⟩
    exact he index scope

/-! ### The new text -/

/-- Declarations can be replaced one by one.  What replaces one of them may depend on its number
and on its scope, and not on the others. -/
theorem exists_rewritten {opened : List Token}
    (h : ∀ p scope index, .unit p ∈ items →
      (∀ normalize, p.read normalize index scope ∈ declarationsOf normalize i opened items) →
      ∃ q us, Becomes text expected index p q us ∧ p.Replaces q ∧ ∀ u ∈ us, u.Follows) :
    ∃ items', Rewritten (Becomes text expected) i items items' := by
  induction items generalizing i opened with
  | nil => exact ⟨[], .nil⟩
  | cons item items ih =>
    cases item with
    | token t =>
      obtain ⟨items', hrest⟩ := ih fun p scope index hp hread =>
        h p scope index (List.mem_cons_of_mem _ hp) hread
      exact ⟨_, .token hrest⟩
    | unit p =>
      obtain ⟨items', hrest⟩ := ih fun p scope index hp hread =>
        h p scope index (List.mem_cons_of_mem _ hp) fun normalize =>
          List.mem_cons_of_mem _ (hread normalize)
      obtain ⟨q, us, hmade, hreplaces, hfollows⟩ :=
        h p (scopeOf opened) i List.mem_cons_self fun _ => List.mem_cons_self
      exact ⟨_, .unit hmade hreplaces hfollows hrest⟩

/-- The parts of a text that declarations fill, and what replaces them. -/
def itemChunks (text : Nat → Option Text) : Nat → List Item → List Chunk
  | _, [] => []
  | i, .token t :: items => ⟨t.source, none⟩ :: itemChunks text i items
  | i, .unit p :: items =>
    ⟨p.keyword.gap, none⟩ :: ⟨Token.sourceOf p.alone, text i⟩ :: itemChunks text (i + 1) items

theorem Parts.sourceOf_unit (p : Parts) :
    Token.sourceOf p.unit = p.keyword.gap ++ Token.sourceOf p.alone := by
  simp [unit, alone]

/-- The chunks of items make up the text of their tokens. -/
theorem oldText_itemChunks (text : Nat → Option Text) (i : Nat) (items : List Item) :
    oldText (itemChunks text i items) = Token.sourceOf (tokensOf items) := by
  induction items generalizing i with
  | nil => rfl
  | cons item items ih =>
    cases item with
    | token t => simp [itemChunks, ih, Item.tokens, Token.source]
    | unit p =>
      rw [itemChunks, oldText_cons, oldText_cons, ih, tokensOf_cons, sourceOf_append, Item.tokens,
        p.sourceOf_unit, List.append_assoc]

/-- The new text is that of the new items. -/
theorem Rewritten.newText_eq (h : Rewritten (Becomes text expected) i items items') :
    newText (itemChunks text i items) = Token.sourceOf (tokensOf items') := by
  induction h with
  | nil => rfl
  | @token i t items items' _ ih => simp [itemChunks, ih, Item.tokens, Token.source]
  | @unit i p q us items items' hmade hreplaces _ _ ih =>
    have hunits : tokensOf (us.map Item.unit) = us.flatMap Parts.unit := by
      rw [tokensOf, List.flatMap_map]
      rfl
    rw [itemChunks, newText_cons, newText_cons, ih, tokensOf_cons, tokensOf_append, hunits,
      sourceOf_append, sourceOf_append, Item.tokens, q.sourceOf_unit, hreplaces.keyword]
    dsimp only
    rw [hmade.source]
    simp

/-- A declaration ends where its last token does. -/
theorem Parts.stop_eq {p : Parts} {offset : Nat} (h : Placed offset p.unit) :
    p.keyword.start = offset + p.keyword.gap.size ∧
      p.braceClose.stop = p.keyword.start + (Token.sourceOf p.alone).size := by
  have hstart : p.keyword.start = offset + p.keyword.gap.size := h.1
  have hsize := congrArg Text.size p.sourceOf_unit
  rw [p.unit_eq, placed_append_iff] at h
  obtain ⟨_, hclose, _⟩ := h
  have hstop : p.braceClose.stop = p.braceClose.start + p.braceClose.text.size := rfl
  rw [p.unit_eq, sourceOf_append, Text.size_append, Text.size_append] at hsize
  have hlast : (Token.sourceOf [p.braceClose]).size =
      p.braceClose.gap.size + p.braceClose.text.size := by
    simp [Text.size_append]
  omega

/-- **The edits** replace whole declarations.  The chunk of a function that is replaced begins
where the function does, behind the gap in front of it. -/
theorem Rewritten.mem_editsOf (h : Rewritten (Becomes text expected) i items items') {offset : Nat}
    (hplaced : Placed offset (tokensOf items)) (opened : List Token) (normalize : Bool) (e : Edit) :
    e ∈ editsOf offset (itemChunks text i items) ↔
      ∃ d ∈ declarationsOf normalize i opened items, ∃ new, text d.index = some new ∧
        e = ⟨d.start, d.stop, new⟩ := by
  induction h generalizing offset opened with
  | nil => simp [itemChunks, editsOf, declarationsOf]
  | @token i t items items' _ ih =>
    rw [tokensOf_cons, placed_append_iff] at hplaced
    have hsize : (Token.sourceOf (Item.token t).tokens).size = t.source.size := by
      simp [Item.tokens, Token.source]
    rw [hsize] at hplaced
    exact ih hplaced.2 (t.openAfter opened)
  | @unit i p q us items items' hmade hreplaces _ _ ih =>
    rw [tokensOf_cons, placed_append_iff] at hplaced
    obtain ⟨hunit, hbehind⟩ := hplaced
    have hsize : (Token.sourceOf (Item.unit p).tokens).size =
        p.keyword.gap.size + (Token.sourceOf p.alone).size := by
      rw [Item.tokens, p.sourceOf_unit, Text.size_append]
    rw [hsize, ← Nat.add_assoc] at hbehind
    obtain ⟨hstart, hstop⟩ := Parts.stop_eq hunit
    have hmore := ih hbehind opened
    have hhere : e ∈ ((text i).map fun new => (⟨offset + p.keyword.gap.size,
        offset + p.keyword.gap.size + (Token.sourceOf p.alone).size, new⟩ : Edit)).toList ↔
        ∃ new, text i = some new ∧ e = ⟨p.first.start, p.braceClose.stop, new⟩ := by
      cases hnew : text i with
      | none => simp
      | some new =>
        have hasync := hmade.async (by rw [hnew]; rfl)
        have hfirst : p.first = p.keyword := by rw [Parts.first, hasync, Option.getD_none]
        simp [hfirst, hstart, hstop]
    rw [itemChunks, editsOf, editsOf, declarationsOf]
    simp only [Option.map_none, Option.toList_none, List.nil_append, List.mem_append, hhere, hmore,
      List.mem_cons, exists_eq_or_imp]
    rfl

/-- What is replaced is not empty.  Edits can therefore be told apart by where they begin. -/
theorem Rewritten.old_ne_nil (h : Rewritten (Becomes text expected) i items items') :
    ∀ c ∈ itemChunks text i items, c.new.isSome → c.old ≠ [] := by
  induction h with
  | nil => simp [itemChunks]
  | @token i t items items' _ ih =>
    intro c hc hsome
    rcases List.mem_cons.mp hc with rfl | hc
    · cases hsome
    · exact ih c hc hsome
  | @unit i p q us items items' _ hreplaces _ _ ih =>
    intro c hc hsome
    rcases List.mem_cons.mp hc with rfl | hc
    · cases hsome
    rcases List.mem_cons.mp hc with rfl | hc
    · obtain ⟨body, htext⟩ := exists_text_of_function hreplaces.function
      simp [Parts.alone, htext]
    · exact ih c hc hsome

end

/-! ### Whole texts -/

/-- A rewriting may be said to do more than it does for its pieces. -/
theorem Rewritten.imp {becomes becomes' : Nat → Parts → Parts → List Parts → Prop} {i : Nat}
    {items items' : List Item} (h : Rewritten becomes i items items')
    (himp : ∀ i p q us, becomes i p q us → becomes' i p q us) :
    Rewritten becomes' i items items' := by
  induction h with
  | nil => exact .nil
  | token _ ih => exact .token ih
  | unit hmade hreplaces hfollows _ ih => exact .unit (himp _ _ _ _ hmade) hreplaces hfollows ih

/-- Texts that begin together have the same first two characters, which is all that is looked at
for `#!`. -/
theorem BeginTogether.take {t t' : Text} (h : BeginTogether t t') (n : Nat) (hn : n ≤ 2) :
    t.take n = t'.take n := by
  rcases h with rfl | ⟨u, s, s', rfl, rfl⟩
  · rfl
  · have hsplit : ∀ s : Text, u ++ 'f' :: 'u' :: s = (u ++ ['f', 'u']) ++ s := by simp
    have hlength : n ≤ (u ++ ['f', 'u']).length := by
      rw [List.length_append]
      exact hn.trans (Nat.le_add_left _ _)
    rw [hsplit s, hsplit s', List.take_append_of_le_length hlength,
      List.take_append_of_le_length hlength]

/-- The first line of a text counts only up to two characters behind it. -/
theorem hashBang_congr {front t t' : Text} (h : hashBang (front ++ t) = front)
    (hbegin : BeginTogether t t') : hashBang (front ++ t') = front := by
  have hbegins : ∀ x : Text, ['#', '!'].isPrefixOf x = decide (x.take 2 = ['#', '!']) := by
    intro x
    rw [Bool.eq_iff_iff, List.isPrefixOf_iff_prefix, List.prefix_iff_eq_take, decide_eq_true_eq]
    exact eq_comm
  have htake : (front ++ t).take 2 = (front ++ t').take 2 := by
    rw [List.take_append, List.take_append, hbegin.take _ (Nat.sub_le _ _)]
  have hhead : t.head? = t'.head? := by
    have hone := congrArg List.head? (hbegin.take 1 (by decide))
    simpa [List.head?_take] using hone
  exact hashBang_retail h (by rw [hbegins, hbegins, htake]) hhead.symm

/-- Where the first line of a text is put in front of the tokens, it stays there.  It is a part of
the first gap, which belongs to the text in front of the first declaration or to that declaration.
-/
theorem Rewritten.exists_front {becomes : Nat → Parts → Parts → List Parts → Prop} {i : Nat}
    {items items' : List Item} (h : Rewritten becomes i items items') {front closing : Text}
    {us : List Token} (hus : tokensOf items = prependGap front us) (hspells : Spells none us closing) :
    ∃ us', tokensOf items' = prependGap front us' ∧ Spells none us' closing ∧
      BeginTogether (Token.sourceOf us ++ closing) (Token.sourceOf us' ++ closing) ∧
      (us = [] ↔ us' = []) := by
  cases us with
  | nil =>
    cases h with
    | nil => exact ⟨[], rfl, trivial, .inl rfl, Iff.rfl⟩
    | token => cases hus
    | unit => cases hus
  | cons u us =>
    cases h with
    | nil => cases hus
    | @token _ t items items' hrest =>
      obtain ⟨rfl, rfl⟩ := List.cons.inj hus
      have hfirst : Rewritten becomes i (.token u :: items) (.token u :: items') := .token hrest
      exact ⟨u :: tokensOf items', rfl, hfirst.spells hspells rfl, hfirst.beginTogether closing,
        by simp⟩
    | @unit _ p q vs items items' hmade hreplaces hfollows hrest =>
      obtain ⟨hkeyword, rfl⟩ := List.cons.inj hus
      -- The declaration with its own gap.
      have hreplaces' : Parts.Replaces { p with keyword := u } { q with keyword := u } := by
        have hfunction := hreplaces.function
        have halone := hreplaces.alone
        rw [hkeyword] at hfunction
        rw [Parts.alone, hreplaces.keyword, hkeyword] at halone
        refine ⟨hreplaces.async, rfl, hreplaces.head?_eq, hfunction, hreplaces.closes, ?_,
          hreplaces.closes', halone⟩
        intro afterDefault hwell
        have hwhole : p.WellFormed afterDefault := ⟨hwell.star, hwell.ident, hwell.named, hwell.paren,
          hwell.params, hwell.brace, hwell.inner⟩
        have hnew := hreplaces.wellFormed _ hwhole
        exact ⟨hnew.star, hnew.ident, hnew.named, hnew.paren, hnew.params, hnew.brace, hnew.inner⟩
      have hfirst : Rewritten (fun _ _ _ _ => True) i (.unit { p with keyword := u } :: items)
          (.unit { q with keyword := u } :: (vs.map .unit ++ items')) :=
        .unit trivial hreplaces' hfollows (hrest.imp fun _ _ _ _ _ => trivial)
      refine ⟨_, ?_, hfirst.spells hspells rfl, hfirst.beginTogether closing, by simp [Item.tokens, Parts.unit]⟩
      have hkeyword' := hreplaces.keyword.trans hkeyword
      simp only [tokensOf_cons, Item.tokens, Parts.unit, List.cons_append, hkeyword', prependGap]
      rfl

/-- **Replaced declarations.**  When the edits of a text replace declarations in it, what is
extracted from the new text is what is expected of each declaration. -/
theorem declarations_of_rewritten {source : Text} {text : Nat → Option Text}
    {expected : Declaration → List Expected} {items items' : List Item} {edits : List Edit}
    (hts : tokenize source = .ok (tokensOf items)) (hwalks : Walks 0 none none [] items [])
    (h : Rewritten (Becomes text expected) 0 items items') (hascending : Ascending edits)
    (hedits : ∀ e, e ∈ edits ↔ ∃ d ∈ declarationsOf true 0 [] items, ∃ new,
      text d.index = some new ∧ e = ⟨d.start, d.stop, new⟩) :
    ∃ ds, Twinfold.declarations (Text.splice 0 edits source) {} = .ok ds ∧
      List.Forall₂ Expected.Is ((declarationsOf true 0 [] items).flatMap expected) ds := by
  obtain ⟨us, closing, hprepend, hsource, hspells, hclosing, _⟩ := spells_of_tokenize hts
  obtain ⟨us', hprepend', hspells', hbegin, hempty⟩ := h.exists_front hprepend hspells
  have hsame : edits = editsOf 0 (itemChunks text 0 items) := by
    refine eq_of_ascending hascending (ascending_editsOf h.old_ne_nil) fun e => ?_
    rw [hedits, h.mem_editsOf (placed_of_tokenize hts) [] true]
  -- The text without the tokens stays.
  have hspliced : ∀ rest, Text.splice 0 edits (Token.sourceOf (tokensOf items) ++ rest) =
      Token.sourceOf (tokensOf items') ++ rest := by
    intro rest
    have hedited := splice_edits (itemChunks text 0 items ++ [⟨rest, none⟩])
    rw [editsOf_append, oldText_append, newText_append, oldText_itemChunks, h.newText_eq] at hedited
    have hrest : oldText [⟨rest, none⟩] = rest ∧ newText [⟨rest, none⟩] = rest := by
      simp [oldText, newText]
    rw [hrest.1, hrest.2] at hedited
    simpa [hsame, editsOf] using hedited
  have hnew : Text.splice 0 edits source =
      hashBang source ++ (Token.sourceOf us' ++ closing) := by
    cases us with
    | nil =>
      obtain rfl := hempty.mp rfl
      have hnone := hspliced source
      rw [hprepend, hprepend'] at hnone
      exact hnone.trans hsource
    | cons u us =>
      cases us' with
      | nil => cases hempty.mpr rfl
      | cons u' us' =>
        have hfront : ∀ (v : Token) (vs : List Token), Token.sourceOf (prependGap (hashBang source)
            (v :: vs)) = hashBang source ++ Token.sourceOf (v :: vs) := by
          intro v vs
          simp [prependGap]
        have hwhole := hspliced closing
        rw [hprepend, hprepend', hfront, hfront, List.append_assoc, List.append_assoc, ← hsource]
          at hwhole
        exact hwhole
  have hbang : hashBang (Text.splice 0 edits source) = hashBang source := by
    rw [hnew]
    exact hashBang_congr (by rw [← hsource]) hbegin
  obtain ⟨ds, hds, hsameAs⟩ := declarations_of_spells (by rw [hbang]; exact hnew) hspells' hclosing
    (by rw [hbang]; exact hprepend'.symm) (h.walks hwalks .none .none)
  refine ⟨ds, hds, forall₂_meet (h.declarations [] [] 0) hsameAs.flip ?_⟩
  intro e d d' he hd
  exact he.of_same hd

end Twinfold
