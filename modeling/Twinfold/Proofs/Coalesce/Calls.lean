import Twinfold.Proofs.Coalesce.Helpers
import Twinfold.Proofs.Declaration.Balance

/-!
# The call in an adapter

The body of an adapter is a call.  Its arguments are the values of slots, which are single tokens,
and the names of parameters, which are one token or two, behind dots for a rest parameter
(`Passes`).  So the text that is emitted for the body is lexed to the tokens of the call
(`exists_callTokens`), whatever stands around it, and it is read as one line.
-/

namespace Twinfold

/-! ### Tokens that are written -/

/-- A token that is emitted. -/
def Token.written (kind : TokenKind) (gap text : Text) : Token := ⟨kind, gap, text, .start⟩

/-- A line does not end at the token. -/
def Token.Joins (t : Token) : Prop :=
  t.gap.breaksLine = false ∧ t.punctIs "\x7b" = false ∧ t.punctIs "\x7d" = false ∧
    t.punctIs ";" = false

/-- A line does not end at the token, and it is no delimiter. -/
structure Token.Inline (t : Token) : Prop where
  joins : t.Joins
  not_opens : t.opens = false
  not_closes : t.closes = false

instance (t : Token) : Decidable t.Joins := inferInstanceAs (Decidable (_ ∧ _ ∧ _ ∧ _))

/-- What is no punctuator is no delimiter. -/
theorem Token.inline_of_kind {t : Token} (hkind : t.kind ≠ .punct) (hgap : t.gap.breaksLine = false) :
    t.Inline := by
  refine ⟨⟨hgap, ?_, ?_, ?_⟩, ?_, ?_⟩ <;> simp [Token.punctIs, Token.opens, Token.closes, hkind]

/-! ### Arguments -/

/-- The text can be passed as an argument: it is spelled by tokens that follow each other
directly, and no delimiter is among them. -/
def Passes (text : Text) : Prop :=
  ∃ t ts, Token.sourceOf (t :: ts) = text ∧ t.gap = [] ∧
    (∀ previous, Spells previous (t :: ts) []) ∧ ∀ u ∈ t :: ts, u.Inline

/-- A literal or a name can be passed. -/
theorem passes_of_reads {previous : Option Token} {kind : TokenKind} {text : Text}
    (h : Reads previous kind text []) (hregex : kind ≠ .regex) (hpunct : kind ≠ .punct) :
    Passes text := by
  refine ⟨.written kind [] text, [], by simp [Token.written], rfl, fun previous' => ?_, ?_⟩
  · refine ⟨isGap_nil, h.behind fun hslash => ?_, trivial⟩
    exact absurd hslash (head?_ne_slash_of_reads h hregex hpunct)
  · intro u hu
    obtain rfl := List.mem_singleton.mp hu
    exact Token.inline_of_kind hpunct rfl

/-- The characters of words continue identifiers.  In ASCII this is checked for each of them;
beyond ASCII every character goes on with an identifier, and none of the wide spaces is in a word.
-/
theorem continuesIdent_of_isWordChar {c : Char} (h : Text.isWordChar c = true) :
    continuesIdent c = true ∧ isGapSpace c = false ∧ isWideSpace c = false := by
  have hascii : ∀ n : Fin 128, Text.isWordChar (Char.ofNat n) = true →
      continuesIdent (Char.ofNat n) = true ∧ isAsciiSpace (Char.ofNat n) = false := by
    decide +kernel
  have hwide : isWideSpace c = false := by
    have hnone : ∀ d ∈ ['\uFEFF', '\u00A0', '\u2028', '\u2029'], Text.isWordChar d = false := by
      decide +kernel
    by_contra hwide
    simp only [Bool.not_eq_false, isWideSpace, Bool.or_eq_true, decide_eq_true_eq] at hwide
    have hmem : c ∈ ['\uFEFF', '\u00A0', '\u2028', '\u2029'] := by simpa [or_assoc] using hwide
    rw [hnone c hmem] at h
    cases h
  rw [isGapSpace, hwide, Bool.or_false]
  by_cases hsmall : c.toNat < 128
  · have hchar := hascii ⟨c.toNat, hsmall⟩
    rw [Char.ofNat_toNat] at hchar
    exact ⟨(hchar h).1, (hchar h).2, rfl⟩
  · refine ⟨?_, ?_, rfl⟩
    · simp only [continuesIdent, beginsIdent, Bool.or_eq_true, decide_eq_true_eq]
      omega
    · by_contra hspace
      simp only [Bool.not_eq_false, isAsciiSpace, Bool.or_eq_true, decide_eq_true_eq] at hspace
      rcases hspace with (((rfl | rfl) | rfl) | rfl) | rfl <;> simp at hsmall

/-- A word that begins as a name does is a name. -/
theorem isName_of_word {c : Char} {body : Text} (hbegins : beginsIdent c = true)
    (h : ∀ d ∈ c :: body, Text.isWordChar d = true) : IsName (c :: body) := by
  refine isName_of_continues hbegins (continuesIdent_of_isWordChar (h c List.mem_cons_self)).2.1 ?_
  intro d hd
  obtain ⟨hcontinues, _, hwide⟩ := continuesIdent_of_isWordChar (h d (List.mem_cons_of_mem _ hd))
  exact ⟨hcontinues, hwide⟩

/-- A digit begins a number, whatever stands in front of it.  How far it goes is decided by the
characters from the digit on. -/
theorem exists_number_of_isDigit {c : Char} (hdigit : c.isDigit = true)
    (hspace : isGapSpace c = false) (body : Text) :
    ∃ n, ∀ previous, Reads previous .number (c :: body.take n) (body.drop n) := by
  have hother : ∀ d ∈ ['"', '\'', '`', '/'], c ≠ d := by
    have hnone : ∀ d ∈ ['"', '\'', '`', '/'], d.isDigit = false := by decide
    rintro d hd rfl
    rw [hnone c hd] at hdigit
    cases hdigit
  have hscan : scanToken none .start c body =
      (.number, (takeChars (numberLength (isHex (c :: body)) c body) (Place.start.past c) body).cons c) := by
    simp [scanToken, hdigit, hother]
  have hstarts : startsToken (c :: body) = true := by simp [startsToken, hspace, hother]
  generalize numberLength (isHex (c :: body)) c body = n at hscan
  obtain ⟨_, hreads, _⟩ := reads_of_scanToken hstarts hscan
  refine ⟨n, fun previous => hreads.behind fun hslash => ?_⟩
  exact absurd (Option.some_inj.mp hslash) (hother _ (by decide))

/-- A number ends in front of a word only where a name can begin. -/
theorem beginsIdent_of_reads_number {previous : Option Token} {number rest : Text} {d : Char}
    (h : Reads previous .number number (d :: rest)) (hword : Text.isWordChar d = true) :
    beginsIdent d = true := by
  have hletter : d.isDigit = false := by simpa using not_isDigit_of_endsBefore h.endsBefore
  simpa [continuesIdent, hletter] using (continuesIdent_of_isWordChar hword).1

/-- A word is a name, or a number that a name may follow.  If it begins with a digit, the number
may end before the word does; what is left of it is an identifier then. -/
theorem passes_of_word {word : Text} (hne : word ≠ [])
    (h : ∀ c ∈ word, Text.isWordChar c = true) : Passes word := by
  obtain ⟨c, body, rfl⟩ := List.exists_cons_of_ne_nil hne
  obtain ⟨hcontinues, hspace, _⟩ := continuesIdent_of_isWordChar (h c List.mem_cons_self)
  by_cases hbegins : beginsIdent c = true
  · exact passes_of_reads (isName_of_word hbegins h) (by decide) (by decide)
  -- The word begins with a number.
  have hdigit : c.isDigit = true := by simpa [continuesIdent, hbegins] using hcontinues
  obtain ⟨n, hnumber⟩ := exists_number_of_isDigit hdigit hspace body
  cases hrest : body.drop n with
  | nil =>
    have hall : body.take n = body := by
      have hsplit := List.take_append_drop n body
      rwa [hrest, List.append_nil] at hsplit
    rw [hrest, hall] at hnumber
    exact passes_of_reads (hnumber none) (by decide) (by decide)
  | cons d rest =>
    rw [hrest] at hnumber
    have hword : ∀ e ∈ d :: rest, Text.isWordChar e = true := by
      intro e he
      refine h e (List.mem_cons_of_mem _ (List.mem_of_mem_drop (i := n) ?_))
      rw [hrest]
      exact he
    have hname := isName_of_word
      (beginsIdent_of_reads_number (hnumber none) (hword d List.mem_cons_self)) hword
    refine ⟨.written .number [] (c :: body.take n), [.written .ident [] (d :: rest)], ?_, rfl, ?_, ?_⟩
    · simp [Token.written, ← hrest]
    · intro previous
      refine ⟨isGap_nil, ?_, isGap_nil, hname.reads _, trivial⟩
      simpa [Token.written] using hnumber previous
    · intro u hu
      simp only [List.mem_cons, List.not_mem_nil, or_false] at hu
      rcases hu with rfl | rfl <;> exact Token.inline_of_kind (by simp [Token.written]) rfl

/-- A name behind the dots of a rest parameter can be passed.  The dots are a punctuator of their
own, whatever the name begins with. -/
theorem Passes.rest {text : Text} (h : Passes text) : Passes ("...".toList ++ text) := by
  obtain ⟨t, ts, rfl, hgap, hspells, hinline⟩ := h
  have hdots : ∀ previous tail, Reads previous .punct ['.', '.', '.'] tail := by
    intro previous tail
    have halone : Reads none .punct ['.', '.', '.'] [] :=
      reads_cons_iff.mpr ⟨rfl, by decide, .start, scanPunct_eq_found_iff.mpr (by decide)⟩
    refine (halone.behind ?_).retail ?_
    · intro hhead
      cases hhead
    · have hfound : longPuncts.find? (fun s => s.toList.isPrefixOf ('.' :: '.' :: '.' :: tail)) =
          some "..." := by
        simp [longPuncts, List.isPrefixOf]
      have hlength : punctLength ('.' :: '.' :: '.' :: tail) = 3 := by
        rw [punctLength, hfound]
        decide
      simp [endsBefore, hlength]
  refine ⟨.written .punct [] "...".toList, t :: ts, by simp [Token.written, hgap], rfl, ?_, ?_⟩
  · intro previous
    exact ⟨isGap_nil, hdots _ _, hspells _⟩
  · intro u hu
    rcases List.mem_cons.mp hu with rfl | hu
    · exact ⟨by decide, by decide, by decide⟩
    · exact hinline u hu

/-- The names of parameters can be passed.  The dots of a rest parameter are read as a punctuator
of their own. -/
theorem passes_of_passedParams? {d : Declaration} {passed : List Text}
    (h : d.passedParams? = some passed) : ∀ text ∈ passed, Passes text := by
  intro text htext
  obtain ⟨param, _, hparam⟩ := exists_of_mem_mapM h text htext
  rw [Option.ite_none_left_eq_some] at hparam
  obtain ⟨_, hname⟩ := hparam
  obtain ⟨name, hfound, rfl⟩ := Option.map_eq_some_iff.mp hname
  have hpasses : Passes name := by
    unfold Param.name? at hfound
    dsimp only at hfound
    rw [Option.ite_none_left_eq_some] at hfound
    obtain ⟨hne, hword⟩ := hfound
    obtain rfl := Option.some_inj.mp hword
    refine passes_of_word (fun hnil => hne (by rw [hnil]; rfl)) fun c hc => ?_
    exact List.mem_takeWhile_imp hc
  split
  · exact hpasses.rest
  · exact hpasses

/-- What can be replaced in a line can be passed. -/
theorem passes_of_isReplaceableAt {rules : LineRules} {d : Declaration} {f : FunctionForm}
    {line : LineForm} {n i : Nat} {t : FormToken} (hline : (FunctionForm.of rules d).lines[n]? = some line)
    (htoken : line.tokens[i]? = some t) (h : f.isReplaceableAt line i = true) :
    Passes t.token.text := by
  obtain ⟨_, ts, _, hts, hlexed, _⟩ := exists_lexed_of_form hline htoken
  obtain ⟨_, _, hreads⟩ := exists_reads_of_tokenize hts _ (List.mem_of_getElem? hlexed)
  rw [FunctionForm.isReplaceableAt, htoken] at h
  obtain ⟨_, hregex, hpunct⟩ := slash_of_isReplaceable h
  exact passes_of_reads hreads.alone hregex hpunct

section

variable {d : Detection} {w : Work}

/-- The texts of slots can be passed. -/
theorem Work.passes_of_mem_slots {slot : Slot} (h : slot ∈ w.slots d) : Passes slot.text := by
  obtain ⟨line, i, t, hfits⟩ := exists_fits h
  rw [hfits.text_eq]
  exact passes_of_isReplaceableAt hfits.line_eq hfits.token_eq hfits.replaceable

/-- The values of members can be passed. -/
theorem Work.passes_of_mem_values {m : Member} (hm : m ∈ (w.sharing d).members) :
    ∀ text ∈ m.values (w.slots d), Passes text := by
  intro text htext
  obtain ⟨slot, hslot, rfl⟩ := List.mem_map.mp htext
  split
  · rename_i own value hdifference
    split
    · obtain ⟨_, hassess⟩ := (w.sound_sharing d).assessed m hm
      obtain ⟨_, _, _, hassessed⟩ := assessed_of_assess hassess
      rw [hdifference] at hassessed
      cases hassessed with
      | differs _ l r i t u _ _ _ hline htoken hreplaceable _ =>
        exact passes_of_isReplaceableAt hline htoken hreplaceable
    · exact passes_of_mem_slots hslot
  · exact passes_of_mem_slots hslot

end

/-- The arguments in a row, the first behind a gap.  The induction is on the arguments; each is
spelled in front of the comma behind it, and the last one in front of the parenthesis. -/
theorem exists_tokens_of_join {blank : Text} (hblank : IsGap blank)
    (hblankLine : blank.breaksLine = false) {arguments : List Text} (hne : arguments ≠ [])
    (h : ∀ text ∈ arguments, Passes text) {front : Text} (hfront : IsGap front)
    (hfrontLine : front.breaksLine = false) :
    ∃ ts, Token.sourceOf ts = front ++ Text.join (',' :: blank) arguments ∧
      (∀ t ∈ ts, t.Inline) ∧ ∀ previous tail, Spells previous ts (')' :: tail) := by
  induction arguments generalizing front with
  | nil => exact absurd rfl hne
  | cons text more ih =>
    obtain ⟨t, ts, rfl, hgap, hspells, hinline⟩ := h text List.mem_cons_self
    have hfirst : ∀ previous, Spells previous ({ t with gap := front } :: ts) [] := by
      intro previous
      obtain ⟨_, hreads, hbehind⟩ := hspells previous
      exact ⟨hfront, hreads, hbehind.behind (slashBeginsRegex_congr rfl rfl)⟩
    have hline : ∀ u ∈ { t with gap := front } :: ts, u.Inline := by
      intro u hu
      rcases List.mem_cons.mp hu with rfl | hu
      · obtain ⟨⟨_, hdelimiters⟩, hopens, hcloses⟩ := hinline t List.mem_cons_self
        exact ⟨⟨hfrontLine, hdelimiters⟩, hopens, hcloses⟩
      · exact hinline u (List.mem_cons_of_mem _ hu)
    by_cases hmore : more = []
    · subst hmore
      refine ⟨{ t with gap := front } :: ts, ?_, hline, fun previous tail => ?_⟩
      · simp [Text.join, hgap]
      · exact (hfirst previous).separated (by decide) tail
    · obtain ⟨us, hsource, hus, hrest⟩ := ih hmore
        (fun text htext => h text (List.mem_cons_of_mem _ htext)) hblank hblankLine
      refine ⟨({ t with gap := front } :: ts) ++ .written .punct [] [','] :: us, ?_, ?_, ?_⟩
      · obtain ⟨text, more, rfl⟩ := List.exists_cons_of_ne_nil hmore
        rw [sourceOf_append, sourceOf_cons (Token.written _ _ _), hsource]
        simp [Text.join, hgap, List.intercalate, Token.written]
      · intro u hu
        rcases List.mem_append.mp hu with hu | hu
        · exact hline u hu
        · rcases List.mem_cons.mp hu with rfl | hu
          · exact ⟨by decide, by decide, by decide⟩
          · exact hus u hu
      · intro previous tail
        refine spells_append_iff.mpr ⟨?_, isGap_nil, reads_delimiter (by decide) _ _, hrest _ _⟩
        rw [sourceOf_cons]
        exact (hfirst previous).separated (by decide) _

/-! ### Calls -/

namespace Layout

/-- The optional space between the parts of a call. -/
def blank (l : Layout) : Text := if l.compact then [] else [' ']

/-- The statement that calls `target`. -/
def call (l : Layout) (target : Text) (arguments : List Text) : Text :=
  "return ".toList ++ (target ++ ('(' :: (Text.join l.separator arguments ++
    (')' :: if l.compact then [] else [';']))))

/-- The body of an adapter. -/
def callBody (l : Layout) (target : Text) (arguments : List Text) : Text :=
  '\x7b' :: (l.blank ++ (l.call target arguments ++ (l.blank ++ ['\x7d'])))

variable {l : Layout}

/-- An adapter is the trimmed header, a blank perhaps, and a body with the call. -/
theorem adapter_eq {d : Declaration} {passed : List Text} (hpassed : d.passedParams? = some passed)
    (target : Text) (leading : List Text) :
    l.adapter d target leading =
      d.header.trimEnd ++ (l.blank ++ l.callBody target (leading ++ passed)) := by
  unfold adapter callBody call blank
  rw [hpassed, Option.getD_some]
  cases l.compact <;> simp

theorem separator_eq (l : Layout) : l.separator = ',' :: l.blank := by
  unfold separator blank
  cases l.compact <;> rfl

/-- The blank of a layout is a gap that breaks no line. -/
theorem isGap_blank (l : Layout) : IsGap l.blank ∧ l.blank.breaksLine = false := by
  unfold blank
  cases l.compact
  · exact ⟨isGap_space, rfl⟩
  · exact ⟨isGap_nil, rfl⟩

end Layout

/-- Tokens at which no line ends are in one line.  The call in an adapter is such a list, with its
semicolon if it has one. -/
theorem splitRuns_joined {front : List Token} {last : Token} (hfront : ∀ t ∈ front, t.Joins)
    (hgap : last.gap.breaksLine = false) (hlast : last.punctIs "\x7d" = false)
    (opened : List Token) :
    ∃ r, splitRuns opened (front ++ [last]) = [r] ∧ r.tokens = front ++ [last] := by
  induction front generalizing opened with
  | nil => exact ⟨⟨last, []⟩, rfl, rfl⟩
  | cons t front ih =>
    obtain ⟨_, hopen, hclose, hend⟩ := hfront t List.mem_cons_self
    obtain ⟨r, hruns, htokens⟩ := ih (fun t ht => hfront t (List.mem_cons_of_mem _ ht))
      (t.openAfter opened)
    have hfirst : r.first.gap.breaksLine = false ∧ r.first.punctIs "\x7d" = false := by
      cases front with
      | nil =>
        obtain ⟨rfl, _⟩ := List.cons.inj htokens
        exact ⟨hgap, hlast⟩
      | cons u front =>
        obtain ⟨rfl, _⟩ := List.cons.inj htokens
        obtain ⟨hline, _, hbrace, _⟩ := hfront r.first (List.mem_cons_of_mem _ List.mem_cons_self)
        exact ⟨hline, hbrace⟩
    refine ⟨⟨t, r.tokens⟩, ?_, by rw [LineRun.tokens, htokens]; rfl⟩
    simp [List.cons_append, splitRuns, hruns, endsLine, hopen, hclose, hend, hfirst]

namespace Layout

/-- The tokens in front of the arguments of a call. -/
def callFront (l : Layout) (target : Text) : List Token :=
  [.written .ident l.blank "return".toList, .written .ident [' '] target, .written .punct [] ['(']]

/-- The tokens behind the arguments of a call. -/
def callEnd (l : Layout) : List Token :=
  .written .punct [] [')'] :: if l.compact then [] else [.written .punct [] [';']]

/-- The brace that closes the body of an adapter. -/
def callClose (l : Layout) : Token := .written .punct l.blank ['\x7d']

end Layout

/-- The tokens `args` spell the arguments of a call. -/
structure SpellArguments (l : Layout) (arguments : List Text) (args : List Token) : Prop where
  source : Token.sourceOf args = Text.join l.separator arguments
  inline : ∀ t ∈ args, t.Inline
  spells : ∀ previous tail, Spells previous args (')' :: tail)

/-- Arguments that can be passed are spelled by some tokens. -/
theorem exists_spellArguments (l : Layout) {arguments : List Text}
    (h : ∀ text ∈ arguments, Passes text) : ∃ args, SpellArguments l arguments args := by
  obtain ⟨hblank, hblankLine⟩ := l.isGap_blank
  by_cases hne : arguments = []
  · refine ⟨[], ?_, by simp, fun _ _ => trivial⟩
    simp [hne, Text.join]
  · obtain ⟨args, hsource, hinline, hspells⟩ :=
      exists_tokens_of_join hblank hblankLine hne h isGap_nil rfl
    exact ⟨args, by rw [l.separator_eq, hsource]; rfl, hinline, hspells⟩

/-- Words are read in front of separators. -/
theorem IsName.reads_before {name : Text} (h : IsName name) {c : Char} (hc : c ∈ separators)
    (previous : Option Token) (tail : Text) : Reads previous .ident name (c :: tail) :=
  (h.reads previous).retail (endsBefore_separator h hc tail)

theorem isName_return : IsName "return".toList :=
  @isName_of_continues 'r' "eturn".toList (by decide) (by decide) (by decide)

section

variable {l : Layout} {target : Text} {arguments : List Text} {args : List Token}

/-- The text of a call. -/
theorem SpellArguments.callBody_eq (h : SpellArguments l arguments args) (target : Text) :
    '\x7b' :: Token.sourceOf ((l.callFront target ++ args ++ l.callEnd) ++ [l.callClose]) =
      l.callBody target arguments := by
  unfold Layout.callBody Layout.call Layout.callFront Layout.callEnd Layout.callClose
  have hreturn : "return ".toList = "return".toList ++ [' '] := by decide
  generalize "return".toList = word at hreturn ⊢
  rw [hreturn]
  cases l.compact <;> simp [Token.written, h.source]

/-- The tokens of a call are read, whatever stands around them.  Every argument stands between
punctuators, and the name behind a space. -/
theorem SpellArguments.spells_call (h : SpellArguments l arguments args) (htarget : IsName target)
    (previous : Option Token) (tail : Text) :
    Spells previous ((l.callFront target ++ args ++ l.callEnd) ++ [l.callClose]) tail := by
  obtain ⟨hblank, _⟩ := l.isGap_blank
  have hend : ∀ previous, Spells previous (l.callEnd ++ [l.callClose]) tail := by
    intro previous
    rw [Layout.callEnd, Layout.callClose]
    cases l.compact
    · exact ⟨isGap_nil, reads_delimiter (by decide) _ _, isGap_nil, reads_delimiter (by decide) _ _,
        hblank, reads_delimiter (by decide) _ _, trivial⟩
    · exact ⟨isGap_nil, reads_delimiter (by decide) _ _, hblank, reads_delimiter (by decide) _ _,
        trivial⟩
  have hargs : ∀ previous, Spells previous args
      (Token.sourceOf (l.callEnd ++ [l.callClose]) ++ tail) := by
    intro previous
    rw [Layout.callEnd, List.cons_append, sourceOf_cons]
    exact h.spells previous _
  rw [List.append_assoc, List.append_assoc, spells_append_iff, spells_append_iff]
  refine ⟨⟨hblank, isName_return.reads_before (by decide) _ _, isGap_space, ?_, isGap_nil,
    reads_delimiter (by decide) _ _, trivial⟩, hargs _, hend _⟩
  exact htarget.reads_before (by decide) _ _

/-- The tokens of a call in braces are enclosed by them.  No argument holds a delimiter, so the
parentheses are the only ones in between. -/
theorem SpellArguments.enclose_call (h : SpellArguments l arguments args) (target : Text)
    {brace : Token} (hbrace : brace.punctIs "\x7b" = true) :
    enclose none brace [] ((l.callFront target ++ args ++ l.callEnd) ++ [l.callClose]) =
      .ok ⟨l.callFront target ++ args ++ l.callEnd, l.callClose, []⟩ := by
  have hsemicolon : ∀ t ∈ (if l.compact then [] else [Token.written .punct [] [';']]),
      t.opens = false ∧ t.closes = false := by
    cases l.compact <;> decide
  have hclose : enclose none brace [] [l.callClose] = .ok ⟨[], l.callClose, []⟩ := by
    have hcloses : l.callClose.opens = false ∧ l.callClose.closes = true := by
      simp [Layout.callClose, Token.written, Token.opens, Token.closes, Token.isAnyOf]
    have hpartner : l.callClose.punctIs "\x7d" = true := punctIs_iff.mpr rfl
    simp [enclose, hcloses, Token.closedBy, hbrace, hpartner]
  -- From the end of the call to its front.
  have hbehind := @enclose_closing none (.written .punct [] ['(']) brace (.written .punct [] [')'])
    [] _ (by decide) (by decide) (by decide) _ (enclose_inline hsemicolon hclose)
  have hargs := enclose_inline (fun t ht => ⟨(h.inline t ht).not_opens, (h.inline t ht).not_closes⟩)
    hbehind
  have hopening := enclose_opening (by decide) hargs
  have hfront : ∀ t ∈ [Token.written .ident l.blank "return".toList, .written .ident [' '] target],
      t.opens = false ∧ t.closes = false := by
    simp [Token.written, Token.opens, Token.closes]
  have hwhole := enclose_inline hfront hopening
  simpa [Layout.callFront, Layout.callEnd, Enclosure.cons] using hwhole

/-- A call is read as one line.  Nothing in it breaks a line: the gaps are blanks, and a semicolon,
if there is one, is the last token. -/
theorem SpellArguments.lines_call (h : SpellArguments l arguments args) (target : Text)
    (brace : Token) (gap : Text) :
    (readLines true brace (l.callFront target ++ args ++ l.callEnd) gap).map LogicalLine.text =
      [l.call target arguments] := by
  have hline := l.isGap_blank.2
  have hfront : ∀ t ∈ l.callFront target ++ args, t.Joins := by
    intro t ht
    rcases List.mem_append.mp ht with ht | ht
    · simp only [Layout.callFront, List.mem_cons, List.not_mem_nil, or_false] at ht
      rcases ht with rfl | rfl | rfl
      · exact (Token.inline_of_kind (by simp [Token.written]) hline).joins
      · exact (Token.inline_of_kind (by simp [Token.written]) rfl).joins
      · decide
    · exact (h.inline t ht).joins
  have htext : textOf (l.callFront target ++ args ++ l.callEnd) = l.call target arguments := by
    unfold Layout.call Layout.callFront Layout.callEnd
    have hreturn : "return ".toList = "return".toList ++ [' '] := by decide
    generalize "return".toList = word at hreturn ⊢
    rw [hreturn]
    cases l.compact <;> simp [textOf, Token.written, h.source]
  obtain ⟨r, hruns, htokens⟩ : ∃ r, splitRuns [brace] (l.callFront target ++ args ++ l.callEnd) = [r] ∧
      r.tokens = l.callFront target ++ args ++ l.callEnd := by
    unfold Layout.callEnd
    cases l.compact
    · have hjoins : ∀ t ∈ l.callFront target ++ args ++ [.written .punct [] [')']], t.Joins := by
        intro t ht
        rcases List.mem_append.mp ht with ht | ht
        · exact hfront t ht
        · obtain rfl := List.mem_singleton.mp ht
          decide
      have hruns := @splitRuns_joined _ (.written .punct [] [';']) hjoins rfl (by decide) [brace]
      rwa [List.append_assoc (l.callFront target ++ args)] at hruns
    · exact splitRuns_joined hfront rfl (by decide) [brace]
  rw [map_text_readLines, hruns, List.map_singleton, htokens, htext]

end

end Twinfold
