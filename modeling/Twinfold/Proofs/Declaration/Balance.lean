import Twinfold.Proofs.Declaration.Source

/-!
# Balance

Tokens are balanced if every delimiter among them has its partner (`Balanced`).  They are if and
only if the stack of open delimiters runs empty over them (`balanced_iff_tracks`).

Extraction keeps three such stacks: one outside of declarations, one for a parameter list and one
for a body.  Together they come to the one stack over all tokens (`Walks.tracks`), so a text in
which declarations are found is balanced; and when a delimiter is blamed, the stack over all
tokens does not run empty either (`Extractor.fault_of_run`).
-/

namespace Twinfold

/-! ### Balanced tokens -/

/-- Tokens that are no delimiters do not matter for what is enclosed. -/
theorem enclose_inline {failure : Option ParseError} {opener : Token} {outer ts rest : List Token}
    (h : ∀ t ∈ ts, t.opens = false ∧ t.closes = false) {e : Enclosure}
    (hrest : enclose failure opener outer rest = .ok e) :
    enclose failure opener outer (ts ++ rest) = .ok { e with inner := ts ++ e.inner } := by
  induction ts with
  | nil => exact hrest
  | cons t ts ih =>
    obtain ⟨hopens, hcloses⟩ := h t List.mem_cons_self
    have hmore := ih fun t ht => h t (List.mem_cons_of_mem _ ht)
    rw [List.cons_append, enclose.eq_def]
    simp only [hopens, hcloses, Bool.false_eq_true, if_false, hmore]
    rfl

/-- An opening delimiter is enclosed with what it encloses. -/
theorem enclose_opening {failure : Option ParseError} {opener t : Token} {outer ts : List Token}
    (hopens : t.opens = true) {e : Enclosure}
    (hrest : enclose failure t (opener :: outer) ts = .ok e) :
    enclose failure opener outer (t :: ts) = .ok (e.cons t) := by
  rw [enclose.eq_def]
  simp only [hopens, if_true, hrest]
  rfl

/-- The partner of the innermost open delimiter is enclosed. -/
theorem enclose_closing {failure : Option ParseError} {opener o t : Token} {outer ts : List Token}
    (hopens : t.opens = false) (hcloses : t.closes = true) (hclosed : opener.closedBy t = true)
    {e : Enclosure} (hrest : enclose failure o outer ts = .ok e) :
    enclose failure opener (o :: outer) (t :: ts) = .ok (e.cons t) := by
  rw [enclose.eq_def]
  simp only [hopens, hcloses, hclosed, Bool.false_eq_true, if_false, if_true, hrest]
  rfl

/-- Tokens among which every delimiter has its partner; `commas` tells whether commas may stand
outside of the delimiters. -/
inductive Balanced : (commas : Bool) → List Token → Prop
  | nil {commas : Bool} : Balanced commas []
  | plain {commas : Bool} {t : Token} {ts : List Token} (hopens : t.opens = false)
      (hcloses : t.closes = false) (hcomma : commas = false → t.punctIs "," = false)
      (hts : Balanced commas ts) : Balanced commas (t :: ts)
  | nested {commas : Bool} {o c : Token} {inner ts : List Token} (hopens : o.opens = true)
      (hclosed : o.closedBy c = true) (hinner : Balanced true inner) (hts : Balanced commas ts) :
      Balanced commas (o :: (inner ++ c :: ts))

/-- Balanced tokens one behind the other are balanced. -/
theorem Balanced.append {commas : Bool} {ts us : List Token} (hts : Balanced commas ts)
    (hus : Balanced commas us) : Balanced commas (ts ++ us) := by
  induction hts with
  | nil => exact hus
  | plain hopens hcloses hcomma _ ih => exact .plain hopens hcloses hcomma (ih hus)
  | nested hopens hclosed hinner _ _ ih =>
    rw [List.cons_append, List.append_assoc, List.cons_append]
    exact .nested hopens hclosed hinner (ih hus)

/-- Balanced tokens are balanced where commas are allowed. -/
theorem Balanced.commas {commas : Bool} {ts : List Token} (h : Balanced commas ts) :
    Balanced true ts := by
  induction h with
  | nil => exact .nil
  | plain hopens hcloses _ _ ih => exact .plain hopens hcloses nofun ih
  | nested hopens hclosed hinner _ _ ih => exact .nested hopens hclosed hinner ih

/-- A partner closes, and does not open.  There are three of them, and none is an opening
delimiter. -/
theorem closes_of_closedBy {o c : Token} (h : o.closedBy c = true) :
    c.closes = true ∧ c.opens = false := by
  simp only [Token.closedBy, Bool.or_eq_true, Bool.and_eq_true, punctIs_iff] at h
  have hword : c.word = (.punct, [')']) ∨ c.word = (.punct, [']']) ∨ c.word = (.punct, ['\x7d']) := by
    rcases h with (⟨_, h⟩ | ⟨_, h⟩) | ⟨_, h⟩
    · exact .inl h
    · exact .inr (.inl h)
    · exact .inr (.inr h)
  have hclosers : ∀ text ∈ [[')'], [']'], ['\x7d']],
      (Token.closes ⟨.punct, [], text, .start⟩ = true ∧
        Token.opens ⟨.punct, [], text, .start⟩ = false) := by decide
  obtain ⟨text, htext, hword⟩ : ∃ text ∈ [[')'], [']'], ['\x7d']], c.word = (.punct, text) := by
    rcases hword with h | h | h <;> exact ⟨_, by simp, h⟩
  have hsame : c.word = Token.word ⟨.punct, [], text, .start⟩ := hword
  rw [closes_congr hsame, opens_congr hsame]
  exact hclosers text htext

/-- Balanced tokens do not matter for what is enclosed. -/
theorem Balanced.enclose {commas : Bool} {ts : List Token} (h : Balanced commas ts)
    {failure : Option ParseError} {opener : Token} {outer rest : List Token} {e : Enclosure}
    (hrest : enclose failure opener outer rest = .ok e) :
    Twinfold.enclose failure opener outer (ts ++ rest) = .ok { e with inner := ts ++ e.inner } := by
  induction h generalizing opener outer rest e with
  | nil => exact hrest
  | @plain _ t _ hopens hcloses _ _ ih =>
    have hone : ∀ u ∈ [t], u.opens = false ∧ u.closes = false := by simpa using ⟨hopens, hcloses⟩
    simpa using enclose_inline hone (ih hrest)
  | nested hopens hclosed _ _ ihinner ihts =>
    obtain ⟨hcloses, hopens'⟩ := closes_of_closedBy hclosed
    have hbehind := enclose_closing hopens' hcloses hclosed (ihts hrest)
    have hwhole := enclose_opening hopens (ihinner hbehind)
    simpa [Enclosure.cons] using hwhole

/-- Whether tokens are balanced is told by their kinds and texts.  A text that is laid out anew is
therefore as balanced as it was. -/
theorem Balanced.congr {commas : Bool} {ts us : List Token} (h : Balanced commas ts)
    (hwords : ts.map Token.word = us.map Token.word) : Balanced commas us := by
  induction h generalizing us with
  | nil =>
    obtain rfl : us = [] := by simpa [eq_comm] using hwords
    exact .nil
  | plain hopens hcloses hcomma _ ih =>
    obtain ⟨u, us, rfl, hword, hwords⟩ := List.map_eq_cons_iff.mp hwords.symm
    refine .plain ?_ ?_ ?_ (ih hwords.symm)
    · rwa [opens_congr hword]
    · rwa [closes_congr hword]
    · rwa [punctIs_congr hword]
  | nested hopens hclosed _ _ ihinner ihts =>
    rw [List.map_cons, List.map_append, List.map_cons] at hwords
    obtain ⟨o, rest, rfl, ho, hwords⟩ := List.map_eq_cons_iff.mp hwords.symm
    obtain ⟨inner, rest, rfl, hinner, hwords⟩ := List.map_eq_append_iff.mp hwords
    obtain ⟨c, us, rfl, hc, hwords⟩ := List.map_eq_cons_iff.mp hwords
    refine .nested ?_ ?_ (ihinner hinner.symm) (ihts hwords.symm)
    · rwa [opens_congr ho]
    · rwa [closedBy_congr ho hc]

/-! ### The stack of open delimiters -/

/-- Where `opened` are open, the tokens can follow, and behind them `opened'` are open. -/
def Tracks (opened ts opened' : List Token) : Prop := ts.foldlM Extractor.track opened = .ok opened'

section

variable {opened opened' : List Token} {t o : Token} {ts us : List Token}

@[simp] theorem tracks_nil_iff : Tracks opened [] opened' ↔ opened = opened' := by
  simp [Tracks, pure, Except.pure]

/-- Keeping track of a list begins with its first token. -/
theorem tracks_cons_iff : Tracks opened (t :: ts) opened' ↔
    ∃ middle, Extractor.track opened t = .ok middle ∧ Tracks middle ts opened' := by
  unfold Tracks
  rw [List.foldlM_cons]
  rcases Extractor.track opened t with e | middle <;> simp [bind, Except.bind]

/-- Two lists are kept track of one after the other. -/
theorem tracks_append_iff : Tracks opened (ts ++ us) opened' ↔
    ∃ middle, Tracks opened ts middle ∧ Tracks middle us opened' := by
  induction ts generalizing opened with
  | nil => simp
  | cons t ts ih =>
    simp only [List.cons_append, tracks_cons_iff, ih]
    grind

/-- What a token does to the stack: it opens, it closes the innermost delimiter, or it is none. -/
theorem track_eq_ok_iff : Extractor.track opened t = .ok opened' ↔
    (t.opens = true ∧ opened' = t :: opened) ∨
      (t.opens = false ∧ t.closes = true ∧ ∃ o, opened = o :: opened' ∧ o.closedBy t = true) ∨
      (t.opens = false ∧ t.closes = false ∧ opened' = opened) := by
  unfold Extractor.track
  cases hopens : t.opens with
  | true => simp [@eq_comm _ opened']
  | false =>
    cases hcloses : t.closes with
    | false => simp [@eq_comm _ opened']
    | true =>
      cases opened with
      | nil => simp
      | cons o os =>
        cases hclosed : o.closedBy t <;> simp [hclosed]

theorem tracks_opening (h : t.opens = true) :
    Tracks opened (t :: ts) opened' ↔ Tracks (t :: opened) ts opened' := by
  simp [tracks_cons_iff, track_eq_ok_iff, h]

/-- The partner of the innermost open delimiter is passed and closes it. -/
theorem tracks_closing (h : o.closedBy t = true) :
    Tracks (o :: opened) (t :: ts) opened' ↔ Tracks opened ts opened' := by
  obtain ⟨hcloses, hopens⟩ := closes_of_closedBy h
  simp [tracks_cons_iff, track_eq_ok_iff, hopens, hcloses, h]

theorem tracks_plain (h : t.opens = false ∧ t.closes = false) :
    Tracks opened (t :: ts) opened' ↔ Tracks opened ts opened' := by
  simp [tracks_cons_iff, track_eq_ok_iff, h]

theorem Tracks.unique {opened'' : List Token} (h : Tracks opened ts opened')
    (h' : Tracks opened ts opened'') : opened' = opened'' :=
  Except.ok.inj (h.symm.trans h')

/-- Delimiters that are open further out do not matter. -/
theorem Tracks.append_opened (h : Tracks opened ts opened') (outer : List Token) :
    Tracks (opened ++ outer) ts (opened' ++ outer) := by
  induction ts generalizing opened with
  | nil => rw [tracks_nil_iff.mp h, tracks_nil_iff]
  | cons t ts ih =>
    obtain ⟨middle, htrack, hrest⟩ := tracks_cons_iff.mp h
    refine tracks_cons_iff.mpr ⟨middle ++ outer, ?_, ih hrest⟩
    rcases track_eq_ok_iff.mp htrack with ⟨hopens, rfl⟩ | ⟨hopens, hcloses, o, rfl, hclosed⟩ |
      ⟨hopens, hcloses, rfl⟩
    · exact track_eq_ok_iff.mpr (.inl ⟨hopens, rfl⟩)
    · exact track_eq_ok_iff.mpr (.inr (.inl ⟨hopens, hcloses, o, rfl, hclosed⟩))
    · exact track_eq_ok_iff.mpr (.inr (.inr ⟨hopens, hcloses, rfl⟩))

/-- Balanced tokens leave the stack as it is. -/
theorem Balanced.tracks {commas : Bool} (h : Balanced commas ts) (opened : List Token) :
    Tracks opened ts opened := by
  induction h generalizing opened with
  | nil => exact tracks_nil_iff.mpr rfl
  | plain hopens hcloses _ _ ih => exact (tracks_plain ⟨hopens, hcloses⟩).mpr (ih opened)
  | nested hopens hclosed _ _ ihinner ihts =>
    rw [tracks_opening hopens, tracks_append_iff]
    exact ⟨_, ihinner _, (tracks_closing hclosed).mpr (ihts opened)⟩

/-- **Partners.**  If the stack runs empty, the innermost open delimiter has its partner, and the
tokens in between are balanced. -/
theorem exists_partner_of_tracks (h : Tracks (o :: opened) ts []) : ∃ inner close rest,
    ts = inner ++ close :: rest ∧ Balanced true inner ∧ o.closedBy close = true ∧
      Tracks opened rest [] := by
  induction hlength : ts.length using Nat.strong_induction_on generalizing o opened ts with
  | _ n ih =>
    subst hlength
    cases ts with
    | nil => simp at h
    | cons t ts =>
      obtain ⟨middle, htrack, hrest⟩ := tracks_cons_iff.mp h
      rcases track_eq_ok_iff.mp htrack with ⟨hopens, rfl⟩ | ⟨_, _, o', hcons, hclosed⟩ |
        ⟨hopens, hcloses, rfl⟩
      · -- The delimiter that opens here has a partner, and `o` has one behind it.
        obtain ⟨inner, close, rest, rfl, hinner, hclosed, hrest⟩ :=
          ih ts.length (Nat.lt_succ_self _) hrest rfl
        obtain ⟨inner', close', rest', rfl, hinner', hclosed', hrest'⟩ :=
          ih rest.length (by simp only [List.length_cons, List.length_append]; omega) hrest rfl
        exact ⟨t :: (inner ++ close :: inner'), close', rest', by simp,
          .nested hopens hclosed hinner hinner', hclosed', hrest'⟩
      · cases hcons
        exact ⟨[], t, ts, rfl, .nil, hclosed, hrest⟩
      · obtain ⟨inner, close, rest, rfl, hinner, hclosed, hrest⟩ :=
          ih ts.length (Nat.lt_succ_self _) hrest rfl
        exact ⟨t :: inner, close, rest, rfl, .plain hopens hcloses nofun hinner, hclosed, hrest⟩

/-- **Balance is told by a stack.**  A delimiter that is tracked to the end has a partner, and what
is between them and what is behind them is shorter. -/
theorem balanced_iff_tracks : Balanced true ts ↔ Tracks [] ts [] := by
  refine ⟨fun h => h.tracks [], fun h => ?_⟩
  induction hlength : ts.length using Nat.strong_induction_on generalizing ts with
  | _ n ih =>
    subst hlength
    cases ts with
    | nil => exact .nil
    | cons t ts =>
      obtain ⟨middle, htrack, hrest⟩ := tracks_cons_iff.mp h
      rcases track_eq_ok_iff.mp htrack with ⟨hopens, rfl⟩ | ⟨_, _, o, hcons, _⟩ |
        ⟨hopens, hcloses, rfl⟩
      · obtain ⟨inner, close, rest, rfl, hinner, hclosed, hrest⟩ := exists_partner_of_tracks hrest
        exact .nested hopens hclosed hinner
          (ih rest.length (by simp only [List.length_cons, List.length_append]; omega) hrest rfl)
      · cases hcons
      · exact .plain hopens hcloses nofun (ih ts.length (Nat.lt_succ_self _) hrest rfl)

end

/-! ### The stacks of extraction -/

/-- What is enclosed closes the delimiter in front of it.  The induction is on the tokens, with the
delimiters that `enclose` keeps as the upper part of the stack. -/
theorem tracks_of_enclose {failure : Option ParseError} {opener : Token} {outer ts : List Token}
    {e : Enclosure} (h : enclose failure opener outer ts = .ok e) (opened : List Token) :
    Tracks (opener :: (outer ++ opened)) (e.inner ++ [e.close]) opened := by
  induction ts generalizing opener outer e with
  | nil => cases h
  | cons t ts ih =>
    -- A token that is enclosed: go on with the delimiters that are open behind it.
    have hstep : ∀ o os, (enclose failure o os ts).map (.cons t) = .ok e →
        ∃ inner, e.inner = t :: inner ∧ Tracks (o :: (os ++ opened)) (inner ++ [e.close]) opened := by
      intro o os h
      rcases hrest : enclose failure o os ts with x | e' <;> rw [hrest] at h
      · cases h
      · cases h
        exact ⟨e'.inner, rfl, ih hrest⟩
    unfold enclose at h
    split at h
    · rename_i hopens
      obtain ⟨inner, hinner, htracks⟩ := hstep _ _ h
      rw [hinner, List.cons_append, tracks_opening hopens]
      exact htracks
    · rename_i hopens
      split at h
      · split at h
        · rename_i hclosed
          split at h
          · cases h
            exact (tracks_closing hclosed).mpr (tracks_nil_iff.mpr rfl)
          · obtain ⟨inner, hinner, htracks⟩ := hstep _ _ h
            rw [hinner, List.cons_append]
            exact (tracks_closing hclosed).mpr htracks
        · cases h
      · rename_i hcloses
        obtain ⟨inner, hinner, htracks⟩ := hstep _ _ h
        rw [hinner, List.cons_append, tracks_plain ⟨eq_false_of_ne_true hopens,
          eq_false_of_ne_true hcloses⟩]
        exact htracks

/-- A partner encloses nothing if it comes at once. -/
theorem enclose_close {opener close : Token} (h : opener.closedBy close = true)
    (failure : Option ParseError) (rest : List Token) :
    enclose failure opener [] (close :: rest) = .ok ⟨[], close, rest⟩ := by
  obtain ⟨hcloses, hopens⟩ := closes_of_closedBy h
  simp [enclose, hopens, hcloses, h]

/-- If the stack runs empty, the delimiter in front encloses something. -/
theorem exists_enclose_of_tracks {opener : Token} {opened ts : List Token}
    (h : Tracks (opener :: opened) ts []) (failure : Option ParseError) :
    ∃ e, enclose failure opener [] ts = .ok e ∧ Tracks opened e.rest [] := by
  obtain ⟨inner, close, rest, rfl, hinner, hclosed, hrest⟩ := exists_partner_of_tracks h
  exact ⟨_, hinner.enclose (enclose_close hclosed failure rest), hrest⟩

/-- What is enclosed is balanced. -/
theorem balanced_of_enclose {failure : Option ParseError} {opener : Token} {ts : List Token}
    {e : Enclosure} (h : enclose failure opener [] ts = .ok e) : Balanced true e.inner := by
  obtain ⟨inner, close, rest, hsplit, hinner, hclosed, -⟩ :=
    exists_partner_of_tracks (tracks_of_enclose h [])
  have halone := enclose_alone h
  rw [hsplit, hinner.enclose (enclose_close hclosed none rest)] at halone
  have hsame : inner ++ [] = e.inner := congrArg Enclosure.inner (Except.ok.inj halone)
  rw [← hsame, List.append_nil]
  exact hinner

/-- A declaration leaves the stack as it is.  Its parameters and its body are enclosed, and the
rest of it has no delimiters. -/
theorem Parts.WellFormed.tracks {p : Parts} {afterDefault : Bool} (h : p.WellFormed afterDefault)
    (hkeyword : p.keyword.kind = .ident) (opened : List Token) : Tracks opened p.unit opened := by
  have hfront : ∀ t ∈ p.keyword :: (p.star.toList ++ p.ident.toList),
      t.opens = false ∧ t.closes = false := by
    intro t ht
    simp only [List.mem_cons, List.mem_append, Option.mem_toList] at ht
    rcases ht with rfl | ht | ht
    · exact not_delimiter_of_ident hkeyword
    · exact not_delimiter_of_punctIs (h.star t ht) (by decide)
    · exact not_delimiter_of_ident (h.ident t ht)
  have hplain : ∀ ts : List Token, (∀ t ∈ ts, t.opens = false ∧ t.closes = false) →
      Balanced true ts := by
    intro ts hts
    induction ts with
    | nil => exact .nil
    | cons t ts ih =>
      obtain ⟨ho, hc⟩ := hts t List.mem_cons_self
      exact .plain ho hc nofun (ih fun t ht => hts t (List.mem_cons_of_mem _ ht))
  have hsplit : p.unit = (p.keyword :: (p.star.toList ++ p.ident.toList)) ++
      ((p.paren :: (p.params ++ [p.parenClose])) ++ (p.brace :: (p.inner ++ [p.braceClose]))) := by
    simp [unit, signature, block]
  rw [hsplit]
  refine tracks_append_iff.mpr ⟨opened, (hplain _ hfront).tracks opened, ?_⟩
  refine tracks_append_iff.mpr ⟨opened, ?_, ?_⟩
  · rw [tracks_opening (opens_of_punctIs h.paren (by decide))]
    exact tracks_of_enclose h.params opened
  · rw [tracks_opening (opens_of_punctIs h.brace (by decide))]
    exact tracks_of_enclose h.inner opened

/-- **A walk to the end leaves nothing open.**  Tokens in declarations are balanced by themselves,
and the others are tracked on the way. -/
theorem Walks.tracks {low : Nat} {previous beforePrevious : Option Token} {opened : List Token}
    {items : List Item} (h : Walks low previous beforePrevious opened items []) :
    Tracks opened (tokensOf items) [] := by
  induction items generalizing previous beforePrevious opened with
  | nil => exact tracks_nil_iff.mpr (h rfl)
  | cons item items ih =>
    rw [tokensOf_cons, tracks_append_iff]
    cases item with
    | token t =>
      obtain ⟨_, htrack, hwalks⟩ := h
      exact ⟨_, tracks_cons_iff.mpr ⟨_, htrack, tracks_nil_iff.mpr rfl⟩, ih hwalks⟩
    | unit p =>
      obtain ⟨⟨afterDefault, hwell, _, hlead⟩, hwalks⟩ := h
      exact ⟨opened, hwell.tracks (identIs_kind (Parts.found_of_lead hwell hlead).function) opened,
        ih hwalks⟩

/-! ### Who is blamed -/

/-- The error is not about balance. -/
def ParseError.SparesBalance (e : ParseError) : Prop := ∀ delimiter, e.fault ≠ .unbalanced delimiter

theorem spares_unexpectedToken (p : Place) : ParseError.SparesBalance ⟨.unexpectedToken, p⟩ := by
  intro delimiter h
  cases h

/-- Taking a token that is no delimiter leaves the rest balanced. -/
theorem takeIf_of_tracks {p : Token → Bool} {opened ts : List Token}
    (hp : ∀ t, p t = true → t.opens = false ∧ t.closes = false) (h : Tracks opened ts []) :
    Tracks opened (takeIf p ts).2 [] := by
  cases ts with
  | nil => exact h
  | cons t ts =>
    rw [takeIf]
    split
    · rename_i ht
      exact (tracks_plain (hp t ht)).mp h
    · exact h

/-- Reading the name of a function blames no delimiter. -/
theorem nameOf_spares {afterDefault : Bool} {atEnd e : ParseError} {ident : Option Token}
    {ts : List Token} (hatEnd : atEnd.SparesBalance)
    (h : nameOf afterDefault atEnd ident ts = .error e) : e.SparesBalance := by
  unfold nameOf at h
  split at h
  · cases h
  · cases h
    exact hatEnd
  · split at h
    · cases h
    · cases h
      intro delimiter h
      cases h

/-- Looking for a punctuator blames no delimiter. -/
theorem expectPunct_spares {text : String} {atEnd e : ParseError} {ts : List Token}
    (hatEnd : atEnd.SparesBalance) (h : expectPunct text atEnd ts = .error e) :
    e.SparesBalance := by
  unfold expectPunct at h
  split at h
  · cases h
    exact hatEnd
  · split at h
    · cases h
    · cases h
      exact spares_unexpectedToken _

/-- If the stack runs empty, so does the stack behind a delimiter that is expected and there. -/
theorem tracks_of_expectPunct {text : String} {atEnd : ParseError} {opened ts : List Token}
    {r : Token × List Token} (h : expectPunct text atEnd ts = .ok r)
    (htext : text ∈ ["(", "[", "\x7b"]) (htracks : Tracks opened ts []) :
    Tracks (r.1 :: opened) r.2 [] := by
  obtain ⟨rfl, hpunct⟩ := expectPunct_eq_ok_iff.mp h
  exact (tracks_opening (opens_of_punctIs hpunct htext)).mp htracks

/-- If the stack runs empty, a declaration is read, or what is wrong is not balance.  The parts are
taken one after the other, and behind each of them the stack still runs empty. -/
theorem readDeclaration_of_tracks {normalize : Bool} {index : Nat} {scope : Option Nat}
    {lead : Lead} {opened ts : List Token} (h : Tracks opened ts []) :
    (∀ e, readDeclaration normalize none index scope lead ts = .error e → e.SparesBalance) ∧
      ∀ r, readDeclaration normalize none index scope lead ts = .ok r →
        Tracks opened r.rest [] := by
  have hatEnd := spares_unexpectedToken lead.keyword.place
  have hstar := takeIf_of_tracks
    (fun t (hstar : t.punctIs "*" = true) => not_delimiter_of_punctIs hstar (by decide)) h
  have hident := takeIf_of_tracks
    (fun t ht => not_delimiter_of_ident (of_decide_eq_true (p := t.kind = .ident) ht)) hstar
  have hfails : ∀ {e : ParseError}, e.SparesBalance →
      (∀ e', (.error e : Except ParseError Reading) = .error e' → e'.SparesBalance) ∧
        ∀ r, (.error e : Except ParseError Reading) = .ok r → Tracks opened r.rest [] := by
    intro e he
    refine ⟨fun e' h => ?_, fun r h => ?_⟩
    · cases h
      exact he
    · cases h
  simp only [readDeclaration, bind, Except.bind, Option.getD_none]
  split
  · rename_i e hname
    exact hfails (nameOf_spares hatEnd hname)
  split
  · rename_i e hparen
    exact hfails (expectPunct_spares hatEnd hparen)
  rename_i paren hparen
  obtain ⟨params, hparams, hbehind⟩ :=
    exists_enclose_of_tracks (tracks_of_expectPunct hparen (by decide) hident) none
  rw [hparams]
  dsimp only
  split
  · rename_i e hbrace
    exact hfails (expectPunct_spares hatEnd hbrace)
  rename_i brace hbrace
  obtain ⟨body, hbody, hrest⟩ :=
    exists_enclose_of_tracks (tracks_of_expectPunct hbrace (by decide) hbehind) none
  rw [hbody]
  refine ⟨fun e h => ?_, fun r h => ?_⟩
  · cases h
  · cases h
    exact hrest

namespace Extractor

/-- **Seeking in balanced tokens.**  Where the delimiters are balanced up to the end, seeking the
next declaration does not fail: it comes to the end, or to a declaration behind whose lead the rest
is balanced. -/
theorem seek_of_tracks {x : Extractor} {ts : List Token} (hfailure : x.failure = none)
    (h : Tracks x.opened ts []) : x.seek ts = .finished ∨
      ∃ lead y, x.seek ts = .lead lead y ∧ y.failure = none ∧ Tracks y.opened y.tokens [] := by
  induction ts generalizing x with
  | nil =>
    obtain hopened := tracks_nil_iff.mp h
    left
    simp [seek, atEnd, hfailure, hopened]
  | cons t ts ih =>
    rw [seek]
    split
    · exact .inl rfl
    · split
      · rename_i lead hlead
        split at hlead
        · rw [leadAt?_eq, Option.ite_none_right_eq_some] at hlead
          have hleads := hlead.1
          simp only [leads, Bool.and_eq_true] at hleads
          have hplain := not_delimiter_of_ident (identIs_kind hleads.1.1.1)
          exact .inr ⟨_, _, rfl, hfailure, (tracks_plain hplain).mp h⟩
        · cases hlead
      · obtain ⟨opened, htrack, hrest⟩ := tracks_cons_iff.mp h
        rw [htrack]
        exact @ih { x with opened, previous := some t, beforePrevious := x.previous } hfailure hrest

/-- What the next step comes to if the stack over all tokens runs empty.  A step seeks a
declaration and reads it, and neither of the two changes that. -/
theorem next_of_tracks {x : Extractor} (hfailure : x.failure = none)
    (h : Tracks x.opened x.tokens []) :
    (∀ e, x.next = .failed e → e.SparesBalance) ∧
      ∀ d after, x.next = .declaration d after →
        after.failure = none ∧ Tracks after.opened after.tokens [] := by
  rcases seek_of_tracks hfailure h with hseek | ⟨lead, y, hseek, hnone, hbehind⟩
  · have hnext : x.next = .finished := by
      unfold next
      rw [hseek]
    rw [hnext]
    constructor
    · intro e h
      cases h
    · intro d after h
      cases h
  · obtain ⟨herror, hok⟩ := @readDeclaration_of_tracks y.normalize y.index y.scope lead _ _ hbehind
    rcases hread : readDeclaration y.normalize none y.index y.scope lead y.tokens with e | r
    · have hnext : x.next = .failed e := by
        unfold next
        rw [hseek]
        dsimp only
        rw [hnone, hread]
      rw [hnext]
      constructor
      · intro e h
        cases h
        exact herror _ hread
      · intro d after h
        cases h
    · have hnext : x.next = .declaration r.declaration { y with
          tokens := r.rest
          previous := some r.close
          beforePrevious := none
          index := y.index + 1 } := by
        unfold next
        rw [hseek]
        dsimp only
        rw [hnone, hread]
      rw [hnext]
      constructor
      · intro e h
        cases h
      · intro d after h
        cases h
        exact ⟨hnone, hok _ hread⟩

/-- **Blame.**  If the stack over all tokens runs empty, a run that fails does not blame a
delimiter. -/
theorem fault_of_run (x : Extractor) (hfailure : x.failure = none)
    (h : Tracks x.opened x.tokens []) : ∀ e ∈ x.run.failure, e.SparesBalance := by
  induction x using run.induct with
  | case1 x d after hnext ih =>
    rw [run_of_declaration hnext]
    obtain ⟨hnone, htracks⟩ := (next_of_tracks hfailure h).2 d after hnext
    exact ih hnone htracks
  | case2 x e hnext =>
    rw [run_of_failed hnext]
    intro e' he
    cases he
    exact (next_of_tracks hfailure h).1 e hnext
  | case3 x hnext =>
    rw [run_of_finished hnext]
    intro e he
    cases he

end Extractor

/-! ### Whole texts -/

/-- **Balance and blame.**  Without a region, declarations are found only in a text whose
delimiters are balanced, and a delimiter is blamed only if they are not.  A text that cannot be
lexed has no declarations. -/
theorem declarations_settle_balance (source : Text) (options : Options)
    (hregion : options.region = none) :
    (∀ ts, tokenize source = .ok ts →
      (∀ ds, declarations source options = .ok ds → Balanced true ts) ∧
      ∀ delimiter place, declarations source options = .error ⟨.unbalanced delimiter, place⟩ →
        ¬Balanced true ts) ∧
    ∀ e, tokenize source = .error e → ∃ e', declarations source options = .error e' := by
  refine ⟨fun ts hts => ⟨?_, ?_⟩, ?_⟩
  · intro ds hds
    obtain ⟨items, rfl, hwalks, _⟩ := exists_walk_of_declarations hregion hts hds
    exact balanced_iff_tracks.mpr hwalks.tracks
  · intro delimiter place herror hbalanced
    obtain ⟨htokens, hnone⟩ := tokenize_eq_ok_iff.mp hts
    have hfailure := declarations_eq_error_iff.mp herror
    rw [extract, Extractor.start_of_whole source hregion, htokens, hnone] at hfailure
    exact Extractor.fault_of_run _ rfl (balanced_iff_tracks.mp hbalanced) _ hfailure delimiter rfl
  · intro e herror
    rcases hds : declarations source options with e' | ds
    · exact ⟨e', rfl⟩
    · obtain ⟨ts, hts⟩ := exists_tokens_of_declarations hregion hds
      rw [herror] at hts
      cases hts

/-- A text in order, one with crossed delimiters in a body, and one with a string that does not
end. -/
theorem balance_of_three_texts : ∃ ts ds us e e',
    tokenize "function f(a, [b]) \x7b return (a) \x7d\n(f)".toList = .ok ts ∧
    declarations "function f(a, [b]) \x7b return (a) \x7d\n(f)".toList {} = .ok ds ∧
    Balanced true ts ∧
    tokenize "function f() \x7b return (1 \x7d )".toList = .ok us ∧
    declarations "function f() \x7b return (1 \x7d )".toList {} =
      .error ⟨.unbalanced '\x7d', ⟨25, 1⟩⟩ ∧
    ¬Balanced true us ∧
    tokenize "function f() \x7b return 'a \x7d".toList = .error e ∧
    declarations "function f() \x7b return 'a \x7d".toList {} = .error e' := by
  have hchecks : (tokenize "function f(a, [b]) \x7b return (a) \x7d\n(f)".toList).toBool = true ∧
      (declarations "function f(a, [b]) \x7b return (a) \x7d\n(f)".toList {}).toBool = true ∧
      (tokenize "function f() \x7b return (1 \x7d )".toList).toBool = true ∧
      (extract "function f() \x7b return (1 \x7d )".toList {}).failure =
        some ⟨.unbalanced '\x7d', ⟨25, 1⟩⟩ ∧
      (tokenize "function f() \x7b return 'a \x7d".toList).toBool = false := by
    decide +kernel
  obtain ⟨hfirst, hfound, hsecond, hblamed, hthird⟩ := hchecks
  have hblamed := declarations_eq_error_iff.mpr hblamed
  rcases hts : tokenize "function f(a, [b]) \x7b return (a) \x7d\n(f)".toList with e | ts
  · rw [hts] at hfirst
    cases hfirst
  rcases hds : declarations "function f(a, [b]) \x7b return (a) \x7d\n(f)".toList {} with e | ds
  · rw [hds] at hfound
    cases hfound
  rcases hus : tokenize "function f() \x7b return (1 \x7d )".toList with e | us
  · rw [hus] at hsecond
    cases hsecond
  rcases herror : tokenize "function f() \x7b return 'a \x7d".toList with e | vs
  · obtain ⟨e', he'⟩ := (declarations_settle_balance _ {} rfl).2 e herror
    exact ⟨ts, ds, us, e, e', rfl, rfl,
      ((declarations_settle_balance _ {} rfl).1 ts hts).1 ds hds, rfl, hblamed,
      ((declarations_settle_balance _ {} rfl).1 us hus).2 _ _ hblamed, rfl, he'⟩
  · rw [herror] at hthird
    cases hthird

end Twinfold
