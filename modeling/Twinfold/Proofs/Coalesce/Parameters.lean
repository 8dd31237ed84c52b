import Mathlib.Data.List.DropRight
import Twinfold.Proofs.Coalesce.Reread
import Twinfold.Proofs.Token.Tiling

/-!
# Parameter lists that are written

The parameters of a helper are the names for its slots and the parameters of the canonical
function.  They are written in a row, each as the text that it was without the white space around
it.  If each of them is by itself read as a parameter (`ParamReads`), the list is read as these
parameters (`exists_spellParams`).  A parameter with a line comment at its end is not: without the
end of the line the comment takes in what is written behind it.
-/

namespace Twinfold

/-! ### Pieces between commas -/

/-- A comma is no delimiter. -/
theorem punctIs_comma_of_delimiter {t : Token} (h : t.opens = true ∨ t.closes = true) :
    t.punctIs "," = false := by
  by_contra hcomma
  rw [Bool.not_eq_false] at hcomma
  simp [not_delimiter_of_punctIs hcomma (by decide)] at h

/-- Puts a text in front of the first piece. -/
def prependPiece (front : Text) : List Text → List Text
  | [] => []
  | piece :: pieces => (front ++ piece) :: pieces

theorem prependPiece_nil (pieces : List Text) : prependPiece [] pieces = pieces := by
  cases pieces <;> rfl

theorem prependPiece_append (front front' : Text) (pieces : List Text) :
    prependPiece front (prependPiece front' pieces) = prependPiece (front ++ front') pieces := by
  cases pieces <;> simp [prependPiece]

/-- A token that is no outermost comma belongs to the first piece. -/
theorem paramPieces_cons {closing : Text} {depth : Nat} {t : Token} {ts : List Token}
    (h : (depth = 0 && t.punctIs ",") = false) :
    paramPieces closing depth (t :: ts) =
      prependPiece t.source (paramPieces closing (t.depthAfter depth) ts) := by
  rw [paramPieces, if_neg (by simp [h])]
  cases paramPieces closing (t.depthAfter depth) ts <;> rfl

/-- Balanced tokens are in one piece with what follows, unless commas end their pieces.  Behind an
opening delimiter commas are inside, and behind its partner the depth is what it was. -/
theorem Balanced.paramPieces {commas : Bool} {ts : List Token} (h : Balanced commas ts)
    (closing : Text) {depth : Nat} (hdepth : commas = true → depth ≠ 0) (rest : List Token) :
    Twinfold.paramPieces closing depth (ts ++ rest) =
      prependPiece (Token.sourceOf ts) (Twinfold.paramPieces closing depth rest) := by
  induction h generalizing depth rest with
  | nil => rw [sourceOf_nil, prependPiece_nil, List.nil_append]
  | @plain commas t ts hopens hcloses hcomma _ ih =>
    have hinside : (depth = 0 && t.punctIs ",") = false := by
      cases commas with
      | false => simp [hcomma rfl]
      | true => simp [hdepth rfl]
    have hafter : t.depthAfter depth = depth := by simp [Token.depthAfter, hopens, hcloses]
    rw [List.cons_append, paramPieces_cons hinside, hafter, ih hdepth, prependPiece_append,
      sourceOf_cons, Token.source, List.append_assoc]
  | @nested commas o c inner ts hopens hclosed _ _ ihinner ihts =>
    obtain ⟨hcloses, hopens'⟩ := closes_of_closedBy hclosed
    have hopening : o.depthAfter depth = depth + 1 := by simp [Token.depthAfter, hopens]
    have hclosing : c.depthAfter (depth + 1) = depth := by
      simp [Token.depthAfter, hopens', hcloses]
    have hleft : (depth = 0 && o.punctIs ",") = false := by
      simp [punctIs_comma_of_delimiter (.inl hopens)]
    have hright : (depth + 1 = 0 && c.punctIs ",") = false := by simp
    rw [List.cons_append, paramPieces_cons hleft, hopening, List.append_assoc,
      ihinner (fun _ => Nat.succ_ne_zero _), List.cons_append, paramPieces_cons hright, hclosing,
      ihts hdepth]
    simp [prependPiece_append, Token.source]

/-! ### Texts without white space around them -/

theorem trimStart_cons {c : Char} (hc : Text.isBlank c = false) (t : Text) :
    Text.trimStart (c :: t) = c :: t := by
  simp [Text.trimStart, hc]

/-- Trimming twice takes no more away than trimming once: what is left neither begins nor ends with
white space. -/
theorem trim_trim (t : Text) : t.trim.trim = t.trim := by
  have hend : ∀ t : Text, t.trimEnd.trimEnd = t.trimEnd := fun t =>
    List.rdropWhile_idempotent Text.isBlank t
  unfold Text.trim
  cases hstart : t.trimStart with
  | nil => rfl
  | cons c rest =>
    have hc : Text.isBlank c = false := by
      have hhead := List.head?_dropWhile_not Text.isBlank t
      have hstart : t.dropWhile Text.isBlank = c :: rest := hstart
      rw [hstart] at hhead
      simpa using hhead
    have htrim : Text.trimEnd (c :: rest) = c :: Text.trimEnd rest := @trimEnd_append [] c hc rest
    rw [htrim, trimStart_cons hc, ← htrim, hend]

/-- Every piece but the last one is a parameter. -/
theorem paramsOfPieces_cons {pieces : List Text} (h : pieces ≠ []) (piece : Text) :
    paramsOfPieces (piece :: pieces) = piece.trim :: paramsOfPieces pieces := by
  rw [paramsOfPieces]
  exact h

/-- There is nothing to trim in a text without blanks. -/
theorem trim_of_not_blank {t : Text} (h : ∀ c ∈ t, Text.isBlank c = false) : t.trim = t := by
  have hdrop : ∀ t : Text, (∀ c ∈ t, Text.isBlank c = false) → t.dropWhile Text.isBlank = t := by
    intro t h
    cases t with
    | nil => rfl
    | cons c t => exact List.dropWhile_cons_of_neg (by simp [h c List.mem_cons_self])
  unfold Text.trim Text.trimEnd Text.trimStart
  rw [hdrop t h, hdrop t.reverse fun c hc => h c (List.mem_reverse.mp hc), List.reverse_reverse]

/-- A parameter is the piece at its place without the white space around it.  Only an empty piece
at the end is left out, so the places are the same. -/
theorem exists_piece_of_getElem? {pieces : List Text} {i : Nat} {text : Text}
    (h : (paramsOfPieces pieces)[i]? = some text) :
    ∃ piece, pieces[i]? = some piece ∧ text = piece.trim := by
  induction pieces using paramsOfPieces.induct generalizing i with
  | case1 => simp [paramsOfPieces] at h
  | case2 last hempty => simp [paramsOfPieces, hempty] at h
  | case3 last hempty =>
    rw [paramsOfPieces, if_neg hempty] at h
    cases i with
    | zero => exact ⟨last, rfl, (Option.some.inj h).symm⟩
    | succ i => cases h
  | case4 piece pieces hpieces ih =>
    rw [paramsOfPieces_cons hpieces] at h
    cases i with
    | zero => exact ⟨piece, rfl, (Option.some.inj h).symm⟩
    | succ i => exact ih h

/-- A parameter is a trimmed piece. -/
theorem exists_piece_of_mem {pieces : List Text} {text : Text} (h : text ∈ paramsOfPieces pieces) :
    ∃ piece ∈ pieces, text = piece.trim := by
  obtain ⟨i, hi⟩ := List.getElem?_of_mem h
  obtain ⟨piece, hpiece, htext⟩ := exists_piece_of_getElem? hi
  exact ⟨piece, List.mem_of_getElem? hpiece, htext⟩

/-- Parameters have no white space around them. -/
theorem trim_of_mem_readParams {ts : List Token} {closing text : Text}
    (h : text ∈ readParams ts closing) : text.trim = text := by
  obtain ⟨piece, _, rfl⟩ := exists_piece_of_mem h
  exact trim_trim piece

/-- Spaces in front do not matter for what is left by trimming. -/
theorem trim_spaces_append {spaces : Text} (h : ∀ c ∈ spaces, c = ' ') (t : Text) :
    Text.trim (spaces ++ t) = t.trim := by
  have hblank : ∀ c ∈ spaces, Text.isBlank c = true := by
    intro c hc
    rw [h c hc]
    decide
  unfold Text.trim Text.trimStart
  rw [List.dropWhile_append_of_pos hblank]

/-- Spaces in front of a gap are a part of it. -/
theorem IsGap.behind_spaces {spaces gap : Text} (h : IsGap gap) (hspaces : ∀ c ∈ spaces, c = ' ') :
    IsGap (spaces ++ gap) := by
  rw [isGap_iff_trivia] at h ⊢
  induction spaces with
  | nil => exact h
  | cons c spaces ih =>
    have hc : isGapSpace c = true := by
      rw [hspaces c List.mem_cons_self]
      decide
    exact .space hc (ih fun c hc => hspaces c (List.mem_cons_of_mem _ hc))

/-! ### Parameters that are read -/

/-- The tokens spell one parameter; `closing` is what stands behind the last of them, and it does
not take in what is written behind it. -/
structure SpellParam (text : Text) (ts : List Token) (closing : Text) : Prop where
  source : Token.sourceOf ts ++ closing = text
  nonempty : ts ≠ []
  spells : Spells none ts closing
  isGap : IsGap closing
  balanced : Balanced false ts

/-- The text is by itself read as a parameter. -/
def ParamReads (text : Text) : Prop := ∃ ts closing, SpellParam text ts closing

/-- No parameter is empty. -/
theorem SpellParam.text_ne_nil {text : Text} {ts : List Token} {closing : Text}
    (h : SpellParam text ts closing) : text ≠ [] := by
  obtain ⟨t, ts, rfl⟩ := List.exists_cons_of_ne_nil h.nonempty
  have hne := h.spells.text_ne_nil t List.mem_cons_self
  rw [← h.source]
  simp [hne]

/-- Parameters that are identifiers are read by themselves. -/
theorem IsName.paramReads {name : Text} (h : IsName name) : ParamReads name := by
  refine ⟨[.written .ident [] name], [], by simp [Token.written], List.cons_ne_nil _ _,
    ⟨isGap_nil, h, trivial⟩, isGap_nil, .plain ?_ ?_ ?_ .nil⟩ <;>
    simp [Token.written, Token.opens, Token.closes, Token.punctIs]

/-- The tokens spell the parameters in a row. -/
structure SpellParams (text : Text) (params : List Text) (ts : List Token) (closing : Text) :
    Prop where
  source : Token.sourceOf ts ++ closing = text
  isGap : IsGap closing
  balanced : Balanced true ts
  spells : ∀ previous tail, slashBeginsRegex previous = true →
    Spells previous ts (closing ++ ')' :: tail)
  read : readParams ts closing = params

/-- A parameter behind spaces. -/
theorem SpellParam.behind_spaces {text : Text} {ts : List Token} {closing : Text}
    (h : SpellParam text ts closing) {spaces : Text} (hspaces : ∀ c ∈ spaces, c = ' ') :
    ∃ us, SpellParam (spaces ++ text) us closing := by
  obtain ⟨hsource, hne, hspells, hclosing, hbalanced⟩ := h
  obtain ⟨t, ts, rfl⟩ := List.exists_cons_of_ne_nil hne
  obtain ⟨hgap, hreads, hrest⟩ := hspells
  refine ⟨{ t with gap := spaces ++ t.gap } :: ts, ?_, List.cons_ne_nil _ _,
    ⟨hgap.behind_spaces hspaces, hreads, hrest.behind (slashBeginsRegex_congr rfl rfl)⟩, hclosing,
    hbalanced.congr rfl⟩
  simp [← hsource]

section

variable {text : Text} {us : List Token} {closing : Text}

/-- Behind a parameter a separator can be written. -/
theorem SpellParam.before_separator (h : SpellParam text us closing) {c : Char}
    (hc : c ∈ separators) {previous : Option Token} (hslash : slashBeginsRegex previous = true)
    (tail : Text) : Spells previous us (closing ++ c :: tail) :=
  (h.spells.before_separator hc tail).behind hslash.symm

/-- The last parameter. -/
theorem SpellParam.last (h : SpellParam text us closing) (hne : text.trim ≠ []) :
    SpellParams text [text.trim] us closing := by
  refine ⟨h.source, h.isGap, h.balanced.commas, fun previous tail hslash =>
    h.before_separator (by decide) hslash tail, ?_⟩
  have hpieces := @Balanced.paramPieces _ _ h.balanced closing 0 (by simp) []
  rw [List.append_nil, paramPieces, prependPiece, h.source] at hpieces
  rw [readParams, hpieces, paramsOfPieces, if_neg (by simpa using hne)]

/-- A parameter with a comma and further parameters behind it.  The comma ends the first piece, and
the gap in front of it belongs to that piece. -/
theorem SpellParam.cons (h : SpellParam text us closing) {rest last : Text} {params : List Text}
    {vs : List Token} (hrest : SpellParams rest params vs last) (hne : params ≠ []) :
    SpellParams (text ++ ',' :: rest) (text.trim :: params)
      (us ++ .written .punct closing [','] :: vs) last := by
  refine ⟨?_, hrest.isGap, ?_, fun previous tail hslash => ?_, ?_⟩
  · rw [← h.source, ← hrest.source]
    simp [Token.written]
  · exact h.balanced.commas.append (.plain rfl rfl (by simp) hrest.balanced)
  · refine spells_append_iff.mpr ⟨?_, h.isGap, reads_delimiter (by decide) _ _,
      hrest.spells _ _ rfl⟩
    simpa [Token.written] using h.before_separator (by decide) hslash _
  · have hpieces := @Balanced.paramPieces _ _ h.balanced last 0 (by simp)
      (.written .punct closing [','] :: vs)
    have hread : paramsOfPieces (paramPieces last 0 vs) = params := hrest.read
    have hmore : paramPieces last 0 vs ≠ [] := by
      intro hnil
      rw [hnil] at hread
      exact hne hread.symm
    have hcomma : paramPieces last 0 (.written .punct closing [','] :: vs) =
        closing :: paramPieces last 0 vs := rfl
    rw [hcomma, prependPiece, h.source] at hpieces
    rw [readParams, hpieces, paramsOfPieces_cons hmore, hread]

end

/-- **Parameters in a row.**  If each of them is read by itself, they are read with commas in
between. -/
theorem exists_spellParams {blank : Text} (hblank : ∀ c ∈ blank, c = ' ') {params : List Text}
    (h : ∀ text ∈ params, ParamReads text ∧ text.trim = text) {front : Text}
    (hfront : ∀ c ∈ front, c = ' ') :
    ∃ ts closing, SpellParams (front ++ Text.join (',' :: blank) params) params ts closing := by
  induction params generalizing front with
  | nil =>
    refine ⟨[], front, ?_, ?_, .nil, fun _ _ _ => trivial, ?_⟩
    · simp [Text.join]
    · simpa using isGap_nil.behind_spaces hfront
    · have htrim := trim_spaces_append hfront []
      rw [List.append_nil] at htrim
      rw [readParams, paramPieces, paramsOfPieces, htrim]
      rfl
  | cons text more ih =>
    obtain ⟨⟨ts, closing, hparam⟩, htrim⟩ := h text List.mem_cons_self
    obtain ⟨us, hbehind⟩ := hparam.behind_spaces hfront
    rw [← trim_spaces_append hfront] at htrim
    by_cases hmore : more = []
    · have hlast := hbehind.last (by rw [htrim]; exact hparam.text_ne_nil)
      rw [htrim] at hlast
      exact ⟨us, closing, by simpa [hmore, Text.join] using hlast⟩
    · obtain ⟨vs, last, hrest⟩ := ih (fun text htext => h text (List.mem_cons_of_mem _ htext)) hblank
      have hcons := hbehind.cons hrest hmore
      rw [htrim] at hcons
      obtain ⟨text', more, rfl⟩ := List.exists_cons_of_ne_nil hmore
      have hjoin : front ++ Text.join (',' :: blank) (text :: text' :: more) =
          front ++ text ++ ',' :: (blank ++ Text.join (',' :: blank) (text' :: more)) := by
        simp [Text.join, List.intercalate]
      exact ⟨_, last, hjoin ▸ hcons⟩

end Twinfold
