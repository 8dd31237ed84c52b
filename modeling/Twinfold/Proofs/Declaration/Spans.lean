import Twinfold.Proofs.Declaration.Rewriting

/-!
# Declarations one behind the other

The declarations of a text stand in it one behind the other, each at the offsets that it is said
to have (`standIn_of_declarations`).  This holds in a region as well, and for declarations with
`async`, whose first token extraction has already passed when it finds the word `function`.

So if some of the declarations are replaced, the text falls into **pieces**, each of which ends
with a declaration that is replaced, and the rest of it is kept (`exists_pieces`).  Carrying out
the edits replaces these declarations and nothing else (`FallsInto.splice`).
-/

namespace Twinfold

/-! ### Where declarations stand -/

/-- The declarations stand in the text, whose first byte has an offset, one behind the other, and
none of them is empty. -/
def StandIn : (offset : Nat) → (text : Text) → List Declaration → Prop
  | _, _, [] => True
  | offset, text, d :: ds =>
    d.source ≠ [] ∧ ∃ before rest, text = before ++ (d.source ++ rest) ∧
      d.start = offset + before.size ∧ d.stop = d.start + d.source.size ∧ StandIn d.stop rest ds

/-- Declarations that stand in a text stand in a longer one, with a front in which none of them
stands. -/
theorem StandIn.prepend {offset : Nat} {text : Text} {ds : List Declaration} (front : Text)
    (h : StandIn (offset + front.size) text ds) : StandIn offset (front ++ text) ds := by
  cases ds with
  | nil => trivial
  | cons d ds =>
    obtain ⟨hne, before, rest, rfl, hstart, hstop, hrest⟩ := h
    refine ⟨hne, front ++ before, rest, (List.append_assoc _ _ _).symm, ?_, hstop, hrest⟩
    rw [hstart, Text.size_append, Nat.add_assoc]

/-- The declarations of a text begin behind the offset of the text. -/
theorem StandIn.le_start {offset : Nat} {text : Text} {ds : List Declaration}
    (h : StandIn offset text ds) : ∀ d ∈ ds, offset ≤ d.start := by
  induction ds generalizing offset text with
  | nil => simp
  | cons d ds ih =>
    obtain ⟨_, before, rest, _, hstart, hstop, hrest⟩ := h
    intro other hother
    rcases List.mem_cons.mp hother with rfl | hother
    · omega
    · have := ih hrest other hother
      omega

/-- Each declaration begins behind the beginning of the one before. -/
theorem StandIn.pairwise {offset : Nat} {text : Text} {ds : List Declaration}
    (h : StandIn offset text ds) : ds.Pairwise fun d d' => d.start < d'.start := by
  induction ds generalizing offset text with
  | nil => exact .nil
  | cons d ds ih =>
    obtain ⟨hne, before, rest, _, _, hstop, hrest⟩ := h
    refine .cons (fun other hother => ?_) (ih hrest)
    have hpos := Text.size_pos hne
    have hle := hrest.le_start other hother
    omega

/-- Different declarations begin in different places. -/
theorem StandIn.eq_of_start {offset : Nat} {text : Text} {ds : List Declaration}
    (h : StandIn offset text ds) {d d' : Declaration} (hd : d ∈ ds) (hd' : d' ∈ ds)
    (hstart : d.start = d'.start) : d = d' := by
  refine List.Pairwise.forall_of_forall_of_flip (R := fun d d' : Declaration =>
    d.start = d'.start → d = d') (fun _ _ _ => rfl) ?_ ?_ hd hd' hstart
  · exact h.pairwise.imp fun hlt hstart => absurd hstart (Nat.ne_of_lt hlt)
  · exact h.pairwise.imp fun hlt hstart => absurd hstart (Nat.ne_of_gt hlt)

/-- The source of a declaration is that of its tokens from the first one on. -/
theorem Parts.source_read (p : Parts) (normalize : Bool) (index : Nat) (scope : Option Nat) :
    (p.read normalize index scope).source = match p.async with
      | some t => t.text ++ Token.sourceOf p.unit
      | none => Token.sourceOf p.alone := by
  unfold Declaration.source
  cases hasync : p.async with
  | some t => simp [read, first, hasync, unit, block]
  | none => simp [read, first, hasync, alone, block]

/-- A declaration holds at least the word `function`. -/
theorem Parts.Found.source_ne_nil {p : Parts} (h : p.Found) (normalize : Bool) (index : Nat)
    (scope : Option Nat) : (p.read normalize index scope).source ≠ [] := by
  obtain ⟨body, htext⟩ := exists_text_of_function h.function
  rw [Parts.source_read]
  cases p.async <;> simp [Parts.unit, Parts.alone, htext]

/-- **Spans.**  What extraction walks over holds the declarations one behind the other.  A token
that may turn out to be the `async` of the next declaration still stands in `front`. -/
theorem standIn_of_walks {low : Nat} {previous beforePrevious : Option Token}
    {opened left : List Token} {items : List Item}
    (hwalks : Walks low previous beforePrevious opened items left) {offset : Nat} {front : Text}
    (hplaced : Placed (offset + front.size) (tokensOf items))
    (hfront : ∀ t ∈ previous, t.identIs "async" → front = t.text ∧ t.start = offset)
    (normalize : Bool) (index : Nat) (behind : Text) :
    StandIn offset (front ++ (Token.sourceOf (tokensOf items) ++ behind))
      (declarationsOf normalize index opened items) := by
  induction items generalizing previous beforePrevious opened offset front index with
  | nil => trivial
  | cons item items ih =>
    rw [tokensOf_cons, placed_append_iff] at hplaced
    obtain ⟨hitem, hrest⟩ := hplaced
    cases item with
    | token t =>
      obtain ⟨_, _, hwalks⟩ := hwalks
      have hstart : t.start = offset + (front ++ t.gap).size := by
        rw [Text.size_append, ← Nat.add_assoc]
        exact hitem.1
      have hnext : Placed (t.start + t.text.size) (tokensOf items) := by
        convert hrest using 1
        simp [Item.tokens, hstart]
        omega
      have hmore := ih hwalks hnext (by rintro _ ⟨⟩ _; exact ⟨rfl, rfl⟩) index
      rw [hstart] at hmore
      convert hmore.prepend using 1
      · simp [Item.tokens]
      · rfl
    | unit p =>
      obtain ⟨⟨afterDefault, hwell, _, hlead⟩, hwalks⟩ := hwalks
      obtain ⟨hkeyword, hclose⟩ := Parts.stop_eq hitem
      have hbrace := hwell.braceClose
      have hsource := p.source_read normalize index (scopeOf opened)
      have hne := (Parts.found_of_lead hwell hlead).source_ne_nil normalize index (scopeOf opened)
      have hmore := @ih _ _ opened hwalks p.braceClose.stop [] (by
          convert hrest using 1
          rw [hclose, hkeyword, Item.tokens, Parts.sourceOf_unit, Text.size_append, Text.size_nil]
          omega)
        (by rintro _ ⟨⟩ hword; rw [identIs_of_punctIs hbrace] at hword; cases hword) (index + 1)
      rw [List.nil_append] at hmore
      cases hasync : p.async with
      | none =>
        rw [hasync] at hsource
        refine ⟨hne, front ++ p.keyword.gap, _, ?_, ?_, ?_, hmore⟩
        · rw [hsource, tokensOf_cons, Item.tokens, sourceOf_append, Parts.sourceOf_unit]
          simp only [List.append_assoc]
        · simp only [Parts.read, Parts.first, hasync, Option.getD_none, hkeyword, Text.size_append]
          omega
        · rw [hsource]
          simp only [Parts.read, Parts.first, hasync, Option.getD_none, hclose]
      | some t =>
        rw [hasync] at hsource
        have hprevious := Parts.asyncOf_of_lead hlead
        rw [hasync, asyncOf, Option.filter_eq_some_iff, Bool.and_eq_true] at hprevious
        obtain ⟨rfl, hstart⟩ := hfront t hprevious.1 hprevious.2.1
        refine ⟨hne, [], _, ?_, ?_, ?_, hmore⟩
        · rw [hsource, tokensOf_cons, Item.tokens, sourceOf_append]
          simp only [List.append_assoc, List.nil_append]
        · simp only [Parts.read, Parts.first, hasync, Option.getD_some, hstart, Text.size_nil,
            Nat.add_zero]
        · rw [hsource, Parts.sourceOf_unit]
          simp only [Parts.read, Parts.first, hasync, Option.getD_some, hclose, hkeyword, hstart,
            Text.size_append]
          omega

/-- Declarations that extraction finds among the tokens of a text stand in the text. -/
theorem standIn_of_tokenize {source : Text} {low : Nat} {items : List Item} {left : List Token}
    (hts : tokenize source = .ok (tokensOf items ++ left))
    (hwalks : Walks low none none [] items left) (normalize : Bool) :
    StandIn 0 source (declarationsOf normalize 0 [] items) := by
  obtain ⟨closing, hsource⟩ := exists_closing_of_tokenize hts
  have hplaced := (placed_append_iff.mp (placed_of_tokenize hts)).1
  have hstand := @standIn_of_walks _ _ _ _ _ _ hwalks 0 [] hplaced (by simp) normalize 0
    (Token.sourceOf left ++ closing)
  rw [List.nil_append] at hstand
  rw [hsource, sourceOf_append, List.append_assoc]
  exact hstand

/-- **Declarations of a text** stand in it one behind the other, in a region as well.  Each one is
followed by a text in which the further ones stand. -/
theorem standIn_of_declarations {source : Text} {options : Options} {ts : List Token}
    {ds : List Declaration} (hts : tokenize source = .ok ts)
    (hds : declarations source options = .ok ds) : StandIn 0 source ds := by
  obtain ⟨low, items, left, rfl, hwalks, rfl⟩ := exists_items_of_declarations hts hds
  exact standIn_of_tokenize hts hwalks _

/-! ### Pieces -/

/-- A part of a text up to a declaration that is replaced. -/
structure Piece where
  /-- What is kept in front of the declaration. -/
  kept : Text
  declaration : Declaration
  /-- What replaces the declaration. -/
  new : Text

namespace Piece

/-- The piece as it was. -/
def old (p : Piece) : Text := p.kept ++ p.declaration.source

/-- The piece in which the declaration is replaced. -/
def replaced (p : Piece) : Text := p.kept ++ p.new

/-- The edit that replaces the declaration. -/
def edit (p : Piece) : Edit := ⟨p.declaration.start, p.declaration.stop, p.new⟩

/-- The piece as one chunk that is kept and one that is replaced. -/
def chunks (p : Piece) : List Chunk := [⟨p.kept, none⟩, ⟨p.declaration.source, some p.new⟩]

end Piece

/-- The declarations are where the pieces of a text end, the first byte of which has an offset. -/
def PiecesIn : (offset : Nat) → List Piece → Prop
  | _, [] => True
  | offset, p :: ps =>
    p.declaration.start = offset + p.kept.size ∧
      p.declaration.stop = p.declaration.start + p.declaration.source.size ∧
      PiecesIn p.declaration.stop ps

/-- What is kept of a text that falls into pieces, and ends with `last`. -/
def keptTexts (pieces : List Piece) (last : Text) : List Text := pieces.map Piece.kept ++ [last]

/-- The text falls into pieces that end with the declarations that have a `new` text, and every
other declaration stands in a part that is kept. -/
structure FallsInto (text : Text) (ds : List Declaration) (new : Declaration → Option Text)
    (low : Nat) (pieces : List Piece) (last : Text) : Prop where
  text_eq : text = pieces.flatMap Piece.old ++ last
  placed : PiecesIn low pieces
  declarations_eq : pieces.map Piece.declaration = ds.filter fun d => (new d).isSome
  new_eq : ∀ p ∈ pieces, new p.declaration = some p.new
  others : ∀ d ∈ ds, new d = none → ∃ kept ∈ keptTexts pieces last, d.source <:+: kept

/-- **Pieces.**  Wherever declarations stand, the text falls into pieces.  The text `front` is what
has to be kept in front of the declarations still to come. -/
theorem exists_pieces {ds : List Declaration} {low : Nat} {front text : Text}
    (h : StandIn (low + front.size) text ds) (new : Declaration → Option Text) :
    ∃ pieces last, FallsInto (front ++ text) ds new low pieces last ∧
      ∃ more rest, keptTexts pieces last = (front ++ more) :: rest := by
  induction ds generalizing low front text with
  | nil => exact ⟨[], front ++ text, ⟨rfl, trivial, rfl, by simp, by simp⟩, text, [], rfl⟩
  | cons d ds ih =>
    obtain ⟨_, before, rest, rfl, hstart, hstop, hrest⟩ := h
    cases hnew : new d with
    | none =>
      -- The declaration is kept in front of what comes behind it.
      have hlow : d.stop = low + (front ++ (before ++ d.source)).size := by
        simp only [hstop, hstart, Text.size_append]
        omega
      rw [hlow] at hrest
      obtain ⟨pieces, last, hfalls, more, others, hkept⟩ := ih hrest
      refine ⟨pieces, last, ⟨?_, hfalls.placed, ?_, hfalls.new_eq, ?_⟩,
        before ++ (d.source ++ more), others, ?_⟩
      · rw [← hfalls.text_eq]
        simp only [List.append_assoc]
      · rw [hfalls.declarations_eq, List.filter_cons_of_neg (by simp [hnew])]
      · intro d' hd' hnone
        rcases List.mem_cons.mp hd' with rfl | hd'
        · refine ⟨_, by rw [hkept]; exact List.mem_cons_self, front ++ before, more, ?_⟩
          simp only [List.append_assoc]
        · exact hfalls.others d' hd' hnone
      · rw [hkept]
        simp only [List.append_assoc]
    | some text =>
      obtain ⟨pieces, last, hfalls, _⟩ := @ih d.stop [] rest (by simpa using hrest)
      refine ⟨⟨front ++ before, d, text⟩ :: pieces, last,
        ⟨?_, ⟨?_, hstop, hfalls.placed⟩, ?_, ?_, ?_⟩, before, keptTexts pieces last, rfl⟩
      · have htext := hfalls.text_eq
        rw [List.nil_append] at htext
        rw [htext, List.flatMap_cons]
        simp only [Piece.old, List.append_assoc]
      · rw [hstart, Text.size_append, Nat.add_assoc]
      · rw [List.map_cons, hfalls.declarations_eq, List.filter_cons_of_pos (by simp [hnew])]
      · intro p hp
        rcases List.mem_cons.mp hp with rfl | hp
        · exact hnew
        · exact hfalls.new_eq p hp
      · intro d' hd' hnone
        rcases List.mem_cons.mp hd' with rfl | hd'
        · rw [hnew] at hnone
          cases hnone
        · obtain ⟨kept, hkept, hinfix⟩ := hfalls.others d' hd' hnone
          exact ⟨kept, List.mem_cons_of_mem _ hkept, hinfix⟩

/-- The edits of the chunks are those of the pieces. -/
theorem editsOf_pieces {offset : Nat} {pieces : List Piece} (h : PiecesIn offset pieces)
    (last : Text) :
    editsOf offset (pieces.flatMap Piece.chunks ++ [⟨last, none⟩]) = pieces.map Piece.edit := by
  induction pieces generalizing offset with
  | nil => rfl
  | cons p ps ih =>
    obtain ⟨hstart, hstop, hrest⟩ := h
    have hmore := ih hrest
    rw [hstop, hstart] at hmore
    simp [Piece.chunks, editsOf, hmore, Piece.edit, hstop, hstart]

/-- Carrying out the edits replaces the declarations at the ends of the pieces, and nothing
else. -/
theorem splice_pieces {pieces : List Piece} (h : PiecesIn 0 pieces) (last : Text) :
    Text.splice 0 (pieces.map Piece.edit) (pieces.flatMap Piece.old ++ last) =
      pieces.flatMap Piece.replaced ++ last := by
  have hold : oldText (pieces.flatMap Piece.chunks ++ [⟨last, none⟩]) =
      pieces.flatMap Piece.old ++ last := by
    simp only [oldText, List.flatMap_append, List.flatMap_assoc, Piece.chunks, List.flatMap_cons,
      List.flatMap_nil, List.append_nil]
    rfl
  have hreplaced : newText (pieces.flatMap Piece.chunks ++ [⟨last, none⟩]) =
      pieces.flatMap Piece.replaced ++ last := by
    simp only [newText, List.flatMap_append, List.flatMap_assoc, Piece.chunks, List.flatMap_cons,
      List.flatMap_nil, List.append_nil, Option.getD_none, Option.getD_some]
    rfl
  rw [← hold, ← hreplaced, ← editsOf_pieces h last]
  exact splice_edits _

section

variable {source text : Text} {ds : List Declaration} {new : Declaration → Option Text}
  {low : Nat} {pieces : List Piece} {last : Text}

/-- The edits of the pieces replace the declarations that have a new text. -/
theorem FallsInto.mem_edits_iff (h : FallsInto text ds new low pieces last) (e : Edit) :
    e ∈ pieces.map Piece.edit ↔
      ∃ d ∈ ds, ∃ text, new d = some text ∧ e = ⟨d.start, d.stop, text⟩ := by
  have hmem : ∀ d, d ∈ pieces.map Piece.declaration ↔ d ∈ ds ∧ (new d).isSome := by
    intro d
    rw [h.declarations_eq, List.mem_filter]
  constructor
  · intro he
    obtain ⟨p, hp, rfl⟩ := List.mem_map.mp he
    exact ⟨p.declaration, ((hmem _).mp (List.mem_map_of_mem hp)).1, p.new, h.new_eq p hp, rfl⟩
  · rintro ⟨d, hd, text, hnew, rfl⟩
    obtain ⟨p, hp, rfl⟩ := List.mem_map.mp ((hmem d).mpr ⟨hd, by rw [hnew]; rfl⟩)
    obtain rfl := Option.some_inj.mp ((h.new_eq p hp).symm.trans hnew)
    exact List.mem_map_of_mem hp

/-- The edits of the pieces ascend. -/
theorem FallsInto.ascending (h : FallsInto text ds new low pieces last)
    (hstand : StandIn 0 source ds) : Ascending (pieces.map Piece.edit) := by
  have hstarts : (pieces.map Piece.declaration).Pairwise fun d d' => d.start < d'.start := by
    rw [h.declarations_eq]
    exact hstand.pairwise.filter _
  unfold Ascending
  rw [List.pairwise_map] at hstarts ⊢
  exact hstarts

/-- **Splicing.**  Edits that replace the declarations that have a new text replace the ends of
the pieces, and nothing else. -/
theorem FallsInto.splice (h : FallsInto source ds new 0 pieces last) (hstand : StandIn 0 source ds)
    {edits : List Edit} (hascending : Ascending edits)
    (hedits : ∀ e, e ∈ edits ↔ ∃ d ∈ ds, ∃ text, new d = some text ∧ e = ⟨d.start, d.stop, text⟩) :
    Text.splice 0 edits source = pieces.flatMap Piece.replaced ++ last := by
  have hsame : edits = pieces.map Piece.edit :=
    eq_of_ascending hascending (h.ascending hstand) fun e =>
      (hedits e).trans (h.mem_edits_iff e).symm
  rw [hsame, h.text_eq]
  exact splice_pieces h.placed last

end

end Twinfold
