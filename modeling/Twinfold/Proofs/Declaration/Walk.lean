import Twinfold.Proofs.Declaration.Parts

/-!
# The walk over the tokens of a text

Extraction walks over the tokens of a text.  What it passes are **items**: tokens outside of
declarations and whole declarations.  `Walks` says of a list of items that extraction passes
them in this way, and `declarationsOf` what it finds.

* `exists_items_of_run` — every run of an extractor walks over items;
* `run_of_walks` — and an extractor whose tokens are such items finds their declarations.

An `async` in front of a declaration is passed as a token before it turns out to be the first
token of the declaration.
-/

namespace Twinfold

/-- What extraction passes at once. -/
inductive Item
  | token (t : Token)
  /-- A declaration from its word `function` on. -/
  | unit (p : Parts)

/-- The tokens of an item. -/
def Item.tokens : Item → List Token
  | .token t => [t]
  | .unit p => p.unit

/-- The tokens of items. -/
def tokensOf (items : List Item) : List Token := items.flatMap Item.tokens

@[simp] theorem tokensOf_nil : tokensOf [] = [] := rfl

@[simp] theorem tokensOf_cons (item : Item) (items : List Item) :
    tokensOf (item :: items) = item.tokens ++ tokensOf items := rfl

@[simp] theorem tokensOf_append (items items' : List Item) :
    tokensOf (items ++ items') = tokensOf items ++ tokensOf items' := List.flatMap_append

/-- The tokens of items that are tokens. -/
@[simp] theorem tokensOf_map_token (ts : List Token) : tokensOf (ts.map .token) = ts := by
  induction ts with
  | nil => rfl
  | cons t ts ih => rw [List.map_cons, tokensOf_cons, ih, Item.tokens, List.singleton_append]

/-- The innermost of the open delimiters that is a brace. -/
def scopeOf (opened : List Token) : Option Nat :=
  (opened.find? fun t => t.punctIs "\x7b").map Token.start

/-- Extraction passes the items and stops in front of the tokens that are `left`.  The tokens
`previous` and `beforePrevious` are in front, and the delimiters `opened` are open there. -/
def Walks (low : Nat) :
    (previous beforePrevious : Option Token) → (opened : List Token) → List Item →
      (left : List Token) → Prop
  | _, _, opened, [], left => left = [] → opened = []
  | previous, beforePrevious, opened, .token t :: items, left =>
    (low ≤ t.start → leadAt? previous beforePrevious t (tokensOf items ++ left) = none) ∧
      Extractor.track opened t = .ok (t.openAfter opened) ∧
      Walks low (some t) previous (t.openAfter opened) items left
  | previous, beforePrevious, opened, .unit p :: items, left =>
    (∃ afterDefault, p.WellFormed afterDefault ∧ low ≤ p.keyword.start ∧
      leadAt? previous beforePrevious p.keyword
        (p.signature ++ p.block ++ (tokensOf items ++ left)) = some (p.lead afterDefault)) ∧
      Walks low (some p.braceClose) none opened items left

/-- The declarations among the items. -/
def declarationsOf (normalize : Bool) :
    (index : Nat) → (opened : List Token) → List Item → List Declaration
  | _, _, [] => []
  | index, opened, .token t :: items => declarationsOf normalize index (t.openAfter opened) items
  | index, opened, .unit p :: items =>
    p.read normalize index (scopeOf opened) :: declarationsOf normalize (index + 1) opened items

/-- Declarations are numbered in their order. -/
theorem map_index_declarationsOf (normalize : Bool) (index : Nat) (opened : List Token)
    (items : List Item) : (declarationsOf normalize index opened items).map Declaration.index =
      List.range' index (declarationsOf normalize index opened items).length := by
  induction items generalizing index opened with
  | nil => rfl
  | cons item items ih =>
    cases item with
    | token t => exact ih index _
    | unit p =>
      rw [declarationsOf, List.map_cons, ih, List.length_cons, List.range'_succ]
      rfl

/-- The number of a declaration is its position.  The numbers go up from zero without gaps. -/
theorem getElem?_declarationsOf_iff {normalize : Bool} {items : List Item} {i : Nat}
    {d : Declaration} : (declarationsOf normalize 0 [] items)[i]? = some d ↔
      d ∈ declarationsOf normalize 0 [] items ∧ d.index = i := by
  have hindex : ∀ {j : Nat} {d : Declaration},
      (declarationsOf normalize 0 [] items)[j]? = some d → d.index = j := by
    intro j d hd
    have hmap := congrArg (fun is : List Nat => is[j]?) (map_index_declarationsOf normalize 0 [] items)
    have hlt := (List.getElem?_eq_some_iff.mp hd).1
    simp only [List.getElem?_map, hd, Option.map_some, List.getElem?_range', hlt] at hmap
    simpa using hmap
  constructor
  · intro hd
    exact ⟨List.mem_of_getElem? hd, hindex hd⟩
  · rintro ⟨hmem, rfl⟩
    obtain ⟨j, hj⟩ := List.getElem?_of_mem hmem
    rw [hindex hj]
    exact hj

/-- Declarations are told by their numbers. -/
theorem eq_of_index_declarationsOf {normalize : Bool} {items : List Item} {d d' : Declaration}
    (hd : d ∈ declarationsOf normalize 0 [] items) (hd' : d' ∈ declarationsOf normalize 0 [] items)
    (h : d.index = d'.index) : d = d' := by
  have hfirst := getElem?_declarationsOf_iff.mpr ⟨hd, h⟩
  have hsecond := getElem?_declarationsOf_iff.mpr ⟨hd', rfl⟩
  exact Option.some_inj.mp (hfirst.symm.trans hsecond)

namespace Extractor

/-- Where keeping track of delimiters does not fail, it knows which ones are open. -/
theorem openAfter_of_track {opened opened' : List Token} {t : Token}
    (h : track opened t = .ok opened') : opened' = t.openAfter opened := by
  unfold track at h
  unfold Token.openAfter
  split_ifs at h ⊢
  · exact (Except.ok.inj h).symm
  · cases opened with
    | nil => cases h
    | cons o os =>
      dsimp only at h
      split at h
      · exact (Except.ok.inj h).symm
      · cases h
  · exact (Except.ok.inj h).symm

/-- The tokens that an extractor holds do not matter when it seeks among others. -/
theorem seek_tokens (x : Extractor) (held ts : List Token) :
    ({ x with tokens := held } : Extractor).seek ts = x.seek ts := by
  induction ts generalizing x with
  | nil => rfl
  | cons t ts ih =>
    simp only [seek]
    rcases (if x.low ≤ t.start then leadAt? x.previous x.beforePrevious t ts else none) with
      _ | lead
    · rcases track x.opened t with e | opened
      · rfl
      · have hmore := ih { x with opened, previous := some t, beforePrevious := x.previous }
        dsimp only at hmore ⊢
        rw [hmore]
    · rfl

/-- What leads to a declaration can be told apart by its `async`. -/
theorem exists_async_of_leadAt? {previous beforePrevious : Option Token} {t : Token}
    {rest : List Token} {lead : Lead} (h : leadAt? previous beforePrevious t rest = some lead) :
    ∃ (async : Option Token) (afterDefault : Bool),
      lead = ⟨async.getD t, t, async.isSome, afterDefault⟩ := by
  unfold leadAt? at h
  dsimp only at h
  rcases hasync : previous.filter fun p =>
      (previous.any fun p => p.identIs "async") && beginsStatement beforePrevious p with
    _ | p <;> rw [hasync] at h <;> dsimp only at h <;> split at h
  · exact ⟨none, _, (Option.some_inj.mp h).symm⟩
  · cases h
  · exact ⟨some p, _, (Option.some_inj.mp h).symm⟩
  · cases h

/-- What an extractor passes on its way to a declaration.  The induction is on the tokens, and each
one that is passed over is an item of the walk. -/
theorem walks_of_seek_eq_lead {x y : Extractor} {ts : List Token} {lead : Lead}
    (h : x.seek ts = .lead lead y) :
    ∃ skipped keyword, ts = skipped ++ keyword :: y.tokens ∧
      leadAt? y.previous y.beforePrevious keyword y.tokens = some lead ∧
      (x.low ≤ keyword.start ∧ keyword.start < x.high) ∧
      (y.normalize = x.normalize ∧ y.failure = x.failure ∧ y.index = x.index ∧ y.low = x.low ∧
        y.high = x.high) ∧
      ∀ items left, tokensOf items ++ left = keyword :: y.tokens →
        (Walks x.low y.previous y.beforePrevious y.opened items left →
          Walks x.low x.previous x.beforePrevious x.opened (skipped.map .token ++ items) left) ∧
        ∀ normalize index, declarationsOf normalize index x.opened (skipped.map .token ++ items) =
          declarationsOf normalize index y.opened items := by
  induction ts generalizing x with
  | nil =>
    simp only [seek, atEnd] at h
    split at h <;> cases h
  | cons t ts ih =>
    simp only [seek] at h
    split at h
    · cases h
    rename_i hhigh
    split at h
    · rename_i lead' hlead
      cases h
      split at hlead
      · rename_i hlow
        exact ⟨[], t, rfl, hlead, ⟨hlow, Nat.lt_of_not_le hhigh⟩, ⟨rfl, rfl, rfl, rfl, rfl⟩, fun items left _ =>
          ⟨id, fun _ _ => rfl⟩⟩
      · cases hlead
    · rename_i hlead
      split at h
      · cases h
      · rename_i opened htrack
        obtain ⟨skipped, keyword, rfl, hfound, hwithin, hframe, hwalks⟩ := ih h
        refine ⟨t :: skipped, keyword, rfl, hfound, hwithin, hframe, ?_⟩
        intro items left hitems
        obtain ⟨hwalk, hdeclarations⟩ := hwalks items left hitems
        obtain rfl := openAfter_of_track htrack
        refine ⟨fun h => ⟨fun hlow => ?_, htrack, hwalk h⟩, hdeclarations⟩
        rw [if_pos hlow] at hlead
        change leadAt? _ _ t (tokensOf (skipped.map .token ++ items) ++ left) = none
        rw [tokensOf_append, tokensOf_map_token, List.append_assoc, hitems]
        exact hlead

/-- What an extractor passes if there is no further declaration.  It stops at the end of the tokens
or at the end of the region. -/
theorem walks_of_seek_eq_finished {x : Extractor} {ts : List Token} (h : x.seek ts = .finished) :
    ∃ skipped left, ts = skipped ++ left ∧ (∀ t ∈ left.head?, x.high ≤ t.start) ∧
      Walks x.low x.previous x.beforePrevious x.opened (skipped.map .token) left ∧
      ∀ normalize index, declarationsOf normalize index x.opened (skipped.map .token) = [] := by
  induction ts generalizing x with
  | nil =>
    refine ⟨[], [], rfl, by simp, ?_, fun _ _ => rfl⟩
    intro _
    simp only [seek, atEnd] at h
    split at h
    · cases h
    · cases h
    · assumption
  | cons t ts ih =>
    simp only [seek] at h
    split at h
    · rename_i hhigh
      exact ⟨[], t :: ts, rfl, by simpa using hhigh, by simp [Walks], fun _ _ => rfl⟩
    split at h
    · cases h
    · rename_i hlead
      split at h
      · cases h
      · rename_i opened htrack
        obtain ⟨skipped, left, rfl, hhigh, hwalks, hnone⟩ := ih h
        obtain rfl := openAfter_of_track htrack
        refine ⟨t :: skipped, left, rfl, hhigh, ⟨fun hlow => ?_, htrack, hwalks⟩, hnone⟩
        rw [if_pos hlow] at hlead
        rw [tokensOf_map_token]
        exact hlead

/-- If the next step finds a declaration, the run begins with it. -/
theorem run_of_declaration {x after : Extractor} {d : Declaration}
    (h : x.next = .declaration d after) :
    x.run = ⟨d :: after.run.declarations, after.run.failure⟩ := by
  rw [run]
  split <;> rename_i hnext <;> rw [h] at hnext <;> cases hnext
  rfl

theorem run_of_finished {x : Extractor} (h : x.next = .finished) : x.run = ⟨[], none⟩ := by
  rw [run]
  split <;> rename_i hnext <;> rw [h] at hnext <;> cases hnext

/-- If the next step fails, the run ends with the failure. -/
theorem run_of_failed {x : Extractor} {e : ParseError} (h : x.next = .failed e) :
    x.run = ⟨[], some e⟩ := by
  rw [run]
  split <;> rename_i hnext <;> rw [h] at hnext <;> cases hnext
  rfl

/-- **Runs are walks.**  A run that does not fail walks over items, up to the end of the tokens
or of what is looked at. -/
theorem exists_items_of_run (x : Extractor) (h : x.run.failure = none) :
    ∃ items left, x.tokens = tokensOf items ++ left ∧ (∀ t ∈ left.head?, x.high ≤ t.start) ∧
      Walks x.low x.previous x.beforePrevious x.opened items left ∧
      x.run.declarations = declarationsOf x.normalize x.index x.opened items := by
  induction x using run.induct with
  | case1 x d after hnext ih =>
    rw [run_of_declaration hnext] at h ⊢
    obtain ⟨items, left, htokens, hhigh, hwalks, hdeclarations⟩ := ih h
    unfold next at hnext
    split at hnext
    · cases hnext
    · cases hnext
    · rename_i lead y hseek
      split at hnext
      · cases hnext
      · rename_i r hread
        cases hnext
        obtain ⟨skipped, keyword, hsplit, hlead, ⟨hlow, -⟩,
          ⟨hnormalize, _, hindex, hlow', hhigh'⟩, hmore⟩ := walks_of_seek_eq_lead hseek
        obtain ⟨async, afterDefault, rfl⟩ := exists_async_of_leadAt? hlead
        obtain ⟨p, rfl, rfl, hwell, hparts, hdeclaration, hclose⟩ :=
          exists_parts_of_readDeclaration hread
        dsimp only at htokens hhigh hwalks hdeclarations
        have hitems : tokensOf (.unit p :: items) ++ left = p.keyword :: y.tokens := by
          rw [hparts, htokens]
          simp [Item.tokens, Parts.unit]
        obtain ⟨hwalk, hfound⟩ := hmore _ _ hitems
        refine ⟨skipped.map .token ++ .unit p :: items, left, ?_, hhigh' ▸ hhigh, hwalk ⟨?_, ?_⟩, ?_⟩
        · rw [tokensOf_append, List.append_assoc, hitems, tokensOf_map_token]
          exact hsplit
        · refine ⟨afterDefault, hwell, hlow, ?_⟩
          rw [← htokens, ← hparts]
          exact hlead
        · rw [hclose, hlow'] at hwalks
          exact hwalks
        · rw [hfound, declarationsOf, hdeclaration, hdeclarations, hnormalize, hindex]
          rfl
  | case2 x e hnext =>
    rw [run_of_failed hnext] at h
    cases h
  | case3 x hnext =>
    rw [run_of_finished hnext]
    unfold next at hnext
    split at hnext
    · rename_i hseek
      obtain ⟨skipped, left, hsplit, hhigh, hwalks, hnone⟩ := walks_of_seek_eq_finished hseek
      exact ⟨_, left, by rw [tokensOf_map_token, hsplit], hhigh, hwalks, (hnone _ _).symm⟩
    · cases hnext
    · split at hnext <;> cases hnext

/-- The extractor behind a token outside of declarations. -/
def passing (x : Extractor) (t : Token) (ts : List Token) : Extractor :=
  { x with
    tokens := ts
    previous := some t
    beforePrevious := x.previous
    opened := t.openAfter x.opened }

/-- The extractor behind a declaration. -/
def behind (x : Extractor) (p : Parts) (ts : List Token) : Extractor :=
  { x with
    tokens := ts
    previous := some p.braceClose
    beforePrevious := none
    index := x.index + 1 }

/-- The step over a token outside of declarations.  It changes what the extractor remembers of the
tokens before and of the open delimiters. -/
theorem run_passing {x : Extractor} {t : Token} {ts : List Token} (htokens : x.tokens = t :: ts)
    (hhigh : t.start < x.high)
    (hlead : x.low ≤ t.start → leadAt? x.previous x.beforePrevious t ts = none)
    (htrack : track x.opened t = .ok (t.openAfter x.opened)) :
    x.run = (x.passing t ts).run := by
  have hnone : (if x.low ≤ t.start then leadAt? x.previous x.beforePrevious t ts else none) =
      none := by
    split
    · exact hlead ‹_›
    · rfl
  have hseek : x.seek x.tokens = (x.passing t ts).seek ts := by
    rw [htokens, seek, if_neg (Nat.not_le_of_lt hhigh), hnone, htrack]
    exact (seek_tokens _ ts ts).symm
  have hnext : x.next = (x.passing t ts).next := by
    unfold next
    rw [hseek]
    rfl
  rw [run.eq_def x, run.eq_def (x.passing t ts), hnext]

/-- The step over a declaration. -/
theorem next_behind {x : Extractor} {p : Parts} {afterDefault : Bool} {ts : List Token}
    (htokens : x.tokens = p.keyword :: (p.signature ++ p.block ++ ts))
    (hhigh : p.keyword.start < x.high) (hlow : x.low ≤ p.keyword.start)
    (hwell : p.WellFormed afterDefault)
    (hlead : leadAt? x.previous x.beforePrevious p.keyword (p.signature ++ p.block ++ ts) =
      some (p.lead afterDefault)) :
    x.next = .declaration (p.read x.normalize x.index x.scope) (x.behind p ts) := by
  have hseek : x.seek x.tokens = .lead (p.lead afterDefault)
      { x with tokens := p.signature ++ p.block ++ ts } := by
    rw [htokens, seek, if_neg (Nat.not_le_of_lt hhigh), if_pos hlow, hlead]
  unfold next
  rw [hseek]
  dsimp only
  rw [hwell.readDeclaration]
  rfl

/-- **Walks are runs.**  An extractor whose tokens are items that are passed in this way finds
their declarations. -/
theorem run_of_walks {x : Extractor} {items : List Item} (htokens : x.tokens = tokensOf items)
    (hwalks : Walks x.low x.previous x.beforePrevious x.opened items [])
    (hhigh : ∀ t ∈ x.tokens, t.start < x.high) (hfailure : x.failure = none) :
    x.run = ⟨declarationsOf x.normalize x.index x.opened items, none⟩ := by
  induction items generalizing x with
  | nil =>
    refine run_of_finished ?_
    have hopened : x.opened = [] := hwalks rfl
    unfold next
    rw [htokens]
    simp [seek, atEnd, hopened, hfailure]
  | cons item items ih =>
    cases item with
    | token t =>
      obtain ⟨hlead, htrack, hwalks⟩ := hwalks
      rw [List.append_nil] at hlead
      rw [htokens] at hhigh
      rw [run_passing htokens (hhigh t List.mem_cons_self) hlead htrack]
      exact ih rfl hwalks (fun u hu => hhigh u (List.mem_cons_of_mem _ hu)) hfailure
    | unit p =>
      obtain ⟨⟨afterDefault, hwell, hlow, hlead⟩, hwalks⟩ := hwalks
      rw [List.append_nil] at hlead
      have hcons : x.tokens = p.keyword :: (p.signature ++ p.block ++ tokensOf items) := htokens
      rw [hcons] at hhigh
      have hnext := next_behind hcons (hhigh _ List.mem_cons_self) hlow hwell hlead
      have hmore := ih (x := x.behind p (tokensOf items)) rfl hwalks
        (fun t ht => hhigh t (List.mem_cons_of_mem _ (List.mem_append_right _ ht))) hfailure
      rw [run_of_declaration hnext, hmore]
      rfl

end Extractor

end Twinfold
