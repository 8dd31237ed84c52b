import Twinfold.Proofs.Declaration.BodyTokens
import Twinfold.Proofs.Similarity.Expressions

/-!
# The context of a slot

An argument can stand for a token only where the token is an expression: not behind a dot, where
it names a property, not behind the word `function`, where it names a function, and not in front
of an assignment (`InContext`).  Whether a token can be replaced is decided from its neighbours in
its own line.  But lines end wherever the source has a line end, also between a dot and the name
behind it.

* `expression_in_context_iff` — a slot stands in the context of an expression if and only if the
  neighbours that its line does not show allow it, and no literal stands behind `function`;
* `slots_behind_dots` — names of properties on lines of their own are taken for callees.

This is about lines that are lexed alone as they are lexed in the source.
-/

namespace Twinfold

/-! ### Contexts -/

/-- An expression can stand behind the token: it is no dot and not the word `function`. -/
def Token.Precedes (b : Token) : Prop :=
  b.isAnyOf [".", "?."] = false ∧ b.identIs "function" = false

/-- The token in front of it is not assigned: the token is no assignment operator, unless it
counts up or down. -/
def Token.Follows (a : Token) : Prop :=
  a.isAnyOf assignOps = true → a.isAnyOf ["++", "--"] = true

/-- What stands between these tokens stands in the context of an expression. -/
structure InContext (before after : List Token) : Prop where
  precedes : ∀ b ∈ before.getLast?, b.Precedes
  follows : ∀ a ∈ after.head?, a.Follows

instance (b : Token) : Decidable b.Precedes := inferInstanceAs (Decidable (_ ∧ _))

instance (a : Token) : Decidable a.Follows := inferInstanceAs (Decidable (_ → _))

instance (before after : List Token) : Decidable (InContext before after) :=
  decidable_of_iff ((∀ b ∈ before.getLast?, b.Precedes) ∧ ∀ a ∈ after.head?, a.Follows)
    ⟨fun h => ⟨h.1, h.2⟩, fun h => ⟨h.precedes, h.follows⟩⟩

/-- The token is a value by itself. -/
def Token.IsLiteral (t : Token) : Prop := t.kind ≠ .ident ∨ t.isAnyOf constantWords = true

/-- The context of a token is not lost with the ends of its line, which holds the tokens `here`
in front of it and `there` behind it; no literal stands behind the word `function`. -/
structure ContextSeen (front here : List Token) (t : Token) (there behind : List Token) :
    Prop where
  precedes : here = [] → ∀ b ∈ front.getLast?, b.Precedes
  literal : t.IsLiteral → ∀ b ∈ here.getLast?, b.identIs "function" = false
  follows : there = [] → ∀ a ∈ behind.head?, a.Follows

/-- The token `t` of a body is what a slot names, a span and a text in a line.  In its line it
stands between `here` and `there`, and around the line the body has `front` and `behind`. -/
structure Declaration.SlotToken (d : Declaration) (source : Text) (line : LogicalLine)
    (span : Span) (text : Text) (front here : List Token) (t : Token)
    (there behind : List Token) : Prop where
  body_eq : d.bodyTokens source = (front ++ here) ++ t :: (there ++ behind)
  line_eq : line.tokensIn source = here ++ t :: there
  start_eq : t.start = line.start + span.start
  stop_eq : t.stop = line.start + span.stop
  text_eq : t.text = text
  operand : t.IsOperand there.head?

/-! ### What the line shows -/

section

variable {f : FunctionForm} {before after : Option Token} {t : FormToken}

/-- A callee is not bound, and it does not stand behind the word `function`.  A token that is no
literal can only be replaced as a callee. -/
theorem callee_of_isReplaceable (h : f.isReplaceable before t after = true)
    (hnot : ¬t.token.IsLiteral) :
    t.token.text ∉ f.bound ∧ ∀ b, before = some b → b.identIs "function" = false := by
  obtain ⟨hkind, hconstant⟩ := not_or.mp hnot
  have hkind : t.token.kind = .ident := not_not.mp hkind
  have hconstant : t.token.isAnyOf constantWords = false := eq_false_of_ne_true hconstant
  unfold FunctionForm.isReplaceable at h
  split at h
  · cases h
  split at h <;> rename_i hkind' <;> rw [hkind] at hkind' <;> cases hkind'
  rw [hconstant, Bool.false_or] at h
  simp only [Bool.and_eq_true, Bool.not_eq_true'] at h
  obtain ⟨⟨_, hbound⟩, hfunction⟩ := h
  refine ⟨by simpa using hbound, ?_⟩
  rintro b rfl
  rw [Option.any_some] at hfunction
  rw [Token.identIs, hfunction, Bool.and_false]

/-- Whether a token of a line can be replaced depends on its neighbours in the line.  At the ends
of the line there is no neighbour, whatever stands there in the text. -/
theorem isReplaceableAt_eq {form : LineForm} {here there : List Token}
    (hlexed : form.lexed = here ++ t.token :: there)
    (ht : form.tokens[here.length]? = some t) :
    f.isReplaceableAt form here.length = f.isReplaceable here.getLast? t there.head? := by
  rw [FunctionForm.isReplaceableAt, ht, Option.any_some, hlexed]
  have hafter : (here ++ t.token :: there)[here.length + 1]? = there.head? := by
    rw [List.getElem?_append_right (by omega), Nat.add_sub_cancel_left, List.getElem?_cons_succ,
      List.head?_eq_getElem?]
  have hbefore : (if here.length = 0 then none else (here ++ t.token :: there)[here.length - 1]?) =
      here.getLast? := by
    cases here with
    | nil => rfl
    | cons b here =>
      rw [if_neg (by simp), List.getLast?_eq_getElem?]
      exact List.getElem?_append_left (by simp)
  rw [hafter, hbefore]

end

/-- An element of a list and what is around it. -/
theorem exists_split_of_getElem? {α : Type} {l : List α} {n : Nat} {a : α} (h : l[n]? = some a) :
    ∃ before after, l = before ++ a :: after ∧ before.length = n := by
  obtain ⟨hlt, rfl⟩ := List.getElem?_eq_some_iff.mp h
  refine ⟨l.take n, l.drop (n + 1), ?_, List.length_take_of_le hlt.le⟩
  rw [List.getElem_cons_drop, List.take_append_drop]

/-- Tokens with one kind and one text are operands in the same places. -/
theorem Token.IsOperand.congr {t u : Token} {a b : Option Token} (h : t.IsOperand a)
    (hword : t.word = u.word) (hafter : a.map Token.word = b.map Token.word) : u.IsOperand b := by
  obtain ⟨hkind, htext⟩ := word_eq_iff.mp hword
  cases h with
  | number h => exact .number (hkind ▸ h)
  | string h => exact .string (hkind ▸ h)
  | template h hplain => exact .template (hkind ▸ h) (htext ▸ hplain)
  | constant h hconstant => exact .constant (hkind ▸ h) (isAnyOf_congr hword _ ▸ hconstant)
  | callee h hcalled =>
    obtain ⟨a', rfl, hparen⟩ := hcalled
    obtain ⟨b', rfl, hsame⟩ := Option.map_eq_some_iff.mp hafter.symm
    exact .callee (hkind ▸ h) ⟨b', rfl, punctIs_congr hsame "(" ▸ hparen⟩

/-- What a line shows allows an expression.  What the line of the slot has ruled out is ruled out;
what stands in other lines is left to be asked. -/
theorem inContext_iff {front here there behind : List Token} {t : Token}
    (hprecedes : ∀ b ∈ here.getLast?, b.isAnyOf [".", "?."] = false)
    (hfunction : ¬t.IsLiteral → ∀ b ∈ here.getLast?, b.identIs "function" = false)
    (hfollows : ∀ a ∈ there.head?, a.isAnyOf assignOps = false) :
    InContext (front ++ here) (there ++ behind) ↔ ContextSeen front here t there behind := by
  have hlast : ∀ b ∈ here.getLast?, (front ++ here).getLast? = some b := by
    intro b hb
    rw [List.getLast?_append, hb, Option.some_or]
  have hfirst : ∀ a ∈ there.head?, (there ++ behind).head? = some a := by
    intro a ha
    rw [List.head?_append, ha, Option.some_or]
  constructor
  · intro h
    refine ⟨?_, fun _ b hb => (h.precedes b (hlast b hb)).2, ?_⟩
    · rintro rfl b hb
      exact h.precedes b (by simpa using hb)
    · rintro rfl a ha
      exact h.follows a ha
  · intro h
    refine ⟨fun b hb => ?_, fun a ha => ?_⟩
    · rw [List.getLast?_append] at hb
      rcases hhere : here.getLast? with _ | b'
      · rw [hhere] at hb
        exact h.precedes (List.getLast?_eq_none_iff.mp hhere) b hb
      · rw [hhere, Option.some_or] at hb
        cases hb
        refine ⟨hprecedes b hhere, ?_⟩
        by_cases hliteral : t.IsLiteral
        · exact h.literal hliteral b hhere
        · exact hfunction hliteral b hhere
    · rw [List.head?_append] at ha
      rcases hthere : there.head? with _ | a'
      · rw [hthere] at ha
        exact h.follows (List.head?_eq_none_iff.mp hthere) a ha
      · rw [hthere, Option.some_or] at ha
        cases ha
        intro hassigns
        rw [hfollows a hthere] at hassigns
        cases hassigns

/-- Lines with the same words end with the same word. -/
theorem exists_getLast?_of_map_word {ts us : List Token}
    (h : ts.map Token.word = us.map Token.word) {u : Token} (hu : u ∈ us.getLast?) :
    ∃ t ∈ ts.getLast?, t.word = u.word := by
  have hmap := congrArg List.getLast? h
  rw [List.getLast?_map, List.getLast?_map, hu] at hmap
  exact Option.map_eq_some_iff.mp hmap

/-- Lines with the same words begin with the same word. -/
theorem exists_head?_of_map_word {ts us : List Token}
    (h : ts.map Token.word = us.map Token.word) {u : Token} (hu : u ∈ us.head?) :
    ∃ t ∈ ts.head?, t.word = u.word := by
  have hmap := congrArg List.head? h
  rw [List.head?_map, List.head?_map, hu] at hmap
  exact Option.map_eq_some_iff.mp hmap

/-- **The context of a slot** is what its line shows of it, and what the line does not show.  The
line is lexed as in the source, so its tokens are neighbours there, and the others of the body
stand in front of them and behind them. -/
theorem exists_slotToken {source : Text} {options : Options} {rules : LineRules} {d : Declaration}
    (hd : d ∈ (extract source options).declarations) {i p : Nat} {line : LogicalLine}
    {ts : List Token} {t : FormToken} (hslot : d.HasSlot rules i p line ts t)
    (halike : line.LexedAlike source) :
    ∃ front here u there behind,
      d.SlotToken source line t.span t.token.text front here u there behind ∧
        (InContext (front ++ here) (there ++ behind) ↔ ContextSeen front here u there behind) := by
  obtain ⟨hline, hts, htoken, ht, h⟩ := hslot
  have hwords := halike.map_word hts
  obtain ⟨u, hu, hword, hstart, hstop⟩ := halike.exists_token hts htoken
  obtain ⟨before, after, rfl, rfl⟩ := exists_split_of_getElem? htoken
  obtain ⟨here, there, hsplit, hlength⟩ := exists_split_of_getElem? hu
  -- The neighbours in the line have the kinds and the texts of the neighbours in the source.
  rw [hsplit, List.map_append, List.map_append, List.map_cons, List.map_cons] at hwords
  obtain ⟨hbefore, hwords⟩ := List.append_inj hwords (by simp [hlength])
  have hafter := List.tail_eq_of_cons_eq hwords
  have hlast : ∀ b ∈ here.getLast?, ∃ b' ∈ before.getLast?, b'.word = b.word := fun b hb =>
    exists_getLast?_of_map_word hbefore hb
  have hfirst : ∀ a ∈ there.head?, ∃ a' ∈ after.head?, a'.word = a.word := fun a ha =>
    exists_head?_of_map_word hafter ha
  rw [isReplaceableAt_eq (LineForm.lexed_of_ok hts) ht] at h
  obtain ⟨hprecedes, hfollows⟩ := neighbours_of_isReplaceable h
  have hoperand : t.token.IsOperand after.head? := by
    refine isOperand_of_isReplaceable h fun a ha => punctIs_of_text_eq hts ?_
    exact List.mem_append_right _ (List.mem_cons_of_mem _ (List.mem_of_mem_head? ha))
  have hbody := exists_bodyTokens_around hd hline
  generalize (d.lines.take i).flatMap _ = front at hbody
  generalize (d.lines.drop (i + 1)).flatMap _ = behind at hbody
  refine ⟨front, here, u, there, behind, ⟨?_, hsplit, hstart, hstop, (word_eq_iff.mp hword).2,
    hoperand.congr hword.symm ?_⟩, inContext_iff ?_ ?_ ?_⟩
  · rw [hbody, hsplit]
    simp only [List.append_assoc, List.cons_append]
  · rw [← List.head?_map, ← List.head?_map, hafter]
  · intro b hb
    obtain ⟨b', hb', hsame⟩ := hlast b hb
    have hnot := hprecedes b' hb'
    rw [isAnyOf_congr hsame] at hnot
    simp only [Token.isAnyOf, List.any_cons, Bool.or_eq_false_iff] at hnot ⊢
    exact ⟨hnot.1, hnot.2.1, rfl⟩
  · intro hliteral b hb
    obtain ⟨b', hb', hsame⟩ := hlast b hb
    rw [← identIs_congr hsame]
    refine (callee_of_isReplaceable h fun hisLiteral => hliteral ?_).2 b' hb'
    obtain ⟨hkind, _⟩ := word_eq_iff.mp hword
    rw [Token.IsLiteral, hkind, isAnyOf_congr hword]
    exact hisLiteral
  · intro a ha
    obtain ⟨a', ha', hsame⟩ := hfirst a ha
    rw [← isAnyOf_congr hsame]
    exact hfollows a' ha'

/-! ### Slots of two functions -/

/-- **Contexts end with lines.**  When two functions of a source differ in one expression and the
lines it is in are lexed as in the source, the expression is a token of either body.  It stands in
the context of an expression if and only if it still does so with the ends of its line: when it is
the first token of its line, the token before the line is no dot and not the word `function`; when
it is the last one, the token behind the line does not assign; and it is no literal directly behind
`function`. -/
theorem expression_in_context_iff {source : Text} {options : Options} {rules : LineRules}
    {left right : Declaration} (hleft : left ∈ (extract source options).declarations)
    (hright : right ∈ (extract source options).declarations) {i : Nat} {pair : ExprPair}
    (h : left.compare rules right = .nearDuplicate (.substituted i) (.expression pair)) :
    ∃ l r, left.lines[i]? = some l ∧ right.lines[i]? = some r ∧
      (l.LexedAlike source → ∃ front here t there behind,
        left.SlotToken source l pair.left pair.leftText front here t there behind ∧
          (InContext (front ++ here) (there ++ behind) ↔
            ContextSeen front here t there behind)) ∧
      (r.LexedAlike source → ∃ front here t there behind,
        right.SlotToken source r pair.right pair.rightText front here t there behind ∧
          (InContext (front ++ here) (there ++ behind) ↔
            ContextSeen front here t there behind)) := by
  obtain ⟨p, l, ts, t, r, us, u, hslot, hslot', rfl, -⟩ := exists_slots_of_compare h
  exact ⟨l, r, hslot.line_eq, hslot'.line_eq, exists_slotToken hleft hslot,
    exists_slotToken hright hslot'⟩

/-- Two functions that return what different functions give for their parameters. -/
def callingTwo : Text :=
  "function f(a)\x7breturn p(a)\x7dfunction g(a)\x7breturn q(a)\x7d".toList

/-- Two functions that call different names with the same arguments, and what stands around the
callees. -/
theorem expression_in_context_of_callees :
    ∃ f ∈ (extract callingTwo {}).declarations, ∃ g ∈ (extract callingTwo {}).declarations,
      f.compare {} g = .nearDuplicate (.substituted 0)
        (.expression ⟨⟨7, 8⟩, ['p'], ⟨7, 8⟩, ['q']⟩) ∧
      ∃ l r, f.lines[0]? = some l ∧ g.lines[0]? = some r ∧
        (∃ front here t there behind,
          f.SlotToken callingTwo l ⟨7, 8⟩ ['p'] front here t there behind ∧
            (InContext (front ++ here) (there ++ behind) ↔
              ContextSeen front here t there behind)) ∧
        ∃ front here t there behind,
          g.SlotToken callingTwo r ⟨7, 8⟩ ['q'] front here t there behind ∧
            (InContext (front ++ here) (there ++ behind) ↔
              ContextSeen front here t there behind) := by
  have hcompare :
      ∃ f ∈ (extract callingTwo {}).declarations, ∃ g ∈ (extract callingTwo {}).declarations,
      f.compare {} g = .nearDuplicate (.substituted 0)
        (.expression ⟨⟨7, 8⟩, ['p'], ⟨7, 8⟩, ['q']⟩) ∧
      ∀ d ∈ [f, g], ∀ line ∈ d.lines,
        ¬line.BeginsDividing callingTwo ∧ ¬line.BeginsHashBang := by
    decide +kernel
  obtain ⟨f, hf, g, hg, hverdict, hlines⟩ := hcompare
  obtain ⟨l, r, hl, hr, hleft, hright⟩ := expression_in_context_iff hf hg hverdict
  have halike : l.LexedAlike callingTwo :=
    (lexedAlike_iff _ {} f hf l (List.mem_of_getElem? hl)).2.mpr
      (hlines f (by simp) l (List.mem_of_getElem? hl))
  have halike' : r.LexedAlike callingTwo :=
    (lexedAlike_iff _ {} g hg r (List.mem_of_getElem? hr)).2.mpr
      (hlines g (by simp) r (List.mem_of_getElem? hr))
  exact ⟨f, hf, g, hg, hverdict, l, r, hl, hr, hleft halike, hright halike'⟩

/-- Two functions that call different properties of their parameters, named on the next line. -/
def callingProperties : Text :=
  ("function f(a)\x7breturn a.\nfoo(1)\x7d\n" ++
    "function g(a)\x7breturn a.\nbar(1)\x7d").toList

/-- **Properties are taken for callees.**  The names of the properties are the slot, and each of
them stands behind a dot. -/
theorem slots_behind_dots :
    ¬∀ left ∈ (extract callingProperties {}).declarations,
      ∀ right ∈ (extract callingProperties {}).declarations, ∀ (i : Nat) (pair : ExprPair),
      left.compare {} right = .nearDuplicate (.substituted i) (.expression pair) →
      ∀ l ∈ left.lines[i]?, ∀ before t after,
        left.bodyTokens callingProperties = before ++ t :: after →
        t.start = l.start + pair.left.start → InContext before after := by
  intro hall
  have hslot : ∃ f ∈ (extract callingProperties {}).declarations,
      ∃ g ∈ (extract callingProperties {}).declarations,
      f.compare {} g = .nearDuplicate (.substituted 1)
        (.expression ⟨⟨0, 3⟩, "foo".toList, ⟨0, 3⟩, "bar".toList⟩) ∧
      ∃ l ∈ f.lines[1]?, ∃ t ∈ (f.bodyTokens callingProperties)[3]?, t.start = l.start + 0 ∧
        ¬InContext ((f.bodyTokens callingProperties).take 3)
          ((f.bodyTokens callingProperties).drop 4) := by
    decide +kernel
  obtain ⟨f, hf, g, hg, hverdict, l, hl, t, ht, hstart, hnot⟩ := hslot
  refine hnot (hall f hf g hg 1 _ hverdict l hl _ t _ ?_ hstart)
  obtain ⟨hlt, rfl⟩ := List.getElem?_eq_some_iff.mp ht
  rw [List.getElem_cons_drop, List.take_append_drop]

end Twinfold
