import Twinfold.Proofs.Similarity.Context
import Twinfold.Proofs.Similarity.NestedNames
import Twinfold.Proofs.Token.Renaming

/-!
# Free callees

An adapter passes the callee that its function calls to a helper.  That needs a callee that is free
in the function: a name that only exists inside of the body means nothing to the adapter.  What
binds a name is said here of the tokens of the text (`Declaration.Binds`): a parameter, a function
or class, a list of declarations with its patterns, and the parameters of nested functions, arrows,
`catch` clauses and methods.  The search for bindings reads the body line by line and knows most of
them (`Declaration.Reaches`).

* `callee_free_iff` — a callee that is a slot is free if no binding binds it that the search does
  not reach;
* `bound_callee_is_slot` — a name on the second line of a list of declarations is not reached, and
  as a callee it becomes a slot.
-/

namespace Twinfold

/-! ### Lists that introduce names -/

/-- What stands in front of a word of a pattern, from the delimiter that opens it; nothing in front
of a bare name. -/
def InTarget (front : List Token) : Prop :=
  front = [] ∨ ∃ opener inside, front = opener :: inside ∧ opener.OpensPattern ∧
    (levelAfter 0 inside).isSome

/-- What stands in front of a parameter, from the beginning of its list: other parameters, the mark
of a rest, and what is in front of it in its pattern. -/
def InParams (front : List Token) : Prop :=
  ∃ between rest target, front = between ++ (rest ++ target) ∧ Entries between ∧
    (rest = [] ∨ ∃ dots, rest = [dots] ∧ dots.punctIs "..." = true) ∧ InTarget target

/-- Whether a token begins an expression and cannot go on with one. -/
def Token.beginsAnew (t : Token) : Bool :=
  match t.kind with
  | .ident => !t.isAnyOf ["in", "instanceof"]
  | .number | .string => true
  | .template | .regex => false
  | .punct => t.isAnyOf ["!", "~", "++", "--"]

/-- Whether a list of declarations ends between the neighbours `t` and `u`: at a `;`, or where a
line ends behind an expression that does not go on. -/
def Token.endsList (t u : Token) : Bool :=
  t.punctIs ";" ||
    (u.gap.breaksLine && (t.endsExpression || t.punctIs "\x7d") && u.beginsAnew)

/-- Whether a list of declarations goes on through the tokens, which begin at a level. -/
def listGoesOn : (level : Nat) → List Token → Bool
  | level, t :: u :: ts =>
    (levelAfter level [t]).any fun level =>
      !(level = 0 && t.endsList u) && listGoesOn level (u :: ts)
  | _, _ => true

/-! ### Bindings -/

/-- How the tokens of a function bind a name. -/
inductive Binding
  /-- A parameter of the function, written as a text. -/
  | param (text : Text) (front : List Token) (name : Token)
  /-- A name behind `function` or `class`, with the star of a generator in between. -/
  | named (word : Token) (star : List Token) (name : Token)
  /-- A name in the list behind `var`, `let` or `const`. -/
  | declared (word : Token) (between target : List Token) (name : Token)
  /-- A parameter in the list behind `function` or `catch`; in `lead` are a star and a name. -/
  | clause (word : Token) (lead : List Token) (opener : Token) (front : List Token) (name : Token)
  /-- A parameter in front of an arrow. -/
  | arrow (name sign : Token)
  /-- A parameter in the list in front of an arrow. -/
  | arrowList (opener : Token) (front : List Token) (name : Token) (behind : List Token)
    (closer sign : Token)
  /-- A parameter in the list of a method. -/
  | method (key opener : Token) (front : List Token) (name : Token) (behind : List Token)
    (closer brace : Token)

namespace Binding

/-- The name that is bound. -/
def name : Binding → Token
  | .param _ _ name => name
  | .named _ _ name => name
  | .declared _ _ _ name => name
  | .clause _ _ _ _ name => name
  | .arrow name _ => name
  | .arrowList _ _ name _ _ _ => name
  | .method _ _ _ name _ _ _ => name

/-- The tokens of the body that bind the name. -/
def tokens : Binding → List Token
  | .param _ _ _ => []
  | .named word star name => word :: (star ++ [name])
  | .declared word between target name => word :: (between ++ (target ++ [name]))
  | .clause word lead opener front name => word :: (lead ++ opener :: (front ++ [name]))
  | .arrow name sign => [name, sign]
  | .arrowList opener front name behind closer sign =>
    opener :: (front ++ name :: (behind ++ [closer, sign]))
  | .method key opener front name behind closer brace =>
    key :: opener :: (front ++ name :: (behind ++ [closer, brace]))

end Binding

/-- The words with a parenthesis behind them that begin no method. -/
def headWords : List String :=
  ["if", "for", "await", "while", "switch", "with", "catch", "function"]

/-- The token can be the key of a method: a word, a string, a number, or the end of an expression
in brackets. -/
def Token.IsKey (t : Token) : Prop :=
  (t.kind = .ident ∧ t.isAnyOf headWords = false) ∨ t.kind = .string ∨ t.kind = .number ∨
    t.punctIs "]" = true

/-- What stands in front of the key of a method: no dot, no `new`, and not the word of a function of
that name. -/
def BeforeKey (before : List Token) : Prop :=
  (∀ t ∈ before.getLast?, t.isAnyOf [".", "?.", "new", "function"] = false) ∧
    ¬∃ word star front, before = front ++ [word, star] ∧ word.identIs "function" = true ∧
      star.punctIs "*" = true

namespace Declaration

variable (d : Declaration) (source : Text)

/-- The tokens stand in the body, and not behind a dot. -/
def Holds (ts : List Token) : Prop :=
  ∃ before after, d.bodyTokens source = before ++ (ts ++ after) ∧
    ∀ t ∈ before.getLast?, t.isAnyOf [".", "?."] = false

/-- **What binds a name** in a function. -/
inductive Binds : Binding → Prop
  | param {text : Text} {front rest : List Token} {name : Token} (hparam : text ∈ d.params)
    (htokens : tokenize text = .ok (front ++ name :: rest)) (hfront : InParams front)
    (hname : name.kind = .ident) : Binds (.param text front name)
  | named {word : Token} {star : List Token} {name : Token} (hkind : word.kind = .ident)
    (hword : word.isAnyOf ["function", "class"] = true)
    (hstar : star = [] ∨ ∃ t, star = [t] ∧ t.punctIs "*" = true) (hname : name.kind = .ident)
    (hholds : d.Holds source (Binding.named word star name).tokens) :
    Binds (.named word star name)
  | declared {word : Token} {between target : List Token} {name : Token}
    (hkind : word.kind = .ident) (hword : word.isAnyOf listWords = true)
    (hbetween : Entries between) (hgoesOn : listGoesOn 0 between = true)
    (htarget : InTarget target) (hname : name.kind = .ident)
    (hholds : d.Holds source (Binding.declared word between target name).tokens) :
    Binds (.declared word between target name)
  | clause {word : Token} {lead : List Token} {opener : Token} {front : List Token} {name : Token}
    (hkind : word.kind = .ident) (hword : word.isAnyOf ["function", "catch"] = true)
    (hlead : ∀ t ∈ lead, t.kind = .ident ∨ t.punctIs "*" = true) (hlength : lead.length ≤ 2)
    (hopener : opener.punctIs "(" = true) (hfront : InParams front) (hname : name.kind = .ident)
    (hholds : d.Holds source (Binding.clause word lead opener front name).tokens) :
    Binds (.clause word lead opener front name)
  | arrow {name sign : Token} (hname : name.kind = .ident) (hsign : sign.punctIs "=>" = true)
    (hholds : d.Holds source (Binding.arrow name sign).tokens) : Binds (.arrow name sign)
  | arrowList {opener : Token} {front : List Token} {name : Token} {behind : List Token}
    {closer sign : Token} (hopener : opener.punctIs "(" = true) (hfront : InParams front)
    (hname : name.kind = .ident) (hbalance : levelAfter 0 (front ++ name :: behind) = some 0)
    (hcloser : closer.punctIs ")" = true) (hsign : sign.punctIs "=>" = true)
    (hholds : d.Holds source (Binding.arrowList opener front name behind closer sign).tokens) :
    Binds (.arrowList opener front name behind closer sign)
  | method {key opener : Token} {front : List Token} {name : Token} {behind : List Token}
    {closer brace : Token} {before after : List Token} (hkey : key.IsKey)
    (hbefore : BeforeKey before) (hopener : opener.punctIs "(" = true) (hfront : InParams front)
    (hname : name.kind = .ident) (hbalance : levelAfter 0 (front ++ name :: behind) = some 0)
    (hcloser : closer.punctIs ")" = true) (hbrace : brace.punctIs "\x7b" = true)
    (hbody : d.bodyTokens source =
      before ++ ((Binding.method key opener front name behind closer brace).tokens ++ after)) :
    Binds (.method key opener front name behind closer brace)

/-- No binding of the function binds the name. -/
def Free (name : Text) : Prop := ∀ b, d.Binds source b → b.name.text ≠ name

/-- **Where the search for bindings looks.**  Of a parameter it takes the name at its beginning.
Declarations it reads line by line, without generators and up to the next `;` or word of a
declaration.  In parameter lists it reads on over the lines, as they are lexed alone; methods it
does not know. -/
def Reaches : Binding → Prop
  | .param text _ name => Param.name? text = some name.text
  | b@(.named _ star _) =>
    star = [] ∧ ∃ line ∈ d.lines, line.LexedAlike source ∧ b.tokens <:+: line.tokensIn source
  | b@(.declared _ between _ _) =>
    (∀ t ∈ between, ¬t.DropsList) ∧
      ∃ line ∈ d.lines, line.LexedAlike source ∧ b.tokens <:+: line.tokensIn source
  | b@(.clause ..) | b@(.arrow ..) | b@(.arrowList ..) =>
    ∀ line ∈ d.lines, (∃ t ∈ line.tokensIn source, t ∈ b.tokens) → line.LexedAlike source
  | .method .. => False

end Declaration

/-! ### What is reached is bound -/

/-- What is in front of a name does not close the list of the name. -/
theorem InTarget.isSome_levelAfter {front : List Token} (h : InTarget front) :
    (levelAfter 0 front).isSome := by
  rcases h with rfl | ⟨opener, inside, rfl, hopener, hinside⟩
  · rfl
  · obtain ⟨level, hlevel⟩ := Option.isSome_iff_exists.mp hinside
    rw [levelAfter, if_pos hopener.opens, levelAfter_shift hlevel]
    rfl

/-- In a parameter list no delimiter is closed that was not opened in it. -/
theorem InParams.isSome_levelAfter {front : List Token} (h : InParams front) :
    (levelAfter 0 front).isSome := by
  obtain ⟨between, rest, target, rfl, hbetween, hrest, htarget⟩ := h
  have hrestLevel : levelAfter 0 rest = some 0 := by
    rcases hrest with rfl | ⟨dots, rfl, hdots⟩
    · rfl
    · exact levelAfter_plain (not_delimiter_of_punctIs hdots (by decide)) 0
  rw [levelAfter_append, hbetween.levelAfter_eq, Option.bind_some, levelAfter_append, hrestLevel,
    Option.bind_some]
  exact htarget.isSome_levelAfter

section

variable {source : Text} {options : Options} {d : Declaration}

/-- The name that a parameter begins with is bound. -/
theorem mem_bound_of_param {param name : Text} (hparam : param ∈ d.params)
    (hnamed : Param.name? param = some name) (hne : name ≠ []) (rules : LineRules) :
    name ∈ (FunctionForm.of rules d).bound := by
  refine List.mem_append_left _ (List.mem_append_left _ (List.mem_filter.mpr ⟨?_, by simpa⟩))
  exact List.mem_map.mpr ⟨param, hparam, by rw [hnamed, Option.getD_some]⟩

/-- A name that a line declares is bound. -/
theorem mem_bound_of_line {line : LogicalLine} (hline : line ∈ d.lines)
    (halike : line.LexedAlike source) {name : Text}
    (h : name ∈ declaredIn (line.tokensIn source)) (rules : LineRules) :
    name ∈ (FunctionForm.of rules d).bound := by
  obtain ⟨ts, hts⟩ := halike.exists_tokens
  refine List.mem_append_right _ (List.mem_flatMap.mpr ⟨_, List.mem_map_of_mem hline, ?_⟩)
  rwa [LineForm.declaredNames_eq, LineForm.lexed_of_ok hts, declaredIn_congr (halike.map_word hts)]

/-- A name that is found wherever its tokens stand is bound. -/
theorem mem_bound_of_stretch (hd : d ∈ (extract source options).declarations)
    {stretch : List Token} (hstretch : stretch <:+: d.bodyTokens source)
    (halike : ∀ line ∈ d.lines, (∃ t ∈ line.tokensIn source, t ∈ stretch) →
      line.LexedAlike source) {name : Text}
    (hfound : ∀ before after, name ∈ nestedNames [] (before ++ (stretch ++ after)))
    (rules : LineRules) : name ∈ (FunctionForm.of rules d).bound := by
  obtain ⟨before, after, hwords⟩ := exists_around_of_lexedAlike hd hstretch halike
    fun line ts hts => LineForm.lexed_of_ok hts
  refine List.mem_append_left _ (List.mem_append_right _ ?_)
  rw [List.flatMap_map, nestedNames_congr hwords]
  exact hfound before after

/-- What the body holds stands among its tokens. -/
theorem Declaration.Holds.isInfix {ts : List Token} (h : d.Holds source ts) :
    ts <:+: d.bodyTokens source := by
  obtain ⟨before, after, hbody, _⟩ := h
  exact ⟨before, after, by rw [hbody, List.append_assoc]⟩

/-- **What the search reaches is bound.**  There is one case for each form of a binding, and in
each the state of the search at the name is known from the stretch in front of it. -/
theorem Declaration.Binds.mem_bound (hd : d ∈ (extract source options).declarations) {b : Binding}
    (h : d.Binds source b) (hreaches : d.Reaches source b) (rules : LineRules) :
    b.name.text ∈ (FunctionForm.of rules d).bound := by
  cases h with
  | param hparam htokens hfront hname =>
    refine mem_bound_of_param hparam hreaches ?_ rules
    exact text_ne_nil_of_tokenize htokens (List.mem_append_right _ List.mem_cons_self)
  | named hkind hword hstar hname hholds =>
    obtain ⟨rfl, line, hline, halike, before, after, hsplit⟩ := hreaches
    refine mem_bound_of_line hline halike ?_ rules
    rw [← hsplit, List.append_assoc]
    exact mem_declaredIn_of_word hkind (isAnyOf_mono hword (by decide)) hname
  | @declared word between target name hkind hword hbetween hgoesOn htarget hname hholds =>
    obtain ⟨hkeeps, line, hline, halike, before, after, hsplit⟩ := hreaches
    refine mem_bound_of_line hline halike ?_ rules
    have hline : line.tokensIn source =
        before ++ word :: (between ++ (target ++ name :: after)) := by
      rw [← hsplit]
      simp [Binding.tokens]
    rw [hline]
    rcases htarget with rfl | ⟨opener, inside, rfl, hopener, hinside⟩
    · exact mem_declaredIn_of_list hkind hword hbetween hkeeps hname
    · exact mem_declaredIn_of_pattern hkind hword hbetween hkeeps hopener hinside hname
  | @clause word lead opener front name hkind hword hlead hlength hopener hfront hname hholds =>
    refine mem_bound_of_stretch hd hholds.isInfix hreaches (fun before after => ?_) rules
    have hstretch : before ++ ((Binding.clause word lead opener front name).tokens ++ after) =
        before ++ word :: (lead ++ opener :: (front ++ name :: after)) := by
      simp [Binding.tokens]
    rw [hstretch]
    refine mem_nestedNames_of_clause hkind hword (fun t ht => ?_) hlength hopener
      hfront.isSome_levelAfter hname
    rcases hlead t ht with hident | hstar
    · simp [Token.punctIs, hident]
    · exact punctIs_eq_false hstar (by decide)
  | arrow hname hsign hholds =>
    refine mem_bound_of_stretch hd hholds.isInfix hreaches (fun before after => ?_) rules
    exact mem_nestedNames_of_arrow hname hsign
  | @arrowList opener front name behind closer sign hopener hfront hname hbalance hcloser hsign
      hholds =>
    refine mem_bound_of_stretch hd hholds.isInfix hreaches (fun before after => ?_) rules
    have hstretch :
        before ++ ((Binding.arrowList opener front name behind closer sign).tokens ++ after) =
          before ++ opener :: (front ++ name :: (behind ++ closer :: sign :: after)) := by
      simp [Binding.tokens]
    rw [hstretch]
    exact mem_nestedNames_of_arrowList hopener hbalance hname hcloser hsign
  | method => exact hreaches.elim

end

/-! ### Callees -/

/-- The text is that of a callee: an identifier that is no constant. -/
def IsCallee (text : Text) : Prop := IsName text ∧ ∀ s ∈ constantWords, text ≠ s.toList

section

variable {source : Text} {options : Options} {rules : LineRules} {d : Declaration}

/-- A callee that is a slot is not among the names that are bound.  Being no literal, it was taken
as a callee, for which that is asked. -/
theorem Declaration.HasSlot.not_mem_bound {i p : Nat} {line : LogicalLine} {ts : List Token}
    {t : FormToken} (h : d.HasSlot rules i p line ts t) (hcallee : IsCallee t.token.text) :
    t.token.text ∉ (FunctionForm.of rules d).bound := by
  obtain ⟨hname, hconstant⟩ := hcallee
  have hnot : ¬t.token.IsLiteral := by
    obtain ⟨previous, tail, hreads⟩ :=
      exists_reads_of_tokenize h.lexed _ (List.mem_of_getElem? h.token_eq)
    obtain ⟨c, body, htext, -, -, hslash⟩ := exists_head_of_ident hname
    have hkind := kind_eq_of_reads hreads hname (by simp [htext, hslash])
    rintro (hother | hword)
    · exact hother hkind
    · obtain ⟨s, hs, htext⟩ := List.any_eq_true.mp hword
      exact hconstant s hs (of_decide_eq_true htext)
  have hreplaceable := h.replaceable
  rw [FunctionForm.isReplaceableAt, h.formToken_eq, Option.any_some] at hreplaceable
  exact (callee_of_isReplaceable hreplaceable hnot).1

/-- **A callee is free** in either function exactly if no binding binds it that is not reached.
What is reached is among the names that are bound, and the callee is none of those. -/
theorem free_iff_of_not_mem_bound (hd : d ∈ (extract source options).declarations) {name : Text}
    (h : name ∉ (FunctionForm.of rules d).bound) :
    d.Free source name ↔
      ∀ b, d.Binds source b → ¬d.Reaches source b → b.name.text ≠ name := by
  refine ⟨fun hfree b hb _ => hfree b hb, fun hunreached b hb => ?_⟩
  by_cases hreaches : d.Reaches source b
  · rintro rfl
    exact h (hb.mem_bound hd hreaches rules)
  · exact hunreached b hb hreaches

end

/-- **Slots are free callees where the search for bindings looks.**  When two functions of a source
differ in one expression and it is a callee on the left, or on the right, that name is free in the
function there if and only if no binding of the function that the search does not reach binds it. -/
theorem callee_free_iff {source : Text} {options : Options} {rules : LineRules}
    {left right : Declaration} (hleft : left ∈ (extract source options).declarations)
    (hright : right ∈ (extract source options).declarations) {i : Nat} {pair : ExprPair}
    (h : left.compare rules right = .nearDuplicate (.substituted i) (.expression pair)) :
    (IsCallee pair.leftText → (left.Free source pair.leftText ↔
      ∀ b, left.Binds source b → ¬left.Reaches source b → b.name.text ≠ pair.leftText)) ∧
    (IsCallee pair.rightText → (right.Free source pair.rightText ↔
      ∀ b, right.Binds source b → ¬right.Reaches source b → b.name.text ≠ pair.rightText)) := by
  obtain ⟨p, l, ts, t, r, us, u, hslot, hslot', rfl, -⟩ := exists_slots_of_compare h
  exact ⟨fun hcallee => free_iff_of_not_mem_bound hleft (hslot.not_mem_bound hcallee),
    fun hcallee => free_iff_of_not_mem_bound hright (hslot'.not_mem_bound hcallee)⟩

/-- Two functions that call different names with the same arguments; both names are free.  Neither
of the functions binds a name that is called. -/
theorem callee_free_of_calling_two :
    ∃ f ∈ (extract callingTwo {}).declarations, ∃ g ∈ (extract callingTwo {}).declarations,
      f.compare {} g = .nearDuplicate (.substituted 0)
        (.expression ⟨⟨7, 8⟩, ['p'], ⟨7, 8⟩, ['q']⟩) ∧
      (f.Free callingTwo ['p'] ↔
        ∀ b, f.Binds callingTwo b → ¬f.Reaches callingTwo b → b.name.text ≠ ['p']) ∧
      (g.Free callingTwo ['q'] ↔
        ∀ b, g.Binds callingTwo b → ¬g.Reaches callingTwo b → b.name.text ≠ ['q']) := by
  have hcompare :
      ∃ f ∈ (extract callingTwo {}).declarations, ∃ g ∈ (extract callingTwo {}).declarations,
      f.compare {} g = .nearDuplicate (.substituted 0)
        (.expression ⟨⟨7, 8⟩, ['p'], ⟨7, 8⟩, ['q']⟩) := by
    decide +kernel
  obtain ⟨f, hf, g, hg, hverdict⟩ := hcompare
  obtain ⟨hleft, hright⟩ := callee_free_iff hf hg hverdict
  have hp : IsCallee ['p'] := ⟨isName_of_continues (by decide) (by decide) nofun, by decide⟩
  have hq : IsCallee ['q'] := ⟨isName_of_continues (by decide) (by decide) nofun, by decide⟩
  exact ⟨f, hf, g, hg, hverdict, hleft hp, hright hq⟩

/-- Two functions that declare a name on the second line of a list.  One of them calls it. -/
def declaringOnTwoLines : Text :=
  ("function f(p)\x7bvar x=1,\ny=p;return y(1)\x7d\n" ++
    "function g(p)\x7bvar x=1,\ny=p;return z(1)\x7d").toList

/-- The list on two lines, up to its second name. -/
def listOnTwoLines : Binding :=
  .declared ⟨.ident, [], "var".toList, ⟨14, 1⟩⟩
    ([⟨.ident, [' '], ['x'], ⟨18, 1⟩⟩, ⟨.punct, [], ['='], ⟨19, 1⟩⟩,
      ⟨.number, [], ['1'], ⟨20, 1⟩⟩] ++ [⟨.punct, [], [','], ⟨21, 1⟩⟩])
    [] ⟨.ident, ['\n'], ['y'], ⟨23, 2⟩⟩

/-- **A name of a list on two lines is taken for a free callee.**  The list is looked at line by
line, and the second line does not begin with `var`. -/
theorem bound_callee_is_slot :
    ¬∀ left ∈ (extract declaringOnTwoLines {}).declarations,
      ∀ right ∈ (extract declaringOnTwoLines {}).declarations, ∀ (i : Nat) (pair : ExprPair),
      left.compare {} right = .nearDuplicate (.substituted i) (.expression pair) →
      IsCallee pair.leftText → left.Free declaringOnTwoLines pair.leftText := by
  intro hall
  have hslot : ∃ f ∈ (extract declaringOnTwoLines {}).declarations,
      ∃ g ∈ (extract declaringOnTwoLines {}).declarations,
      f.compare {} g = .nearDuplicate (.substituted 2)
        (.expression ⟨⟨7, 8⟩, ['y'], ⟨7, 8⟩, ['z']⟩) ∧
      listOnTwoLines.tokens <+: f.bodyTokens declaringOnTwoLines := by
    decide +kernel
  obtain ⟨f, hf, g, hg, hverdict, tail, hbody⟩ := hslot
  have hcallee : IsCallee ['y'] := ⟨isName_of_continues (by decide) (by decide) nofun, by decide⟩
  have hbinds : f.Binds declaringOnTwoLines listOnTwoLines :=
    .declared rfl (by decide) (.inr ⟨_, _, rfl, by decide, by decide⟩) (by decide) (.inl rfl) rfl
      ⟨[], tail, hbody.symm, nofun⟩
  exact hall f hf g hg 2 _ hverdict hcallee _ hbinds rfl

end Twinfold
