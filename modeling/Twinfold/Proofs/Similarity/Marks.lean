import Twinfold.Proofs.Declaration.Parts
import Twinfold.Similarity.Comparison

/-!
# What is marked in a line

The search for bindings reads a line token by token.  Behind a declaration word it expects a name
or a pattern (`BindingState.Ready`), and whatever word comes then is marked.  In an open pattern
everything is marked (`InPattern`).  A list of declarations keeps its depth while delimiters are
opened and closed again (`InList`), so that it expects a name behind each of its commas, up to a
`;` or another declaration word, at whatever depth.  Each of these holds behind a token if it held
in front of it, which is said by one lemma about `BindingState.read`.

* `mem_declaredIn_of_word` — a name behind a declaration word is marked;
* `mem_declaredIn_of_list` — so is a further name of a list;
* `mem_declaredIn_of_pattern` — and so are the words of a pattern.
-/

namespace Twinfold

/-! ### Levels -/

/-- How many delimiters are open behind tokens in front of which `level` were; none if more than
these are closed. -/
def levelAfter : (level : Nat) → List Token → Option Nat
  | level, [] => some level
  | level, t :: ts =>
    if t.opens then levelAfter (level + 1) ts
    else if t.closes then if level = 0 then none else levelAfter (level - 1) ts
    else levelAfter level ts

/-- Along two lists the level goes on from where it was between them, if the first list does not
close more than was open. -/
theorem levelAfter_append (level : Nat) (ts us : List Token) :
    levelAfter level (ts ++ us) = (levelAfter level ts).bind fun level => levelAfter level us := by
  induction ts generalizing level with
  | nil => rfl
  | cons t ts ih =>
    rw [List.cons_append, levelAfter, levelAfter]
    split
    · exact ih _
    · split
      · split
        · rfl
        · exact ih _
      · exact ih _

/-- Levels are counted from anywhere.  What is closed within the list was opened within it, so
nothing further out is touched. -/
theorem levelAfter_add {level level' : Nat} {ts : List Token}
    (h : levelAfter level ts = some level') (more : Nat) :
    levelAfter (level + more) ts = some (level' + more) := by
  induction ts generalizing level with
  | nil =>
    cases h
    rfl
  | cons t ts ih =>
    rw [levelAfter] at h ⊢
    split at h
    · rename_i hopens
      rw [if_pos hopens, Nat.add_right_comm]
      exact ih h
    · rename_i hopens
      rw [if_neg hopens]
      split at h
      · rename_i hcloses
        rw [if_pos hcloses]
        split at h
        · cases h
        · rw [if_neg (by omega), Nat.sub_add_comm (by omega)]
          exact ih h
      · rename_i hcloses
        rw [if_neg hcloses]
        exact ih h

theorem levelAfter_shift {level' : Nat} {ts : List Token} (h : levelAfter 0 ts = some level')
    (level : Nat) : levelAfter level ts = some (level' + level) := by
  simpa using levelAfter_add h level

/-- The step from a token to the next one. -/
theorem levelAfter_cons_eq_some {level level' : Nat} {t : Token} {ts : List Token}
    (h : levelAfter level (t :: ts) = some level') :
    ∃ next, levelAfter level [t] = some next ∧ levelAfter next ts = some level' := by
  rw [show t :: ts = [t] ++ ts from rfl, levelAfter_append] at h
  exact Option.bind_eq_some_iff.mp h

/-- A token opens a delimiter, closes one, or does neither.  It closes one only if one is open,
since the level is not negative. -/
theorem levelAfter_singleton_cases {level level' : Nat} {t : Token}
    (h : levelAfter level [t] = some level') :
    (t.opens = true ∧ level' = level + 1) ∨
      (t.opens = false ∧ t.closes = true ∧ level = level' + 1) ∨
      (t.opens = false ∧ t.closes = false ∧ level' = level) := by
  rw [levelAfter] at h
  split at h
  · rename_i hopens
    exact .inl ⟨hopens, (Option.some_inj.mp h).symm⟩
  · rename_i hopens
    have hopens := eq_false_of_ne_true hopens
    split at h
    · rename_i hcloses
      split at h
      · cases h
      · have hlevel := Option.some_inj.mp h
        exact .inr (.inl ⟨hopens, hcloses, by omega⟩)
    · rename_i hcloses
      exact .inr (.inr ⟨hopens, eq_false_of_ne_true hcloses, (Option.some_inj.mp h).symm⟩)

/-- The token opens a pattern where a name is expected. -/
def Token.OpensPattern (t : Token) : Prop := t.punctIs "\x7b" = true ∨ t.punctIs "[" = true

theorem Token.OpensPattern.opens {t : Token} (h : t.OpensPattern) : t.opens = true := by
  rcases h with h | h <;> exact opens_of_punctIs h (by decide)

theorem Token.OpensPattern.kind_eq {t : Token} (h : t.OpensPattern) : t.kind = .punct := by
  rcases h with h | h <;> exact congrArg Prod.fst (punctIs_iff.mp h)

theorem levelAfter_plain {t : Token} (h : t.opens = false ∧ t.closes = false) (level : Nat) :
    levelAfter level [t] = some level := by
  simp [levelAfter, h]

/-! ### The search for bindings -/

namespace BindingState

/-- The state behind tokens. -/
def after (s : BindingState) (ts : List Token) : BindingState :=
  ts.foldl (fun s t => (s.read t).2) s

@[simp] theorem after_nil (s : BindingState) : s.after [] = s := rfl

@[simp] theorem after_cons (s : BindingState) (t : Token) (ts : List Token) :
    s.after (t :: ts) = (s.read t).2.after ts := rfl

theorem after_append (s : BindingState) (ts us : List Token) :
    s.after (ts ++ us) = (s.after ts).after us := List.foldl_append

/-- An open pattern was opened further out than the search stands. -/
def Sound (s : BindingState) : Prop := ∀ outside, s.pattern = some outside → outside < s.depth

/-- The next word is marked. -/
def Ready (s : BindingState) : Prop := s.pattern.isSome ∨ s.pattern = none ∧ s.expectsName = true

end BindingState

theorem markBindings_cons (s : BindingState) (t : Token) (ts : List Token) :
    markBindings s (t :: ts) = (s.read t).1 :: markBindings (s.read t).2 ts := rfl

/-- Every token has a mark. -/
theorem length_markBindings (s : BindingState) (ts : List Token) :
    (markBindings s ts).length = ts.length := by
  induction ts generalizing s with
  | nil => rfl
  | cons t ts ih => rw [markBindings_cons, List.length_cons, List.length_cons, ih]

/-- The marks of a list go on from the state behind what stands in front of it. -/
theorem markBindings_append (s : BindingState) (ts us : List Token) :
    markBindings s (ts ++ us) = markBindings s ts ++ markBindings (s.after ts) us := by
  induction ts generalizing s with
  | nil => rfl
  | cons t ts ih =>
    rw [List.cons_append, markBindings_cons, markBindings_cons, ih, List.cons_append,
      BindingState.after_cons]

/-- The marked words of a line. -/
def declaredIn (ts : List Token) : List Text :=
  (ts.zip (markBindings {} ts)).filterMap fun (t, marked) =>
    if marked && t.kind = .ident then some t.text else none

theorem LineForm.declaredNames_eq (line : LineForm) : line.declaredNames = declaredIn line.lexed :=
  rfl

/-- What is marked is declared. -/
theorem mem_declaredIn {before after : List Token} {name : Token} (hkind : name.kind = .ident)
    (hmark : ((BindingState.after {} before).read name).1 = true) :
    name.text ∈ declaredIn (before ++ name :: after) := by
  rw [declaredIn, markBindings_append, markBindings_cons,
    List.zip_append (length_markBindings _ _).symm, List.filterMap_append]
  refine List.mem_append_right _ (List.mem_filterMap.mpr ⟨(name, true), ?_, ?_⟩)
  · rw [List.zip_cons_cons, hmark]
    exact List.mem_cons_self
  · simp [hkind]

namespace BindingState

variable {s : BindingState} {t : Token}

/-- Behind a word the next word may be marked, whatever it is. -/
theorem read_mark (h : s.Ready) (hkind : t.kind = .ident) : (s.read t).1 = true := by
  obtain ⟨hopens, hcloses⟩ := not_delimiter_of_ident hkind
  unfold read
  split
  · simp [hopens, hcloses]
  · rename_i hpattern
    have hexpects : s.expectsName = true := by simpa [Ready, hpattern] using h
    split
    · rfl
    · simp [hexpects, hkind]

/-- A declaration word makes ready for a name. -/
theorem ready_read (hkind : t.kind = .ident) (hword : t.isAnyOf declarationWords = true) :
    (s.read t).2.Ready := by
  obtain ⟨hopens, hcloses⟩ := not_delimiter_of_ident hkind
  unfold read
  split
  · rename_i outside hpattern
    exact .inl (by simp [hopens, hcloses, hpattern])
  · rename_i hpattern
    rw [if_pos (by simp [hkind, hword])]
    exact .inr ⟨hpattern, rfl⟩

/-- What a token does in an open pattern. -/
theorem read_of_pattern {outside : Int} (h : s.pattern = some outside) :
    s.read t = (true,
      if t.opens then { s with depth := s.depth + 1 }
      else if t.closes then
        { s with
          depth := s.depth - 1
          pattern := if s.depth - 1 = outside then none else some outside }
      else s) := by
  rw [read, h]
  dsimp only
  split
  · rfl
  · split <;> rfl

/-- Elsewhere a pattern can only be opened in front of the depth that it leads to.  So the depth
outside of a pattern is the one at which the pattern was opened. -/
theorem pattern_read_of_none (h : s.pattern = none) :
    (s.read t).2.pattern = none ∨
      (s.read t).2.pattern = some s.depth ∧ (s.read t).2.depth = s.depth + 1 := by
  rw [read, h]
  dsimp only
  split
  · exact .inl rfl
  · split
    · exact .inl rfl
    · split
      · exact .inr ⟨rfl, rfl⟩
      · split
        · exact .inl rfl
        · split
          · exact .inl rfl
          · split
            · exact .inl rfl
            · split <;> exact .inl rfl

/-- **Patterns are left again**: this is kept by every token.  A pattern is left at the delimiter
that closes it, where the depth falls to that at which it was opened. -/
theorem Sound.read (h : s.Sound) (t : Token) : (s.read t).2.Sound := by
  intro outside houtside
  rcases hpattern : s.pattern with _ | opened
  · rcases pattern_read_of_none (t := t) hpattern with hnone | ⟨hsome, hdepth⟩
    · rw [hnone] at houtside
      cases houtside
    · rw [hsome] at houtside
      cases houtside
      omega
  · have hlt := h opened hpattern
    rw [read_of_pattern hpattern] at houtside ⊢
    dsimp only at houtside ⊢
    split at houtside <;> rename_i hopens
    · rw [if_pos hopens]
      cases hpattern.symm.trans houtside
      dsimp only
      omega
    · rw [if_neg hopens]
      split at houtside <;> rename_i hcloses
      · rw [if_pos hcloses]
        dsimp only at houtside ⊢
        split at houtside
        · cases houtside
        · cases houtside
          omega
      · rw [if_neg hcloses]
        cases hpattern.symm.trans houtside
        exact hlt

/-- From the beginning of a line only sound states are reached. -/
theorem sound_after (ts : List Token) : (after {} ts).Sound := by
  have hall : ∀ s : BindingState, s.Sound → (s.after ts).Sound := by
    induction ts with
    | nil => exact fun s h => h
    | cons t ts ih => exact fun s h => ih _ (h.read t)
  exact hall {} nofun

end BindingState

/-! ### Open patterns -/

/-- The search is in a pattern, `level` delimiters deep. -/
structure InPattern (outside : Int) (level : Nat) (s : BindingState) : Prop where
  pattern_eq : s.pattern = some outside
  depth_eq : s.depth = outside + 1 + level

/-- **Everything in a pattern is marked** up to the delimiter that closes it.  The depth goes along
with the level of the delimiters opened in it. -/
theorem InPattern.read {outside : Int} {level level' : Nat} {s : BindingState}
    (h : InPattern outside level s) {t : Token} (hlevel : levelAfter level [t] = some level') :
    (s.read t).1 = true ∧ InPattern outside level' (s.read t).2 := by
  obtain ⟨hpattern, hdepth⟩ := h
  rw [BindingState.read_of_pattern hpattern]
  refine ⟨rfl, ?_⟩
  rcases levelAfter_singleton_cases hlevel with
    ⟨hopens, rfl⟩ | ⟨hopens, hcloses, rfl⟩ | ⟨hopens, hcloses, rfl⟩
  · rw [if_pos hopens]
    exact ⟨hpattern, by dsimp only; omega⟩
  · rw [hopens, hcloses, if_neg Bool.false_ne_true, if_pos rfl]
    refine ⟨?_, by dsimp only; omega⟩
    dsimp only
    rw [if_neg (by omega)]
  · rw [hopens, hcloses, if_neg Bool.false_ne_true, if_neg Bool.false_ne_true]
    exact ⟨hpattern, hdepth⟩

/-- A pattern goes on along all tokens that do not close it. -/
theorem InPattern.after {outside : Int} {level level' : Nat} {s : BindingState}
    (h : InPattern outside level s) {ts : List Token} (hlevel : levelAfter level ts = some level') :
    InPattern outside level' (s.after ts) := by
  induction ts generalizing level s with
  | nil =>
    cases hlevel
    exact h
  | cons t ts ih =>
    obtain ⟨next, hnext, hrest⟩ := levelAfter_cons_eq_some hlevel
    exact ih (h.read hnext).2 hrest

/-- A state with an open pattern stands in it. -/
theorem BindingState.Sound.exists_inPattern {s : BindingState} (h : s.Sound) {outside : Int}
    (hpattern : s.pattern = some outside) : ∃ level, InPattern outside level s := by
  have hlt := h outside hpattern
  exact ⟨(s.depth - outside - 1).toNat, hpattern, by omega⟩

/-! ### Lists of declarations -/

/-- The token ends a list of declarations for the search: a `;` or a declaration word. -/
def Token.DropsList (t : Token) : Prop :=
  t.punctIs ";" = true ∨ t.kind = .ident ∧ t.isAnyOf declarationWords = true

instance (t : Token) : Decidable t.DropsList := inferInstanceAs (Decidable (_ ∨ _))

/-- The search is in a list of declarations at depth `base`, `level` delimiters deep. -/
structure InList (base : Int) (level : Nat) (s : BindingState) : Prop where
  listDepth_eq : s.listDepth = some base
  depth_eq : s.depth = base + level
  pattern_within : ∀ outside, s.pattern = some outside → base ≤ outside ∧ outside < s.depth

/-- What a token outside of patterns does, if it does not end a list.  It opens, it closes, or it
leaves the depth as it is; there is one case for each, with what becomes of the list and of
patterns. -/
theorem BindingState.read_keeping {s : BindingState} {t : Token} (h : s.pattern = none)
    (hkeeps : ¬t.DropsList) :
    (t.opens = true ∧ (s.read t).2.depth = s.depth + 1 ∧
        (s.read t).2.listDepth = s.listDepth ∧
        ((s.read t).2.pattern = none ∨ (s.read t).2.pattern = some s.depth)) ∨
      (t.closes = true ∧ (s.read t).2.depth = s.depth - 1 ∧
        (s.read t).2.listDepth = s.listDepth.filter (fun d => d ≤ s.depth - 1) ∧
        (s.read t).2.pattern = none) ∨
      (t.opens = false ∧ t.closes = false ∧ (s.read t).2.depth = s.depth ∧
        (s.read t).2.listDepth = s.listDepth ∧ (s.read t).2.pattern = none) := by
  obtain ⟨hsemicolon, hword⟩ := not_or.mp hkeeps
  rw [read, h]
  dsimp only
  split
  · rename_i hdeclares
    exact absurd (by simpa using hdeclares) hword
  · split
    · rename_i hname
      obtain ⟨hopens, hcloses⟩ := not_delimiter_of_ident (t := t) (by simp at hname; exact hname.2)
      exact .inr (.inr ⟨hopens, hcloses, rfl, rfl, rfl⟩)
    · split
      · rename_i hopener
        simp only [Bool.and_eq_true, Bool.or_eq_true] at hopener
        exact .inl ⟨Token.OpensPattern.opens hopener.2, rfl, rfl, .inr rfl⟩
      · split
        · rename_i hopens
          exact .inl ⟨hopens, rfl, rfl, .inl rfl⟩
        · rename_i hopens
          have hopens := eq_false_of_ne_true hopens
          split
          · rename_i hcloses
            exact .inr (.inl ⟨hcloses, rfl, rfl, rfl⟩)
          · rename_i hcloses
            have hcloses := eq_false_of_ne_true hcloses
            split <;> exact .inr (.inr ⟨hopens, hcloses, rfl, rfl, rfl⟩)

/-- **Lists go on**: the depth of a list is kept by every token that does not end it.  Delimiters
within the list raise the depth above it and bring it back again. -/
theorem InList.read {base : Int} {level level' : Nat} {s : BindingState} (h : InList base level s)
    {t : Token} (hkeeps : ¬t.DropsList) (hlevel : levelAfter level [t] = some level') :
    InList base level' (s.read t).2 := by
  obtain ⟨hlist, hdepth, hwithin⟩ := h
  have hcases := levelAfter_singleton_cases hlevel
  rcases hpattern : s.pattern with _ | outside
  · rcases BindingState.read_keeping hpattern hkeeps with
      ⟨hopens, hdepth', hlist', hopened⟩ | ⟨hcloses, hdepth', hlist', hnone⟩ |
      ⟨hopens, hcloses, hdepth', hlist', hnone⟩
    · obtain ⟨_, rfl⟩ : t.opens = true ∧ level' = level + 1 := by simpa [hopens] using hcases
      refine ⟨hlist'.trans hlist, by omega, ?_⟩
      intro outside houtside
      rcases hopened with hnone | hsome
      · rw [hnone] at houtside
        cases houtside
      · rw [hsome] at houtside
        cases houtside
        omega
    · have hlevels : level = level' + 1 := by
        have hopens : t.opens = false := opens_eq_false_of_closes hcloses
        simpa [hopens, hcloses] using hcases
      refine ⟨?_, by omega, fun outside houtside => ?_⟩
      · rw [hlist', hlist, Option.filter_some, if_pos (by simp only [decide_eq_true_eq]; omega)]
      · rw [hnone] at houtside
        cases houtside
    · obtain rfl : level' = level := by simpa [hopens, hcloses] using hcases
      refine ⟨hlist'.trans hlist, by omega, fun outside houtside => ?_⟩
      rw [hnone] at houtside
      cases houtside
  · obtain ⟨hbase, hlt⟩ := hwithin outside hpattern
    rw [BindingState.read_of_pattern hpattern]
    rcases hcases with ⟨hopens, rfl⟩ | ⟨hopens, hcloses, rfl⟩ | ⟨hopens, hcloses, rfl⟩
    · rw [if_pos hopens]
      refine ⟨hlist, by dsimp only; omega, fun outside' houtside => ?_⟩
      cases hpattern.symm.trans houtside
      dsimp only
      omega
    · rw [hopens, hcloses, if_neg Bool.false_ne_true, if_pos rfl]
      refine ⟨hlist, by dsimp only; omega, fun outside' houtside => ?_⟩
      dsimp only at houtside ⊢
      split at houtside
      · cases houtside
      · cases houtside
        omega
    · rw [hopens, hcloses, if_neg Bool.false_ne_true, if_neg Bool.false_ne_true]
      exact ⟨hlist, hdepth, hwithin⟩

/-- A list of declarations goes on along all tokens that neither end it nor close what it stands
in. -/
theorem InList.after {base : Int} {level level' : Nat} {s : BindingState} (h : InList base level s)
    {ts : List Token} (hkeeps : ∀ t ∈ ts, ¬t.DropsList)
    (hlevel : levelAfter level ts = some level') : InList base level' (s.after ts) := by
  induction ts generalizing level s with
  | nil =>
    cases hlevel
    exact h
  | cons t ts ih =>
    obtain ⟨ht, hts⟩ := List.forall_mem_cons.mp hkeeps
    obtain ⟨next, hnext, hrest⟩ := levelAfter_cons_eq_some hlevel
    exact ih (h.read ht hnext) hts hrest

/-- Behind a comma of the list a name is expected.  The comma stands on the level of the list
itself, outside of patterns and other delimiters. -/
theorem InList.ready_comma {base : Int} {s : BindingState} (h : InList base 0 s) {t : Token}
    (hcomma : t.punctIs "," = true) : (s.read t).2.Ready := by
  obtain ⟨hlist, hdepth, hwithin⟩ := h
  have hpattern : s.pattern = none := by
    rcases hpattern : s.pattern with _ | outside
    · rfl
    · have := hwithin outside hpattern
      omega
  have hkind : t.kind = .punct := congrArg Prod.fst (punctIs_iff.mp hcomma)
  obtain ⟨hopens, hcloses⟩ := not_delimiter_of_punctIs hcomma (by decide)
  have hbrace : t.punctIs "\x7b" = false := punctIs_eq_false hcomma (by decide)
  have hbracket : t.punctIs "[" = false := punctIs_eq_false hcomma (by decide)
  have hhere : s.listDepth = some s.depth := by
    rw [hlist, hdepth, Int.natCast_zero, Int.add_zero]
  refine .inr ?_
  simp [BindingState.read, hpattern, hkind, hopens, hcloses, hbrace, hbracket, hcomma, hhere]

/-! ### Declarations on a line -/

/-- The tokens between the beginning of a list and one of its entries: none in front of the first
entry, and entries with a comma behind them in front of the others. -/
def Entries (between : List Token) : Prop :=
  between = [] ∨ ∃ init comma, between = init ++ [comma] ∧ comma.punctIs "," = true ∧
    levelAfter 0 init = some 0

/-- Entries of a list are balanced. -/
theorem Entries.levelAfter_eq {between : List Token} (h : Entries between) :
    levelAfter 0 between = some 0 := by
  rcases h with rfl | ⟨init, comma, rfl, hcomma, hlevel⟩
  · rfl
  · rw [levelAfter_append, hlevel, Option.bind_some]
    exact levelAfter_plain (not_delimiter_of_punctIs hcomma (by decide)) 0

/-- **In a list a name is expected** at its beginning and behind each of its commas.  The word
begins the list at the depth where the search stands, and commas count at that depth. -/
theorem ready_of_entries {s : BindingState} (h : s.Sound) {word : Token}
    (hkind : word.kind = .ident) (hword : word.isAnyOf listWords = true) {between : List Token}
    (hbetween : Entries between) (hkeeps : ∀ t ∈ between, ¬t.DropsList) :
    (s.after (word :: between)).Ready := by
  have hdeclares : word.isAnyOf declarationWords = true := isAnyOf_mono hword (by decide)
  rw [BindingState.after_cons]
  rcases hpattern : s.pattern with _ | outside
  · have hlist : InList s.depth 0 (s.read word).2 := by
      rw [BindingState.read, hpattern]
      dsimp only
      rw [if_pos (by simp [hkind, hdeclares])]
      exact ⟨if_pos hword, by simp, nofun⟩
    rcases hbetween with rfl | ⟨init, comma, rfl, hcomma, hlevel⟩
    · exact s.ready_read hkind hdeclares
    · have hinit := hlist.after (fun t ht => hkeeps t (List.mem_append_left _ ht)) hlevel
      rw [BindingState.after_append]
      exact hinit.ready_comma hcomma
  · -- In an open pattern the list goes on in the pattern.
    obtain ⟨level, hin⟩ := h.exists_inPattern hpattern
    have hin := (hin.read (levelAfter_plain (not_delimiter_of_ident hkind) level)).2
    have hlevel := levelAfter_shift hbetween.levelAfter_eq level
    exact .inl (by rw [(hin.after hlevel).pattern_eq]; rfl)

/-- A brace or bracket in the place of a name opens a pattern. -/
theorem exists_inPattern_of_ready {s : BindingState} (hsound : s.Sound) (h : s.Ready)
    {opener : Token} (hopener : opener.OpensPattern) :
    ∃ outside level, InPattern outside level (s.read opener).2 := by
  rcases hpattern : s.pattern with _ | outside
  · have hexpects : s.expectsName = true := by simpa [BindingState.Ready, hpattern] using h
    have hkind := hopener.kind_eq
    refine ⟨s.depth, 0, ?_⟩
    rw [BindingState.read, hpattern]
    dsimp only
    rw [if_neg (by simp [hkind]), if_neg (by simp [hkind]),
      if_pos (by simpa [hexpects, Token.OpensPattern] using hopener)]
    exact ⟨rfl, by simp⟩
  · obtain ⟨level, hin⟩ := hsound.exists_inPattern hpattern
    exact ⟨outside, level + 1, (hin.read (by simp [levelAfter, hopener.opens])).2⟩

section

variable {before between inside after : List Token} {word opener name : Token}

/-- **Names behind declaration words** are declared.  The name stands right behind the word,
whatever is open around them. -/
theorem mem_declaredIn_of_word (hkind : word.kind = .ident)
    (hword : word.isAnyOf declarationWords = true) (hname : name.kind = .ident) :
    name.text ∈ declaredIn (before ++ word :: name :: after) := by
  have hready := ((BindingState.after {} before).ready_read hkind hword)
  have hmark : name.text ∈ declaredIn ((before ++ [word]) ++ name :: after) := by
    refine mem_declaredIn hname ?_
    rw [BindingState.after_append]
    exact BindingState.read_mark hready hname
  rwa [List.append_assoc] at hmark

/-- **Names in a list** are declared.  Between the word and the name there are whole entries of the
list, none of which ends it. -/
theorem mem_declaredIn_of_list (hkind : word.kind = .ident) (hword : word.isAnyOf listWords = true)
    (hbetween : Entries between) (hkeeps : ∀ t ∈ between, ¬t.DropsList)
    (hname : name.kind = .ident) :
    name.text ∈ declaredIn (before ++ word :: (between ++ name :: after)) := by
  have hready := ready_of_entries (BindingState.sound_after before) hkind hword hbetween hkeeps
  rw [← BindingState.after_append] at hready
  have hmark : name.text ∈ declaredIn ((before ++ word :: between) ++ name :: after) :=
    mem_declaredIn hname (BindingState.read_mark hready hname)
  rwa [List.append_assoc, List.cons_append] at hmark

/-- **Words in a pattern** of a list are declared.  The pattern is opened where the list expects a
name, and the word stands in it at any depth. -/
theorem mem_declaredIn_of_pattern (hkind : word.kind = .ident)
    (hword : word.isAnyOf listWords = true) (hbetween : Entries between)
    (hkeeps : ∀ t ∈ between, ¬t.DropsList)
    (hopener : opener.OpensPattern) (hinside : (levelAfter 0 inside).isSome) (hname : name.kind = .ident) :
    name.text ∈ declaredIn (before ++ word :: (between ++ opener :: (inside ++ name :: after))) := by
  have hready := ready_of_entries (BindingState.sound_after before) hkind hword hbetween hkeeps
  rw [← BindingState.after_append] at hready
  obtain ⟨outside, level, hin⟩ :=
    exists_inPattern_of_ready (BindingState.sound_after _) hready hopener
  obtain ⟨depth, hdepth⟩ := Option.isSome_iff_exists.mp hinside
  have hdepth := levelAfter_shift hdepth level
  have hmark : name.text ∈
      declaredIn ((before ++ word :: between ++ opener :: inside) ++ name :: after) := by
    refine mem_declaredIn hname ?_
    rw [BindingState.after_append]
    exact ((hin.after hdepth).read (levelAfter_plain (not_delimiter_of_ident hname) _)).1
  simpa using hmark

end

end Twinfold
