import Twinfold.Proofs.Similarity.Marks

/-!
# What is found in parameter lists

The parameters of nested functions, arrows and `catch` clauses are looked for in the tokens of all
lines together.  Behind `function` and `catch` the words of the list are read forwards up to its
end, in front of an arrow they are read backwards to its beginning.  The first one needs no more
than that the list is not closed in front of the name, the second one that its delimiters are
balanced.

* `mem_nestedNames_of_clause` — the words of a list behind `function` or `catch` are found;
* `mem_nestedNames_of_arrow` — so is a word in front of an arrow;
* `mem_nestedNames_of_arrowList` — and so are the words of a list in front of an arrow.

A delimiter that opens closes nothing and the other way round, so no more than `levelAfter` has to
be known of the tokens in between.
-/

namespace Twinfold

/-! ### Reading to the end of a list -/

/-- Between parentheses every word is a name of the list, however deep it stands.  The list goes on
until a delimiter closes that was not opened in it. -/
theorem mem_namesUpToClose {level level' : Nat} {inside rest : List Token} {name : Token}
    (hlevel : levelAfter level inside = some level') (hname : name.kind = .ident) :
    name.text ∈ namesUpToClose (level + 1) (inside ++ name :: rest) := by
  induction inside generalizing level with
  | nil =>
    obtain ⟨hopens, hcloses⟩ := not_delimiter_of_ident hname
    simp [namesUpToClose, hopens, hcloses, hname]
  | cons t ts ih =>
    obtain ⟨next, hnext, hrest⟩ := levelAfter_cons_eq_some hlevel
    have ih := ih hrest
    rw [List.cons_append, namesUpToClose]
    rcases levelAfter_singleton_cases hnext with
      ⟨hopens, rfl⟩ | ⟨hopens, hcloses, rfl⟩ | ⟨hopens, hcloses, rfl⟩
    · rwa [if_pos hopens]
    · rwa [hopens, if_neg Bool.false_ne_true, if_pos hcloses, if_neg (by omega),
        Nat.add_sub_cancel]
    · rw [hopens, hcloses, if_neg Bool.false_ne_true, if_neg Bool.false_ne_true]
      split
      · exact List.mem_cons_of_mem _ ih
      · exact ih

/-- The list behind `function` or `catch` begins with the first parenthesis. -/
theorem clauseParams_eq {lead rest : List Token} {opener : Token}
    (hlead : ∀ t ∈ lead, t.punctIs "(" = false) (hlength : lead.length ≤ 2)
    (hopener : opener.punctIs "(" = true) :
    clauseParams (lead ++ opener :: rest) = namesUpToClose 1 rest := by
  have htake : (lead ++ opener :: rest).takeWhile (fun t => !t.punctIs "(") = lead := by
    rw [List.takeWhile_append_of_pos (by simpa using hlead),
      List.takeWhile_cons_of_neg (by simp [hopener]), List.append_nil]
  have hopens : opener.opens = true := opens_of_punctIs hopener (by decide)
  rw [clauseParams]
  simp only [htake]
  rw [if_pos (by omega), List.drop_left, namesUpToClose, if_pos hopens]

/-! ### Reading back to the beginning of a list -/

/-- The words of tokens. -/
def wordsOf (ts : List Token) : List Text :=
  ts.filterMap fun t => if t.kind = .ident then some t.text else none

theorem mem_wordsOf {ts : List Token} {name : Token} (h : name ∈ ts) (hname : name.kind = .ident) :
    name.text ∈ wordsOf ts :=
  List.mem_filterMap.mpr ⟨name, h, if_pos hname⟩

/-- **Reading backwards undoes the levels**: what is behind tokens is read on from the depth in
front of them, and their words are kept. -/
theorem namesBackToOpen?_reverse {level level' : Nat} {ts : List Token}
    (hlevel : levelAfter level ts = some level') (rest : List Token) :
    namesBackToOpen? (level' + 1) (ts.reverse ++ rest) =
      (namesBackToOpen? (level + 1) rest).map (wordsOf ts.reverse ++ ·) := by
  induction ts generalizing level rest with
  | nil =>
    cases hlevel
    simp [wordsOf]
  | cons t ts ih =>
    obtain ⟨next, hnext, hrest⟩ := levelAfter_cons_eq_some hlevel
    rw [List.reverse_cons, List.append_assoc, List.singleton_append, ih hrest, namesBackToOpen?,
      wordsOf, wordsOf, List.filterMap_append]
    rcases levelAfter_singleton_cases hnext with
      ⟨hopens, rfl⟩ | ⟨hopens, hcloses, rfl⟩ | ⟨hopens, hcloses, rfl⟩
    · have hcloses := closes_eq_false_of_opens hopens
      rw [hcloses, if_neg Bool.false_ne_true, if_pos hopens, if_neg (by omega),
        Nat.add_sub_cancel]
      simp [kind_ne_ident_of_delimiter (.inl hopens)]
    · rw [if_pos hcloses]
      simp [kind_ne_ident_of_delimiter (.inr hcloses)]
    · rw [hopens, hcloses, if_neg Bool.false_ne_true, if_neg Bool.false_ne_true]
      split
      · rename_i hkind
        rw [Option.map_map]
        simp [hkind, Function.comp_def]
      · rename_i hkind
        simp [hkind]

/-- The list in front of an arrow ends with the last parenthesis and holds what is balanced in front
of it. -/
theorem arrowParams_eq {front inside : List Token} {opener closer : Token}
    (hopener : opener.punctIs "(" = true) (hcloser : closer.punctIs ")" = true)
    (hinside : levelAfter 0 inside = some 0) :
    arrowParams (closer :: (inside.reverse ++ opener :: front)) = wordsOf inside.reverse := by
  have hopens : opener.opens = true := opens_of_punctIs hopener (by decide)
  have hcloses : closer.closes = true := closes_of_punctIs hcloser (by decide)
  have hkind : closer.kind ≠ .ident := kind_ne_ident_of_delimiter (.inr hcloses)
  rw [arrowParams, if_neg hkind, if_pos hcloser, namesBackToOpen?, if_pos hcloses,
    namesBackToOpen?_reverse hinside, namesBackToOpen?, closes_eq_false_of_opens hopens,
    if_neg Bool.false_ne_true, if_pos hopens, if_pos (Nat.le_refl 1), Option.map_some,
    List.append_nil, Option.getD_some]

/-! ### All lists -/

/-- What is found at a token is found. -/
theorem mem_nestedNames {front rest passed : List Token} {t : Token} {name : Text}
    (h : name ∈ (if t.punctIs "=>" then arrowParams (front.reverse ++ passed)
      else if t.kind = .ident && t.isAnyOf ["function", "catch"] then clauseParams rest else [])) :
    name ∈ nestedNames passed (front ++ t :: rest) := by
  induction front generalizing passed with
  | nil => exact List.mem_append_left _ h
  | cons u front ih =>
    refine List.mem_append_right _ (ih ?_)
    simpa using h

section

variable {before lead inside behind after : List Token} {word opener name closer arrow : Token}

/-- **The words of a list** behind `function` or `catch` are found.  Between the word and the
parenthesis there are two tokens at most, a star and a name perhaps. -/
theorem mem_nestedNames_of_clause (hkind : word.kind = .ident)
    (hword : word.isAnyOf ["function", "catch"] = true)
    (hlead : ∀ t ∈ lead, t.punctIs "(" = false) (hlength : lead.length ≤ 2)
    (hopener : opener.punctIs "(" = true) (hinside : (levelAfter 0 inside).isSome)
    (hname : name.kind = .ident) :
    name.text ∈
      nestedNames [] (before ++ word :: (lead ++ opener :: (inside ++ name :: after))) := by
  obtain ⟨level, hlevel⟩ := Option.isSome_iff_exists.mp hinside
  refine mem_nestedNames ?_
  rw [if_neg (by simp [Token.punctIs, hkind]), if_pos (by simp [hkind, hword]),
    clauseParams_eq hlead hlength hopener]
  exact mem_namesUpToClose hlevel hname

/-- **A word in front of an arrow** is found.  It is a parameter without parentheses. -/
theorem mem_nestedNames_of_arrow (hname : name.kind = .ident) (harrow : arrow.punctIs "=>" = true) :
    name.text ∈ nestedNames [] (before ++ name :: arrow :: after) := by
  have hfound : name.text ∈ nestedNames [] ((before ++ [name]) ++ arrow :: after) := by
    refine mem_nestedNames ?_
    rw [if_pos harrow, List.reverse_append, List.reverse_singleton, List.singleton_append,
      List.cons_append, arrowParams, if_pos hname]
    exact List.mem_singleton_self _
  rwa [List.append_assoc] at hfound

/-- **The words of a list** in front of an arrow are found.  The parenthesis in front of the arrow
closes the list, which is read backwards to its beginning. -/
theorem mem_nestedNames_of_arrowList (hopener : opener.punctIs "(" = true)
    (hinside : levelAfter 0 (inside ++ name :: behind) = some 0) (hname : name.kind = .ident)
    (hcloser : closer.punctIs ")" = true) (harrow : arrow.punctIs "=>" = true) :
    name.text ∈ nestedNames []
      (before ++ opener :: (inside ++ name :: (behind ++ closer :: arrow :: after))) := by
  have hfound : name.text ∈ nestedNames []
      ((before ++ opener :: (inside ++ name :: (behind ++ [closer]))) ++ arrow :: after) := by
    refine mem_nestedNames ?_
    rw [if_pos harrow]
    have hreverse : (before ++ opener :: (inside ++ name :: (behind ++ [closer]))).reverse ++ [] =
        closer :: ((inside ++ name :: behind).reverse ++ opener :: before.reverse) := by simp
    rw [hreverse, arrowParams_eq hopener hcloser hinside]
    exact mem_wordsOf (by simp) hname
  simpa using hfound

end

/-! ### What is read of tokens -/

namespace Token

/-- The token that has the same kind and text, and nothing in front of it. -/
def plain (t : Token) : Token := ⟨t.kind, [], t.text, .start⟩

variable (t : Token)

@[simp] theorem plain_kind : t.plain.kind = t.kind := rfl

@[simp] theorem plain_text : t.plain.text = t.text := rfl

@[simp] theorem plain_opens : t.plain.opens = t.opens := rfl

@[simp] theorem plain_closes : t.plain.closes = t.closes := rfl

@[simp] theorem plain_punctIs (text : String) : t.plain.punctIs text = t.punctIs text := rfl

@[simp] theorem plain_isAnyOf (texts : List String) : t.plain.isAnyOf texts = t.isAnyOf texts := rfl

end Token

/-- Tokens with the same words are the same without their gaps and places. -/
theorem map_plain_congr {ts us : List Token} (h : ts.map Token.word = us.map Token.word) :
    ts.map Token.plain = us.map Token.plain := by
  have hplain : ∀ ts : List Token,
      ts.map Token.plain = (ts.map Token.word).map fun word => ⟨word.1, [], word.2, .start⟩ := by
    intro ts
    rw [List.map_map]
    rfl
  rw [hplain, hplain, h]

/-- Gaps and places do not matter for the names up to a closing parenthesis, -/
theorem namesUpToClose_map_plain (depth : Nat) (ts : List Token) :
    namesUpToClose depth (ts.map Token.plain) = namesUpToClose depth ts := by
  induction ts generalizing depth with
  | nil => rfl
  | cons t ts ih => simp only [List.map_cons, namesUpToClose, ih, Token.plain_kind,
      Token.plain_text, Token.plain_opens, Token.plain_closes]

/-- nor for those back to an opening one, -/
theorem namesBackToOpen?_map_plain (depth : Nat) (ts : List Token) :
    namesBackToOpen? depth (ts.map Token.plain) = namesBackToOpen? depth ts := by
  induction ts generalizing depth with
  | nil => rfl
  | cons t ts ih => simp only [List.map_cons, namesBackToOpen?, ih, Token.plain_kind,
      Token.plain_text, Token.plain_opens, Token.plain_closes]

/-- nor for the parameters of arrows, -/
theorem arrowParams_map_plain (ts : List Token) :
    arrowParams (ts.map Token.plain) = arrowParams ts := by
  cases ts with
  | nil => rfl
  | cons t ts =>
    rw [List.map_cons, arrowParams, arrowParams, ← List.map_cons, namesBackToOpen?_map_plain]
    rfl

/-- nor for those of nested functions and of `catch` clauses. -/
theorem clauseParams_map_plain (ts : List Token) :
    clauseParams (ts.map Token.plain) = clauseParams ts := by
  have htake : (ts.map Token.plain).takeWhile (fun t => !t.punctIs "(") =
      (ts.takeWhile fun t => !t.punctIs "(").map Token.plain := by
    rw [List.takeWhile_map]
    rfl
  simp only [clauseParams, htake, List.length_map, ← List.map_drop, namesUpToClose_map_plain]

/-- **Parameter lists are found by kinds and texts.**  Gaps and places have no part in it. -/
theorem nestedNames_congr {ts us : List Token} (h : ts.map Token.word = us.map Token.word) :
    nestedNames [] ts = nestedNames [] us := by
  have hplain : ∀ before ts : List Token,
      nestedNames (before.map Token.plain) (ts.map Token.plain) = nestedNames before ts := by
    intro before ts
    induction ts generalizing before with
    | nil => rfl
    | cons t ts ih =>
      simp only [List.map_cons, nestedNames, arrowParams_map_plain, clauseParams_map_plain,
        Token.plain_kind, Token.plain_punctIs, Token.plain_isAnyOf]
      rw [← ih]
      rfl
  rw [← hplain [] ts, ← hplain [] us, map_plain_congr h]

/-- **Declared names are found by kinds and texts.**  Gaps and places have no part in it. -/
theorem declaredIn_congr {ts us : List Token} (h : ts.map Token.word = us.map Token.word) :
    declaredIn ts = declaredIn us := by
  have hmarks : ∀ (s : BindingState) (ts : List Token),
      markBindings s (ts.map Token.plain) = markBindings s ts := by
    intro s ts
    induction ts generalizing s with
    | nil => rfl
    | cons t ts ih =>
      rw [List.map_cons, markBindings_cons, markBindings_cons, ← ih]
      rfl
  have hplain : ∀ ts : List Token, declaredIn (ts.map Token.plain) = declaredIn ts := by
    intro ts
    rw [declaredIn, hmarks, List.zip_map_left, List.filterMap_map]
    rfl
  rw [← hplain ts, ← hplain us, map_plain_congr h]

end Twinfold
