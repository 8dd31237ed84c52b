import Twinfold.Proofs.Coalesce.ParamNames

/-!
# What is passed for a parameter

An adapter passes each of its parameters on: the word that the text of the parameter begins with,
behind the dots of a rest parameter.  It should pass the identifier that stands there.  So it does if
and only if all characters of this identifier are characters of words, and no number stands in front
of it (`passed_iff`).

For the lexer every character beyond ASCII is a letter, but for a few spaces.  A word is made of
letters in a narrower sense.  Of an `e` with a combining accent only the `e` is passed, which no
parameter is called (`accent_is_not_passed`).
-/

namespace Twinfold

/-- The dots of a rest parameter. -/
def Param.dots (param : Text) : Text := if Param.isRest param then "...".toList else []

/-- What is passed for a parameter is its first identifier, behind the dots of a rest parameter. -/
def PassesIdent (param : Text) (run : List Token) (passed : Text) : Prop :=
  ∃ t ∈ run.find? fun t => t.kind = .ident, passed = Param.dots param ++ t.text

/-- The first identifier is a word, and no number stands in front of it. -/
def BeginsWithWord (run : List Token) : Prop :=
  ∃ t ∈ run.find? fun t => t.kind = .ident || t.kind = .number,
    t.kind = .ident ∧ ∀ c ∈ t.text, Text.isWordChar c = true

instance (run : List Token) : Decidable (BeginsWithWord run) :=
  inferInstanceAs (Decidable (∃ t ∈ run.find? _, _ ∧ _))

/-! ### Words -/

/-- A text is its own leading word if all its characters are characters of words.  No character of
a word is trimmed, and the word is cut at the first other character. -/
theorem leadingWord_eq_self_iff {t : Text} :
    leadingWord t = t ↔ ∀ c ∈ t, Text.isWordChar c = true := by
  constructor
  · intro h c hc
    rw [← h] at hc
    exact List.mem_takeWhile_imp hc
  · intro h
    have htrim : t.trimStart = t := by
      cases t with
      | nil => rfl
      | cons c t =>
        refine trimStart_cons ?_ t
        by_contra hblank
        have hword := h c List.mem_cons_self
        rw [not_isWordChar_of_isBlank (by simpa using hblank)] at hword
        cases hword
    rw [leadingWord, htrim, List.takeWhile_eq_self_iff]
    exact h

/-- White space is no word. -/
theorem not_word_of_trimStart {t : Text} (hne : t ≠ []) (h : t.trimStart = []) :
    ¬∀ c ∈ t, Text.isWordChar c = true := by
  intro hword
  have hself := leadingWord_eq_self_iff.mpr hword
  rw [leadingWord, h] at hself
  exact hne hself.symm

/-! ### One parameter -/

theorem kind_of_find? {ts : List Token} {t : Token}
    (h : ts.find? (fun t => t.kind = .ident) = some t) : t.kind = .ident := by
  simpa using List.find?_some h

section

variable {previous : Option Token} {before after : List Token} {t : Token} {name tail : Text}

/-- **The name is the first identifier** among the tokens if and only if this is a word.  If the
token that gives the name is an identifier, it is the first one, and it begins with the name;
whether it is the name depends on how it goes on. -/
theorem name_iff_of_givesName (hspells : Spells previous (before ++ t :: after) tail)
    (hbefore : ∀ u ∈ before, u.Nameless) (hname : t.GivesName name) (hne : name ≠ [])
    (hword : ∀ c ∈ name, Text.isWordChar c = true) :
    (∃ u ∈ (before ++ t :: after).find? fun t => t.kind = .ident, name = u.text) ↔
      BeginsWithWord (before ++ t :: after) := by
  have hsame : before.find? (fun t => t.kind = .ident || t.kind = .number) =
      before.find? fun t => t.kind = .ident :=
    List.find?_congr fun u hu => by simp [(hbefore u hu).kind_ne_number]
  unfold BeginsWithWord
  rw [List.find?_append, List.find?_append, hsame]
  cases hfind : before.find? fun t => t.kind = .ident with
  | some u =>
    -- White space in front of the name that the lexer takes for an identifier.
    have hmem := List.mem_of_find?_eq_some hfind
    have hkind : u.kind = .ident := kind_of_find? hfind
    have hblank : u.text.trimStart = [] := by
      rcases hbefore u hmem with hpunct | ⟨-, hblank⟩
      · rw [hpunct] at hkind
        cases hkind
      · exact hblank
    have hnot := not_word_of_trimStart (hspells.text_ne_nil u (by simp [hmem])) hblank
    simp only [Option.some_or, Option.mem_def, Option.some.injEq, exists_eq_left']
    constructor
    · rintro rfl
      exact absurd hword hnot
    · exact fun h => absurd h.2 hnot
  | none =>
    simp only [Option.none_or]
    rcases hname with ⟨hident, hleading⟩ | ⟨hnumber, hdigit⟩
    · rw [List.find?_cons_of_pos (by simp [hident]), List.find?_cons_of_pos (by simp [hident])]
      simp only [Option.mem_def, Option.some.injEq, exists_eq_left']
      rw [← hleading, leadingWord_eq_self_iff]
      exact ⟨fun h => ⟨hident, h⟩, And.right⟩
    · -- A name that begins with a digit is no identifier.
      rw [List.find?_cons_of_neg (by simp [hnumber]), List.find?_cons_of_pos (by simp [hnumber])]
      constructor
      · rintro ⟨u, hu, rfl⟩
        obtain ⟨front, behind, rfl⟩ := List.append_of_mem (List.mem_of_find?_eq_some hu)
        obtain ⟨-, -, -, hbehind⟩ := spells_append_iff.mp hspells
        obtain ⟨-, -, hreads, -⟩ := spells_append_iff.mp hbehind
        have hkind : u.kind = .ident := kind_of_find? hu
        rw [hkind] at hreads
        obtain ⟨c, body, htext, hbegins, -⟩ := exists_head_of_ident hreads
        rw [hdigit c (by rw [htext]; rfl)] at hbegins
        cases hbegins
      · rintro ⟨u, hu, hkind, -⟩
        cases hu
        rw [hnumber] at hkind
        cases hkind

end

/-! ### All parameters -/

/-- **What is passed for a parameter is the identifier that it begins with, if and only if this is a
word.**  For every parameter there is one text that is passed. -/
theorem passed_iff {source : Text} {options : Options} {d : Declaration} {passed : List Text}
    (hd : d ∈ (extract source options).declarations) (hpassed : d.passedParams? = some passed) :
    passed.length = d.params.length ∧
      ∀ (i : Nat) (param arg : Text), d.params[i]? = some param → passed[i]? = some arg →
        ∃ run, (d.paramRuns source)[i]? = some run ∧
          (PassesIdent param run arg ↔ BeginsWithWord run) := by
  have hmap := map_eq_of_mapM hpassed
  refine ⟨by simpa using (congrArg List.length hmap).symm, fun i param arg hparam harg => ?_⟩
  have hat := congrArg (fun texts => texts[i]?) hmap
  simp only [List.getElem?_map, hparam, harg, Option.map_some, Option.some.injEq] at hat
  rw [Option.ite_none_left_eq_some] at hat
  obtain ⟨name, hname, harg⟩ := Option.map_eq_some_iff.mp hat.2
  obtain ⟨run, hrun, -, previous, gap, behind, hspells, hgap, rfl⟩ := exists_run_of_params hd hparam
  refine ⟨run, hrun, ?_⟩
  obtain ⟨hleading, hne⟩ := name?_eq_some_iff.mp hname
  have hword : ∀ c ∈ name, Text.isWordChar c = true := by
    intro c hc
    rw [← hleading] at hc
    exact List.mem_takeWhile_imp hc
  obtain ⟨before, t, after, rfl, hbefore, hgives⟩ := exists_token_of_name? hspells hgap hname
  rw [← name_iff_of_givesName hspells hbefore hgives hne hword, PassesIdent, ← harg, Param.dots]
  split <;> simp

/-- Two parameters that are words, the second of them a rest parameter. -/
theorem passed_of_words :
    ∃ d ∈ (extract "function f(a, ...b)\x7breturn 1\x7d".toList {}).declarations,
      d.passedParams? = some ["a".toList, "...b".toList] ∧
      ∀ (i : Nat) (param arg : Text), d.params[i]? = some param →
        ["a".toList, "...b".toList][i]? = some arg →
        ∃ run, (d.paramRuns "function f(a, ...b)\x7breturn 1\x7d".toList)[i]? = some run ∧
          PassesIdent param run arg := by
  have hwords : ∃ d ∈ (extract "function f(a, ...b)\x7breturn 1\x7d".toList {}).declarations,
      d.passedParams? = some ["a".toList, "...b".toList] ∧
      ∀ run ∈ d.paramRuns "function f(a, ...b)\x7breturn 1\x7d".toList, BeginsWithWord run := by
    decide +kernel
  obtain ⟨d, hd, hpassed, hwords⟩ := hwords
  refine ⟨d, hd, hpassed, fun i param arg hparam harg => ?_⟩
  obtain ⟨run, hrun, hiff⟩ := (passed_iff hd hpassed).2 i param arg hparam harg
  exact ⟨run, hrun, hiff.mpr (hwords run (List.mem_of_getElem? hrun))⟩

/-- Two functions with a parameter that is an `e` with a combining accent. -/
def accentedParameters : Text :=
  ("function f(e\u0301)\x7breturn 1\x7d\n" ++ "function g(e\u0301)\x7breturn 1\x7d").toList

/-- **An accent is not passed.**  What is passed is the `e` without it.  For the lexer the accent
belongs to the identifier. -/
theorem accent_is_not_passed :
    ¬∀ d ∈ (extract accentedParameters {}).declarations, ∀ passed,
      d.passedParams? = some passed → passed.length = d.params.length ∧
        ∀ (i : Nat) (arg : Text), passed[i]? = some arg →
          ∃ run, (d.paramRuns accentedParameters)[i]? = some run ∧
            ∃ t ∈ run.find? fun t => t.kind = .ident,
              arg = t.text ∨ arg = "...".toList ++ t.text := by
  intro hall
  have haccent : ∃ d ∈ (extract accentedParameters {}).declarations,
      d.passedParams? = some ["e".toList] ∧
      ∀ run ∈ d.paramRuns accentedParameters, ∀ t ∈ run.find? fun t => t.kind = .ident,
        t.text = "e\u0301".toList := by
    decide +kernel
  obtain ⟨d, hd, hpassed, hident⟩ := haccent
  obtain ⟨run, hrun, t, ht, harg⟩ := (hall d hd _ hpassed).2 0 _ rfl
  rw [hident run (List.mem_of_getElem? hrun) t ht] at harg
  revert harg
  decide

end Twinfold
