import Twinfold.Declaration.Extractor
import Twinfold.Proofs.Similarity.Alignment
import Twinfold.Proofs.Text.Split

/-!
# What signatures tell apart

Functions are compared only if their signatures agree (`compare_eq_signature_iff`).  Where parameter
names count, a signature holds the parameters as one text, with null characters between them.  That
text is all that is left of their number.  A parameter may hold a null character itself, in a string
or in a comment, and a parameter may be empty, in front of a comma.  So there are different
parameters with one text:

* `RunTogether` — different lists of parameters with the same pieces between null characters;
* `signature_exact_iff` — signatures tell apart what they should, but for these;
* `comment_joins_parameters` — one parameter with a comment, and two parameters.
-/

namespace Twinfold

/-! ### Which verdict it is -/

/-- Functions are told apart by their signatures if and only if these differ. -/
theorem FunctionForm.compare_eq_signature_iff (f g : FunctionForm) :
    f.compare g = .notSimilar .signature ↔ f.signature ≠ g.signature := by
  refine ⟨fun h hsig => ?_, compare_of_signature_ne⟩
  have hedit := edit_compare hsig
  rw [h] at hedit
  exact lineEdit_ne_signature hedit.symm

/-! ### Parameters as one text -/

/-- Different lists of parameters that are the same between null characters, where no parameter is
like one that is empty. -/
def RunTogether (params params' : List Text) : Prop :=
  params ≠ params' ∧ Text.piecesOf '\x00' params = Text.piecesOf '\x00' params'

section

variable {params params' : List Text}

/-- Lists of parameters run together only if one of their parameters holds a null character, or if
one of them is empty and the other is an empty parameter. -/
theorem RunTogether.cases (h : RunTogether params params') :
    (∃ param ∈ params ++ params', '\x00' ∈ param) ∨ (params = [] ∧ params' = [[]]) ∨
      (params = [[]] ∧ params' = []) := by
  obtain ⟨hne, hpieces⟩ := h
  by_cases hnull : ∃ param ∈ params ++ params', '\x00' ∈ param
  · exact .inl hnull
  · -- Without null characters a list is its own pieces, unless it is empty.
    have hplain : ∀ ts : List Text, ts ⊆ params ++ params' → ts ≠ [] →
        Text.piecesOf '\x00' ts = ts := fun ts hsub hts =>
      Text.piecesOf_of_not_mem hts fun t ht hmem => hnull ⟨t, hsub ht, hmem⟩
    have hleft := hplain params (List.subset_append_left _ _)
    have hright := hplain params' (List.subset_append_right _ _)
    by_cases hnone : params = []
    · subst hnone
      refine .inr (.inl ⟨rfl, ?_⟩)
      rw [hright (Ne.symm hne)] at hpieces
      exact hpieces.symm
    · by_cases hnone' : params' = []
      · subst hnone'
        refine .inr (.inr ⟨?_, rfl⟩)
        rw [hleft hnone] at hpieces
        exact hpieces
      · rw [hleft hnone, hright hnone'] at hpieces
        exact absurd hpieces hne

end

section

variable (normalize : Bool) (left right : Declaration)

/-- Where names count, signatures differ if the flavours do or the parameters in a row. -/
theorem compare_eq_signature_iff :
    left.compare ⟨normalize, false⟩ right = .notSimilar .signature ↔
      left.flavor ≠ right.flavor ∨
        Text.piecesOf '\x00' left.params ≠ Text.piecesOf '\x00' right.params := by
  have hsame : left.signature ⟨normalize, false⟩ = right.signature ⟨normalize, false⟩ ↔
      left.flavor = right.flavor ∧
        Text.piecesOf '\x00' left.params = Text.piecesOf '\x00' right.params := by
    rw [← Text.join_eq_join_iff]
    simp [Declaration.signature]
  rw [Declaration.compare, FunctionForm.compare_eq_signature_iff, ← not_and_or, ← hsame]
  rfl

/-- **Signatures are exact but for parameters that run together.**  Where names count, functions
are told apart by their signatures just when their flavours or their parameters differ, if and only
if they are not declared alike with parameters that run together.  Similar functions with different
numbers of parameters are of this kind.  It takes a null character in a parameter, or no parameter
on the one side and an empty one on the other. -/
theorem signature_exact_iff :
    ((left.compare ⟨normalize, false⟩ right = .notSimilar .signature ↔
        left.flavor ≠ right.flavor ∨ left.params ≠ right.params) ↔
      ¬(left.flavor = right.flavor ∧ RunTogether left.params right.params)) ∧
    ((left.compare ⟨normalize, false⟩ right).isSimilar →
      left.params.length ≠ right.params.length → RunTogether left.params right.params) ∧
    (RunTogether left.params right.params →
      (∃ param ∈ left.params ++ right.params, '\x00' ∈ param) ∨
        (left.params = [] ∧ right.params = [[]]) ∨ (left.params = [[]] ∧ right.params = [])) := by
  have hverdict := compare_eq_signature_iff normalize left right
  have hpieces : left.params = right.params →
      Text.piecesOf '\x00' left.params = Text.piecesOf '\x00' right.params := congrArg _
  refine ⟨?_, fun hsimilar hlength => ?_, RunTogether.cases⟩
  · rw [hverdict, RunTogether]
    tauto
  · have hagree : ¬left.compare ⟨normalize, false⟩ right = .notSimilar .signature := by
      intro hmismatch
      rw [hmismatch] at hsimilar
      cases hsimilar
    rw [hverdict, not_or, not_not, not_not] at hagree
    exact ⟨fun hsame => hlength (congrArg List.length hsame), hagree.2⟩

end

/-- Two functions, with two parameters and with one.  The comment of the second function goes on
behind a null character. -/
def commentedParameters : Text :=
  ("function f(a //\n,b)\x7breturn 1\x7d\n" ++ "function g(a //\x00b\n)\x7breturn 1\x7d").toList

/-- The two functions are identical for comparison. -/
theorem identical_commentedParameters :
    ∃ f ∈ (extract commentedParameters {}).declarations,
      ∃ g ∈ (extract commentedParameters {}).declarations,
      f.params.length = 2 ∧ g.params.length = 1 ∧ f.compare {} g = .identical := by
  decide +kernel

/-- Their parameters run together, since they are similar in spite of the numbers. -/
theorem signature_exact_of_comment :
    ∃ f ∈ (extract commentedParameters {}).declarations,
      ∃ g ∈ (extract commentedParameters {}).declarations,
      (f.compare {} g).isSimilar ∧ f.params.length ≠ g.params.length ∧
        RunTogether f.params g.params := by
  obtain ⟨f, hf, g, hg, htwo, hone, hverdict⟩ := identical_commentedParameters
  have hsimilar : (f.compare {} g).isSimilar := by
    rw [hverdict]
    rfl
  have harity : f.params.length ≠ g.params.length := by omega
  exact ⟨f, hf, g, hg, hsimilar, harity, (signature_exact_iff true f g).2.1 hsimilar harity⟩

/-- **A null character in a comment** stands for the border between two parameters.  The signature
puts this character between the parameters, and keeps comments in them. -/
theorem comment_joins_parameters :
    ¬∀ f ∈ (extract commentedParameters {}).declarations,
      ∀ g ∈ (extract commentedParameters {}).declarations,
      (f.compare {} g = .notSimilar .signature ↔ f.flavor ≠ g.flavor ∨ f.params ≠ g.params) ∧
        (f.params.length ≠ g.params.length → (f.compare {} g).isSimilar = false) := by
  intro hall
  obtain ⟨f, hf, g, hg, htwo, hone, hverdict⟩ := identical_commentedParameters
  have hnever := (hall f hf g hg).2 (by omega)
  rw [hverdict] at hnever
  cases hnever

end Twinfold
