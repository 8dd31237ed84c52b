import Twinfold.Proofs.Declaration.WideLines
import Twinfold.Proofs.Similarity.Verdicts

/-!
# White space and similarity

Functions are compared with white space normalised, or as they stand.  In the second case the lines
have the blanks around them, and the key of a line is the line itself, whether it can be lexed or
not (`LineForm.key_of_raw`).  The first case knows less: stripping a wide line gives the narrow one,
so its key is a function of the wide line (`Declaration.Widened.keys_eq`).  Lists of keys that are
the same, or one line apart, stay so under every function.

Hence normalising white space only adds matches (`normalizing_adds_matches`).
-/

namespace Twinfold

section

variable {rules : LineRules} {names names' : List Text} {line : Text}

/-- Where white space counts, the key of a line is the line. -/
theorem LineForm.key_of_raw (hraw : rules.normalizeWhitespace = false)
    (hnames : rules.ignoreParamNames = false) : (LineForm.of rules names line).key = line := by
  cases hlexed : tokenize line with
  | error e => exact (of_error hlexed).2
  | ok ts =>
    rw [(of_ok hnames hlexed).2, hraw]
    rfl

/-- Where names count, it does not matter for the key of a line which of them are parameters. -/
theorem LineForm.key_of_names (hnames : rules.ignoreParamNames = false) :
    (LineForm.of rules names line).key = (LineForm.of rules names' line).key := by
  cases hlexed : tokenize line with
  | error e => rw [(of_error hlexed).2, (of_error hlexed).2]
  | ok ts => rw [(of_ok hnames hlexed).2, (of_ok hnames hlexed).2]

/-- The keys of a function are told by its lines alone. -/
theorem Declaration.keys_eq (hnames : rules.ignoreParamNames = false) (d : Declaration) :
    d.keys rules = d.lines.map fun line => (LineForm.of rules [] line.text).key := by
  unfold keys FunctionForm.keys FunctionForm.of
  dsimp only
  rw [List.map_map]
  exact List.map_congr_left fun line _ => LineForm.key_of_names hnames

theorem Declaration.identical_iff {f g : Declaration} : f.compare rules g = .identical ↔
    f.signature rules = g.signature rules ∧ f.keys rules = g.keys rules :=
  compare_eq_identical_iff _ _

theorem Declaration.similar_iff {f g : Declaration} : (f.compare rules g).isSimilar = true ↔
    f.signature rules = g.signature rules ∧ OneLineApart (f.keys rules) (g.keys rules) :=
  isSimilar_compare_iff _ _

end

/-! ### One line apart -/

/-- Lists that are one line apart are so under every function. -/
theorem OneLineApart.map {xs ys : List Text} (h : OneLineApart xs ys) (f : Text → Text) :
    OneLineApart (xs.map f) (ys.map f) := by
  have herase : ∀ (xs : List Text) (i : Nat), (xs.map f).eraseIdx i = (xs.eraseIdx i).map f :=
    fun xs i => List.eraseIdx_map f xs i
  obtain heq | ⟨hlen, i, hsame⟩ | ⟨i, hi, hextra⟩ | ⟨i, hi, hextra⟩ := h
  · exact .inl (congrArg _ heq)
  · exact .inr (.inl ⟨by simpa using hlen, i, by rw [herase, herase, hsame]⟩)
  · exact .inr (.inr (.inl ⟨i, by simpa using hi, by rw [herase, hextra]⟩))
  · exact .inr (.inr (.inr ⟨i, by simpa using hi, by rw [herase, hextra]⟩))

/-! ### Functions in two ways -/

section

variable {narrow wide : LineRules} {f g f' g' : Declaration}

/-- A wide line counts the same tokens. -/
theorem Declaration.Widened.map_tokenCount (h : f.Widened f') :
    f.lines.map LogicalLine.tokenCount = f'.lines.map LogicalLine.tokenCount := by
  rw [← List.forall₂_eq_eq_eq, List.forall₂_map_left_iff, List.forall₂_map_right_iff]
  apply h.lines.imp
  intro line line' hline
  cases hline
  rfl

/-- **The keys of narrow lines are made of the wide lines.**  Functions with the same wide keys
therefore have the same narrow keys. -/
theorem Declaration.Widened.keys_eq (h : f.Widened f') (hwide : wide.normalizeWhitespace = false)
    (hnames : narrow.ignoreParamNames = false) (hnames' : wide.ignoreParamNames = false) :
    f.keys narrow = (f'.keys wide).map fun text => (LineForm.of narrow [] text.strip).key := by
  rw [Declaration.keys_eq hnames, Declaration.keys_eq hnames', List.map_map,
    ← List.forall₂_eq_eq_eq, List.forall₂_map_left_iff, List.forall₂_map_right_iff]
  apply h.lines.imp
  intro line line' hline
  rw [Function.comp_apply, LineForm.key_of_raw hwide hnames', hline.strip_text]

/-- Lines do not count in signatures. -/
theorem Declaration.Widened.signature_eq_iff (hf : f.Widened f') (hg : g.Widened g')
    (hnames : narrow.ignoreParamNames = false) (hnames' : wide.ignoreParamNames = false) :
    f.signature narrow = g.signature narrow ↔ f'.signature wide = g'.signature wide := by
  rw [hf.eq_with, hg.eq_with]
  simp only [Declaration.signature, hnames, hnames']

variable (hf : f.Widened f') (hg : g.Widened g') (hwide : wide.normalizeWhitespace = false)
  (hnames : narrow.ignoreParamNames = false) (hnames' : wide.ignoreParamNames = false)

include hf hg hwide hnames hnames'

/-- Functions that are identical as they stand are identical without the white space. -/
theorem Declaration.Widened.compare_eq_identical (h : f'.compare wide g' = .identical) :
    f.compare narrow g = .identical := by
  rw [Declaration.identical_iff] at h ⊢
  obtain ⟨hsignature, hkeys⟩ := h
  rw [hf.signature_eq_iff hg hnames hnames', hf.keys_eq hwide hnames hnames',
    hg.keys_eq hwide hnames hnames', hkeys]
  exact ⟨hsignature, rfl⟩

/-- Functions that are similar as they stand are similar without the white space. -/
theorem Declaration.Widened.isSimilar_compare (h : (f'.compare wide g').isSimilar = true) :
    (f.compare narrow g).isSimilar = true := by
  rw [Declaration.similar_iff] at h ⊢
  obtain ⟨hsignature, hapart⟩ := h
  rw [hf.signature_eq_iff hg hnames hnames', hf.keys_eq hwide hnames hnames',
    hg.keys_eq hwide hnames hnames']
  exact ⟨hsignature, hapart.map _⟩

end

/-! ### All functions of a text -/

/-- **Normalising white space only adds matches.**  Where parameters are compared by name, the same
functions are found in a text with white space normalised and without, or the same failure ends both
runs.  The functions agree in everything but the blanks around their lines; in particular they have
the same number of lines, and the lines the same numbers of tokens.  If two of the functions are
identical, or similar, when they are extracted and compared as they stand, they are so with white
space normalised. -/
theorem normalizing_adds_matches (source : Text) (options : Options)
    (hnames : options.rules.ignoreParamNames = false) :
    let narrow := extract source (options.normalizing true)
    let wide := extract source (options.normalizing false)
    narrow.failure = wide.failure ∧
      List.Forall₂ Declaration.Widened narrow.declarations wide.declarations ∧
      (narrow.declarations.map fun f => f.lines.map LogicalLine.tokenCount) =
        (wide.declarations.map fun f => f.lines.map LogicalLine.tokenCount) ∧
      ∀ (i j : Nat) (f g f' g' : Declaration),
        narrow.declarations[i]? = some f → narrow.declarations[j]? = some g →
        wide.declarations[i]? = some f' → wide.declarations[j]? = some g' →
        (f'.compare (options.normalizing false).rules g' = .identical →
          f.compare (options.normalizing true).rules g = .identical) ∧
        ((f'.compare (options.normalizing false).rules g').isSimilar = true →
          (f.compare (options.normalizing true).rules g).isSimilar = true) := by
  intro narrow wide
  obtain ⟨hfailure, hwidened⟩ := extract_widened source options
  refine ⟨hfailure, hwidened, ?counts, ?verdicts⟩
  case counts =>
    rw [← List.forall₂_eq_eq_eq, List.forall₂_map_left_iff, List.forall₂_map_right_iff]
    exact hwidened.imp fun f f' h => h.map_tokenCount
  case verdicts =>
    intro i j f g f' g' hf hg hf' hg'
    have hwide : ∀ {i : Nat} {f f' : Declaration}, narrow.declarations[i]? = some f →
        wide.declarations[i]? = some f' → f.Widened f' := by
      intro i f f' hf hf'
      obtain ⟨hi, rfl⟩ := List.getElem?_eq_some_iff.mp hf
      obtain ⟨hi', rfl⟩ := List.getElem?_eq_some_iff.mp hf'
      exact hwidened.get hi hi'
    have hleft := hwide hf hf'
    have hright := hwide hg hg'
    exact ⟨hleft.compare_eq_identical hright rfl hnames hnames,
      hleft.isSimilar_compare hright rfl hnames hnames⟩

/-- A function, a copy of it, a copy with another number, and the same function in another
layout. -/
def layouts : Text :=
  ("function f()\x7b a( 1 ); b( 2 ) \x7d\nfunction g()\x7b a( 1 ); b( 2 ) \x7d\n" ++
    "function h()\x7b a( 1 ); b( 3 ) \x7d\nfunction k()\x7ba(1);b(2)\x7d").toList

/-- As they stand, the copies match and the other layout does not, since both of its lines differ.
With white space normalised, all of them match. -/
theorem normalizing_adds_third_match :
    ∃ f g h k f' g' h' k',
      (extract layouts (Options.normalizing true {})).declarations = [f, g, h, k] ∧
      (extract layouts (Options.normalizing false {})).declarations = [f', g', h', k'] ∧
      f'.compare ⟨false, false⟩ g' = .identical ∧
      (f'.compare ⟨false, false⟩ h').isSimilar = true ∧
      (f'.compare ⟨false, false⟩ k').isSimilar = false ∧
      f.compare ⟨true, false⟩ g = .identical ∧ (f.compare ⟨true, false⟩ h).isSimilar = true ∧
      f.compare ⟨true, false⟩ k = .identical := by
  obtain ⟨-, hwidened, -, hverdicts⟩ := normalizing_adds_matches layouts {} rfl
  have hwideVerdicts : ((extract layouts (Options.normalizing false {})).declarations.take 1).map
      (fun f => (extract layouts (Options.normalizing false {})).declarations.map fun g =>
        f.compare ⟨false, false⟩ g) =
      [[.identical, .identical, .nearDuplicate (.substituted 1)
        (.expression ⟨⟨3, 4⟩, "2".toList, ⟨3, 4⟩, "3".toList⟩), .notSimilar .lines]] := by
    decide +kernel
  have hnarrowVerdict : ((extract layouts (Options.normalizing true {})).declarations.take 1).map
      (fun f => ((extract layouts (Options.normalizing true {})).declarations.drop 3).map fun g =>
        f.compare ⟨true, false⟩ g) = [[.identical]] := by
    decide +kernel
  have hlength : (extract layouts (Options.normalizing false {})).declarations.length = 4 := by
    decide +kernel
  obtain ⟨f', g', h', k', hwide⟩ := List.length_eq_four.mp hlength
  obtain ⟨f, g, h, k, hnarrow⟩ := List.length_eq_four.mp (hwidened.length_eq.trans hlength)
  rw [hwide] at hwideVerdicts
  rw [hnarrow] at hnarrowVerdict
  simp only [List.take_succ_cons, List.take_zero, List.drop_succ_cons, List.drop_zero, List.map_cons,
    List.map_nil, List.cons.injEq, and_true] at hwideVerdicts hnarrowVerdict
  obtain ⟨-, hcopy, hnear, hlayout⟩ := hwideVerdicts
  have hfirst := hverdicts 0
  rw [hwide, hnarrow] at hfirst
  refine ⟨f, g, h, k, f', g', h', k', hnarrow, hwide, hcopy, ?_, ?_, ?_, ?_, hnarrowVerdict⟩
  · rw [hnear]
    rfl
  · rw [hlayout]
    rfl
  · exact (hfirst 1 f g f' g' rfl rfl rfl rfl).1 hcopy
  · apply (hfirst 2 f h f' h' rfl rfl rfl rfl).2
    exact congrArg Verdict.isSimilar hnear

end Twinfold
