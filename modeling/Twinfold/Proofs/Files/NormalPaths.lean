import Twinfold.Files.Path
import Twinfold.Proofs.Text.Split

/-!
# Paths in normal form

A path comes to a stack of components, the last one on top.  One step, along a name or one directory
up, keeps the stack normal (`Normal.push`): at the bottom stands the root, or there stand ways up,
and above that there are names only.  So a walk along the steps of a path does
(`Normal.foldl_push`), and a walk along the components of a normal stack gives the stack back
(`Normal.foldl_push_reverse`).

What a normal stack is written as has the components it was written from
(`components_ofComponents`), so normal forms are their own normal forms.  A path that is joined to
another one adds its steps to the walk (`components_joinTo`); the walk goes on from the same stack,
whether or not the first path was brought into normal form before.
-/

namespace Twinfold.Path

/-- A name that a component between slashes can have. -/
def Ordinary (name : Text) : Prop :=
  name ≠ [] ∧ name ≠ ['.'] ∧ name ≠ ['.', '.'] ∧ '/' ∉ name

/-- The path is the root and ordinary names below it. -/
def FromRoot (p : Path) : Prop :=
  ∃ names, (∀ name ∈ names, Ordinary name) ∧ p = '/' :: Text.join ['/'] names

/-- The path goes some directories up and then along ordinary names. -/
def FromHere (p : Path) : Prop :=
  ∃ ups names, (∀ name ∈ names, Ordinary name) ∧
    p = Text.join ['/'] (List.replicate ups ['.', '.'] ++ names)

/-- Normal components, of which the last comes first. -/
inductive Normal : (absolute : Bool) → List Component → Prop
  | root : Normal true [.root]
  | ups (n : Nat) : Normal false (List.replicate n .parent)
  | name {absolute : Bool} {t : Text} {above : List Component} (ht : Ordinary t)
      (habove : Normal absolute above) : Normal absolute (.name t :: above)

/-- The components that the pieces between slashes write. -/
def steps (p : Path) : List Component := (Text.split '/' p).filterMap component?

section

variable {absolute : Bool} {above : List Component} {c : Component}

/-- What stands between slashes goes one directory up or along an ordinary name. -/
theorem mem_steps {p : Path} (h : c ∈ steps p) :
    c = .parent ∨ ∃ t, c = .name t ∧ Ordinary t := by
  obtain ⟨piece, hpiece, hc⟩ := List.mem_filterMap.mp h
  have hslash := Text.not_mem_of_mem_split hpiece
  unfold component? at hc
  split_ifs at hc with hidle hparent
  · exact .inl (Option.some.inj hc).symm
  · simp only [Bool.or_eq_true, List.isEmpty_iff, decide_eq_true_eq, not_or] at hidle
    exact .inr ⟨piece, (Option.some.inj hc).symm, hidle.1, hidle.2, hparent, hslash⟩

/-- **A step keeps components normal.**  A way up takes a name away if there is one on top, and is
put on top otherwise, unless the path begins at the root. -/
theorem Normal.push (h : Normal absolute above) (hc : c = .parent ∨ ∃ t, c = .name t ∧ Ordinary t) :
    Normal absolute (Path.push above c) := by
  obtain rfl | ⟨t, rfl, ht⟩ := hc
  · cases h with
    | root => exact .root
    | ups n =>
      cases n with
      | zero => exact .ups 1
      | succ n => exact .ups (n + 2)
    | name ht habove => exact habove
  · exact .name ht h

/-- A walk along steps keeps components normal. -/
theorem Normal.foldl_push (h : Normal absolute above) {cs : List Component}
    (hcs : ∀ c ∈ cs, c = .parent ∨ ∃ t, c = .name t ∧ Ordinary t) :
    Normal absolute (cs.foldl Path.push above) := by
  induction cs generalizing above with
  | nil => exact h
  | cons c cs ih =>
    obtain ⟨hc, hcs⟩ := List.forall_mem_cons.mp hcs
    exact ih (h.push hc) hcs

/-- **Normal components stay as they are.**  Pushed one after the other they come to lie as they
were. -/
theorem Normal.foldl_push_reverse (h : Normal absolute above) :
    above.reverse.foldl Path.push [] = above := by
  induction h with
  | root => rfl
  | ups n =>
    rw [List.reverse_replicate]
    induction n with
    | zero => rfl
    | succ n ih =>
      rw [List.replicate_succ', List.foldl_append, ih, ← List.replicate_succ', List.replicate_succ]
      cases n <;> rfl
  | name ht habove ih =>
    rw [List.reverse_cons, List.foldl_append, ih]
    rfl

end

/-! ### Components of a path -/

theorem components_eq (p : Path) :
    p.components = (if p.isAbsolute then [.root] else []) ++ steps p := rfl

theorem steps_append_slash (p q : Path) : steps (p ++ '/' :: q) = steps p ++ steps q := by
  rw [steps, Text.split_append_cons, List.filterMap_append]
  rfl

/-- Whether a path starts at the root can be seen from its front. -/
theorem isAbsolute_append {p : Path} (hp : p ≠ []) (q : Path) :
    isAbsolute (p ++ q) = p.isAbsolute := by
  cases p with
  | nil => exact absurd rfl hp
  | cons c p => rfl

/-- **A path seen from a directory** takes the steps of both.  Whether the joined path begins at
the root is decided by the directory. -/
theorem components_joinTo {q : Path} (hq : q.isAbsolute = false) (p : Path) :
    components (joinTo p q) = p.components ++ steps q := by
  unfold joinTo
  rw [if_neg (by simp [hq])]
  by_cases hp : p = []
  · subst hp
    rw [components_eq, List.isEmpty_nil, Bool.true_or, if_pos rfl, List.nil_append, hq]
    rfl
  · have hempty : p.isEmpty = false := by simpa using hp
    by_cases hslash : p.getLast? = some '/'
    · rw [if_pos (by simp [hslash]), components_eq, isAbsolute_append hp, components_eq,
        List.append_assoc]
      obtain ⟨front, rfl⟩ := List.getLast?_eq_some_iff.mp hslash
      -- The slash at the end writes no component.
      rw [List.append_assoc, List.singleton_append, steps_append_slash, steps_append_slash]
      simp [steps, Text.split, component?]
    · rw [if_neg (by simp [hslash, hempty]), components_eq, isAbsolute_append hp, components_eq,
        steps_append_slash, List.append_assoc]

/-- What a path comes to, the last component first. -/
theorem normal_components (p : Path) : Normal p.isAbsolute (p.components.foldl push []) := by
  rw [components_eq]
  cases p.isAbsolute with
  | true => exact Normal.root.foldl_push fun c hc => mem_steps hc
  | false => exact (Normal.ups 0).foldl_push fun c hc => mem_steps hc

/-! ### Normal paths -/

section

variable {above : List Component} {names pieces : List Text}

/-- Below the root there are ordinary names. -/
theorem Normal.of_root (h : Normal true above) :
    ∃ names : List Text, (∀ name ∈ names, Ordinary name) ∧
      above.reverse = .root :: names.map Component.name := by
  induction above with
  | nil => cases h
  | cons c above ih =>
    cases h with
    | root => exact ⟨[], nofun, rfl⟩
    | @name _ t _ ht habove =>
      obtain ⟨names, hnames, hreverse⟩ := ih habove
      refine ⟨names ++ [t], List.forall_mem_append.mpr ⟨hnames, by simpa using ht⟩, ?_⟩
      rw [List.reverse_cons, hreverse]
      simp

/-- Behind the ways up there are ordinary names. -/
theorem Normal.of_ups (h : Normal false above) :
    ∃ (n : Nat) (names : List Text), (∀ name ∈ names, Ordinary name) ∧
      above.reverse = List.replicate n Component.parent ++ names.map Component.name := by
  generalize habsolute : false = absolute at h
  induction h with
  | root => cases habsolute
  | ups n => exact ⟨n, [], nofun, by simp⟩
  | @name _ t _ ht habove ih =>
    obtain ⟨n, names, hnames, hreverse⟩ := ih habsolute
    refine ⟨n, names ++ [t], List.forall_mem_append.mpr ⟨hnames, by simpa using ht⟩, ?_⟩
    rw [List.reverse_cons, hreverse]
    simp

/-- Ordinary names above normal components. -/
theorem Normal.append {absolute : Bool} (h : Normal absolute above)
    (hnames : ∀ name ∈ names, Ordinary name) :
    Normal absolute ((names.map Component.name).reverse ++ above) := by
  induction names generalizing above with
  | nil => exact h
  | cons name names ih =>
    obtain ⟨hname, hrest⟩ := List.forall_mem_cons.mp hnames
    rw [List.map_cons, List.reverse_cons, List.append_assoc]
    exact ih (.name hname h) hrest

/-- Names are written as they are. -/
theorem map_pieceOf_names (names : List Text) :
    (names.map Component.name).map pieceOf = names := by
  rw [List.map_map]
  exact List.map_id names

/-- Components behind the root are written with a slash in front. -/
theorem ofComponents_root (names : List Text) :
    ofComponents (.root :: names.map Component.name) = '/' :: Text.join ['/'] names := by
  cases names with
  | nil => rfl
  | cons name names =>
    simp only [List.map_cons, ofComponents, map_pieceOf_names, pieceOf]
    rw [Text.join_cons_cons]
    rfl

/-- Steps upwards and names are written as pieces of a relative path. -/
theorem ofComponents_ups (n : Nat) (names : List Text) :
    ofComponents (List.replicate n Component.parent ++ names.map Component.name) =
      Text.join ['/'] (List.replicate n ['.', '.'] ++ names) := by
  unfold ofComponents
  split
  · rename_i heq
    cases n with
    | zero => cases names <;> simp at heq
    | succ n => simp [List.replicate_succ] at heq
  · rw [List.map_append, List.map_replicate, map_pieceOf_names]
    rfl

/-- Below the root a path has names, and nothing else. -/
theorem fromRoot_iff {p : Path} :
    FromRoot p ↔ ∃ above, Normal true above ∧ p = ofComponents above.reverse := by
  constructor
  · intro h
    obtain ⟨names, hnames, rfl⟩ := h
    refine ⟨_, Normal.root.append hnames, ?_⟩
    simp [ofComponents_root]
  · intro h
    obtain ⟨above, habove, rfl⟩ := h
    obtain ⟨names, hnames, hreverse⟩ := habove.of_root
    exact ⟨names, hnames, by rw [hreverse, ofComponents_root]⟩

/-- A path that does not begin at the root has ways up, and names behind them. -/
theorem fromHere_iff {p : Path} :
    FromHere p ↔ ∃ above, Normal false above ∧ p = ofComponents above.reverse := by
  constructor
  · intro h
    obtain ⟨n, names, hnames, rfl⟩ := h
    refine ⟨_, (Normal.ups n).append hnames, ?_⟩
    simp [ofComponents_ups]
  · intro h
    obtain ⟨above, habove, rfl⟩ := h
    obtain ⟨n, names, hnames, hreverse⟩ := habove.of_ups
    exact ⟨n, names, hnames, by rw [hreverse, ofComponents_ups]⟩

/-- The steps of joined pieces are those of the pieces. -/
theorem steps_join (h : ∀ piece ∈ pieces, '/' ∉ piece) :
    steps (Text.join ['/'] pieces) = pieces.filterMap component? := by
  rw [steps, Text.split_join]
  by_cases hpieces : pieces = []
  · subst hpieces
    rfl
  · rw [Text.piecesOf_of_not_mem hpieces h]

/-- Ordinary names are read as names. -/
theorem filterMap_ordinary (h : ∀ name ∈ names, Ordinary name) :
    names.filterMap component? = names.map Component.name := by
  rw [← List.filterMap_eq_map]
  apply List.filterMap_congr
  intro name hname
  obtain ⟨hempty, hdot, hdots, -⟩ := h name hname
  simp [component?, hempty, hdot, hdots]

/-- Pieces without slashes, none of which is empty, make up a relative path. -/
theorem isAbsolute_join (h : ∀ piece ∈ pieces, piece ≠ [] ∧ '/' ∉ piece) :
    isAbsolute (Text.join ['/'] pieces) = false := by
  cases pieces with
  | nil => rfl
  | cons piece pieces =>
    obtain ⟨hne, hslash⟩ := h piece List.mem_cons_self
    obtain ⟨c, piece, rfl⟩ := List.exists_cons_of_ne_nil hne
    have hc : isAbsolute (c :: piece) = false := by
      apply decide_eq_false
      intro hc
      exact hslash (hc ▸ List.mem_cons_self)
    cases pieces with
    | nil => simpa [Text.join] using hc
    | cons piece' pieces =>
      rw [Text.join_cons_cons, isAbsolute_append (List.cons_ne_nil _ _), hc]

/-- **Normal paths have their components.**  They are steps upwards and then names in a relative
path, and names only behind a root. -/
theorem components_ofComponents {absolute : Bool} (h : Normal absolute above) :
    components (ofComponents above.reverse) = above.reverse := by
  cases absolute with
  | true =>
    obtain ⟨names, hnames, hreverse⟩ := h.of_root
    have hslash : ∀ name ∈ names, '/' ∉ name := fun name hname => (hnames name hname).2.2.2
    have hsteps : steps ('/' :: Text.join ['/'] names) = names.map Component.name := by
      have happend := steps_append_slash [] (Text.join ['/'] names)
      rw [List.nil_append] at happend
      rw [happend, steps_join hslash, filterMap_ordinary hnames]
      rfl
    rw [hreverse, ofComponents_root, components_eq, hsteps]
    rfl
  | false =>
    obtain ⟨n, names, hnames, hreverse⟩ := h.of_ups
    have hpieces : ∀ piece ∈ List.replicate n ['.', '.'] ++ names, piece ≠ [] ∧ '/' ∉ piece := by
      intro piece hpiece
      obtain hup | hname := List.mem_append.mp hpiece
      · rw [List.eq_of_mem_replicate hup]
        decide
      · exact ⟨(hnames piece hname).1, (hnames piece hname).2.2.2⟩
    have hups : (List.replicate n ['.', '.']).filterMap component? =
        List.replicate n Component.parent :=
      List.filterMap_replicate_of_some (by decide)
    rw [hreverse, ofComponents_ups, components_eq, isAbsolute_join hpieces,
      steps_join fun piece hpiece => (hpieces piece hpiece).2, List.filterMap_append, hups,
      filterMap_ordinary hnames]
    rfl

end

/-! ### Normal forms -/

section

variable {p : Path}

theorem normalize_eq (p : Path) :
    p.normalize = ofComponents (p.components.foldl push []).reverse := rfl

/-- A walk comes to the same along a normal form. -/
theorem foldl_push_normalize (p : Path) :
    p.normalize.components.foldl push [] = p.components.foldl push [] := by
  have hnormal := normal_components p
  rw [normalize_eq, components_ofComponents hnormal, hnormal.foldl_push_reverse]

theorem fromRoot_normalize (h : p.isAbsolute = true) : FromRoot p.normalize :=
  fromRoot_iff.mpr ⟨_, h ▸ normal_components p, rfl⟩

theorem fromHere_normalize (h : p.isAbsolute = false) : FromHere p.normalize :=
  fromHere_iff.mpr ⟨_, h ▸ normal_components p, rfl⟩

/-- **Fixed points.**  The paths in normal form are those that stay as they are.  Either form is
what normalizing leads to, and normalizing it again changes nothing. -/
theorem normalize_eq_self_iff : p.normalize = p ↔ FromRoot p ∨ FromHere p := by
  have hfixed : ∀ {absolute above}, Normal absolute above →
      (ofComponents above.reverse).normalize = ofComponents above.reverse := by
    intro absolute above habove
    rw [normalize_eq, components_ofComponents habove, habove.foldl_push_reverse]
  constructor
  · intro h
    cases habsolute : p.isAbsolute with
    | true => exact .inl (h ▸ fromRoot_normalize habsolute)
    | false => exact .inr (h ▸ fromHere_normalize habsolute)
  · intro h
    obtain hroot | hhere := h
    · obtain ⟨above, habove, rfl⟩ := fromRoot_iff.mp hroot
      exact hfixed habove
    · obtain ⟨above, habove, rfl⟩ := fromHere_iff.mp hhere
      exact hfixed habove

/-- **Joining after normalising** comes to the same as joining before.  Normalising is going over
the components with a stack, and may stop and go on anywhere. -/
theorem normalize_joinTo (p q : Path) :
    (joinTo p q).normalize = (joinTo p.normalize q).normalize := by
  by_cases hq : q.isAbsolute = true
  · simp only [joinTo, hq, if_true]
  · rw [Bool.not_eq_true] at hq
    rw [normalize_eq, normalize_eq, components_joinTo hq, components_joinTo hq, List.foldl_append,
      List.foldl_append, foldl_push_normalize]

/-- What is joined to an absolute path is absolute. -/
theorem isAbsolute_joinTo (h : p.isAbsolute = true) (q : Path) :
    (joinTo p q).isAbsolute = true := by
  have hp : p ≠ [] := by
    intro hp
    rw [hp] at h
    cases h
  unfold joinTo
  split_ifs with hq
  · exact hq
  · rw [isAbsolute_append hp, h]
  · rw [isAbsolute_append hp, h]

/-- **A way up undoes the name before it.**  That the name may be a link has no part in it, since
the file system is not asked. -/
theorem normalize_joinTo_parent {name : Text} (hname : Ordinary name) (p : Path) :
    (joinTo (joinTo p name) ['.', '.']).normalize = p.normalize := by
  have hrelative : isAbsolute name = false := by
    have hjoin : isAbsolute (Text.join ['/'] [name]) = false :=
      isAbsolute_join (by simpa using ⟨hname.1, hname.2.2.2⟩)
    simpa [Text.join] using hjoin
  have hstep : steps name = [.name name] := by
    have hjoin : steps (Text.join ['/'] [name]) = [name].filterMap component? :=
      steps_join (by simpa using hname.2.2.2)
    rw [filterMap_ordinary (by simpa using hname)] at hjoin
    simpa [Text.join] using hjoin
  rw [normalize_eq, components_joinTo rfl, components_joinTo hrelative, hstep, List.foldl_append,
    List.foldl_append]
  rfl

end

/-- **Normalising is a projection, and joining respects it.**  The normal form of an absolute path
is the root and ordinary names below it, without dots, repeated slashes or a slash at the end; that
of a relative path goes some directories up and then along ordinary names.  The paths of these forms
are those that stay as they are, so a normal form is its own normal form.  It makes no difference
whether a path is brought into normal form before another one is joined to it; a way up undoes the
name before it, and no ways up lead above the root. -/
theorem normalize_projects (p q : Path) :
    (p.isAbsolute = true → FromRoot p.normalize ∧ FromRoot (joinTo p q).normalize) ∧
      (p.isAbsolute = false → FromHere p.normalize) ∧
      p.normalize.normalize = p.normalize ∧
      (p.normalize = p ↔ FromRoot p ∨ FromHere p) ∧
      (joinTo p q).normalize = (joinTo p.normalize q).normalize ∧
      ∀ name, Ordinary name → (joinTo (joinTo p name) ['.', '.']).normalize = p.normalize := by
  refine ⟨?absolute, fromHere_normalize, ?projection, normalize_eq_self_iff, normalize_joinTo p q,
    ?parent⟩
  case absolute =>
    intro habsolute
    exact ⟨fromRoot_normalize habsolute, fromRoot_normalize (isAbsolute_joinTo habsolute q)⟩
  case projection =>
    rw [normalize_eq, foldl_push_normalize, ← normalize_eq]
  case parent =>
    intro name hname
    exact normalize_joinTo_parent hname p

/-- More ways up than names, and a relative path that leaves the directory it is seen from. -/
theorem normalize_projects_dots :
    FromRoot (normalize "/a/./../..//b/".toList) ∧
      FromRoot (joinTo "/a/./../..//b/".toList "../../../c".toList).normalize ∧
      FromHere (normalize "a/../../b/./c/..".toList) ∧
      (joinTo (joinTo "a/../../b/./c/..".toList "..d".toList) ['.', '.']).normalize =
        normalize "a/../../b/./c/..".toList := by
  have hname : Ordinary "..d".toList := by
    unfold Ordinary
    decide
  obtain ⟨habsolute, -⟩ := normalize_projects "/a/./../..//b/".toList "../../../c".toList
  obtain ⟨-, hrelative, -, -, -, hparent⟩ := normalize_projects "a/../../b/./c/..".toList []
  exact ⟨(habsolute rfl).1, (habsolute rfl).2, hrelative rfl, hparent _ hname⟩

example : normalize "/a/./../..//b/".toList = "/b".toList ∧
    normalize "a/../../b/./c/..".toList = "../b".toList := by decide

end Twinfold.Path
