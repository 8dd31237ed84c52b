import Twinfold.Proofs.Declaration.Readings
import Twinfold.Proofs.Text.Splice

/-!
# Regions

A region begins behind the first start marker of a text and ends in front of the first end marker
after it (`Region.Bounds`).  Whether a declaration is in the region is asked of its word
`function`, and this word lies between the two bounds.  An `async` in front of it may stand before
the region, and then the declaration begins there.

* `window?_eq_some_iff` — the window that is computed is the one the markers tell;
* `starts_in_region` — a declaration begins in front of the end of the region, and behind its
  beginning unless the region begins between `async` and `function`;
* `async_in_front_of_region` — a start marker between the two words.
-/

namespace Twinfold

/-! ### Markers -/

/-- The text stands in the source at an offset. -/
def Occurs (source text : Text) (n : Nat) : Prop := StandsAt source n (n + text.size) text

/-- The text stands in the source at an offset, and not before it from the offset `low` on. -/
structure OccursFirst (source text : Text) (low n : Nat) : Prop where
  low_le : low ≤ n
  occurs : Occurs source text n
  first : ∀ m, low ≤ m → Occurs source text m → n ≤ m

/-- The bounds of a region: the end of the first start marker, and the start of the first end
marker at or behind it. -/
def Region.Bounds (r : Region) (source : Text) (low high : Nat) : Prop :=
  ∃ first, OccursFirst source r.start 0 first ∧ low = first + r.start.size ∧
    OccursFirst source r.stop low high

/-- A marker of the region is missing. -/
def Region.Missing (r : Region) (source : Text) : Prop :=
  (∀ n, ¬Occurs source r.start n) ∨
    ∃ first, OccursFirst source r.start 0 first ∧
      ∀ n, first + r.start.size ≤ n → ¬Occurs source r.stop n

section

variable {source text front behind : Text} {low n m : Nat}

/-- Where a text occurs, said with what stands before and behind it. -/
theorem occurs_iff : Occurs source text n ↔
    ∃ before behind, source = before ++ (text ++ behind) ∧ n = before.size := by
  constructor
  · rintro ⟨before, behind, hsource, hn, -⟩
    exact ⟨before, behind, hsource, hn⟩
  · rintro ⟨before, behind, hsource, rfl⟩
    exact ⟨before, behind, hsource, rfl, (Text.size_append _ _).symm⟩

theorem occurs_nil_iff : Occurs [] text n ↔ text = [] ∧ n = 0 := by
  simp [occurs_iff, eq_comm]

/-- A text occurs at the front of another, or behind its first character. -/
theorem occurs_cons_iff {c : Char} {t : Text} :
    Occurs (c :: t) text n ↔
      (n = 0 ∧ text <+: c :: t) ∨ ∃ m, n = c.utf8Size + m ∧ Occurs t text m := by
  simp only [occurs_iff]
  constructor
  · rintro ⟨before, behind, hsource, rfl⟩
    rcases before with _ | ⟨d, before⟩
    · exact .inl ⟨rfl, behind, hsource.symm⟩
    · obtain ⟨rfl, hrest⟩ := List.cons.inj hsource
      exact .inr ⟨Text.size before, rfl, before, behind, hrest, rfl⟩
  · rintro (⟨rfl, behind, hsource⟩ | ⟨_, rfl, before, behind, rfl, rfl⟩)
    · exact ⟨[], behind, hsource.symm, rfl⟩
    · exact ⟨c :: before, behind, rfl, rfl⟩

/-- What occurs behind a front of the source occurs in the rest. -/
theorem occurs_append_iff :
    Occurs (front ++ behind) text (front.size + n) ↔ Occurs behind text n := by
  simp only [occurs_iff]
  constructor
  · rintro ⟨before, tail, hsource, hn⟩
    obtain ⟨between, rfl, hbehind⟩ := exists_behind_of_size hsource (by omega)
    rw [Text.size_append] at hn
    exact ⟨between, tail, hbehind, by omega⟩
  · rintro ⟨before, tail, rfl, rfl⟩
    exact ⟨front ++ before, tail, by simp, by simp⟩

/-- The first occurrence behind a front that lies before all of them is the first one in what comes
behind. -/
theorem occursFirst_append_iff : OccursFirst (front ++ behind) text front.size (front.size + n) ↔
    OccursFirst behind text 0 n := by
  constructor
  · rintro ⟨-, hoccurs, hfirst⟩
    refine ⟨Nat.zero_le _, occurs_append_iff.mp hoccurs, fun m _ hm => ?_⟩
    have := hfirst (front.size + m) (Nat.le_add_right _ _) (occurs_append_iff.mpr hm)
    omega
  · rintro ⟨-, hoccurs, hfirst⟩
    refine ⟨Nat.le_add_right _ _, occurs_append_iff.mpr hoccurs, fun m hlow hm => ?_⟩
    obtain ⟨m, rfl⟩ := Nat.exists_eq_add_of_le hlow
    have := hfirst m (Nat.zero_le _) (occurs_append_iff.mp hm)
    omega

theorem OccursFirst.unique (h : OccursFirst source text low n) (h' : OccursFirst source text low m) :
    n = m :=
  Nat.le_antisymm (h.first m h'.low_le h'.occurs) (h'.first n h.low_le h.occurs)

/-- A search finds the first occurrence, if there is one.  The search goes along the characters and
counts their bytes. -/
theorem find?_spec (text source : Text) :
    (∀ n, Text.find? text source = some n → OccursFirst source text 0 n) ∧
      (Text.find? text source = none → ∀ n, ¬Occurs source text n) := by
  induction source with
  | nil =>
    rw [Text.find?]
    split
    · rename_i hempty
      rw [List.isEmpty_iff] at hempty
      refine ⟨fun n hn => ?_, nofun⟩
      obtain rfl := Option.some_inj.mp hn
      exact ⟨le_rfl, occurs_nil_iff.mpr ⟨hempty, rfl⟩, fun m _ _ => Nat.zero_le m⟩
    · rename_i hne
      exact ⟨nofun, fun _ n hn => hne (List.isEmpty_iff.mpr (occurs_nil_iff.mp hn).1)⟩
  | cons c t ih =>
    rw [Text.find?]
    split
    · rename_i hprefix
      rw [List.isPrefixOf_iff_prefix] at hprefix
      refine ⟨fun n hn => ?_, nofun⟩
      obtain rfl := Option.some_inj.mp hn
      exact ⟨le_rfl, occurs_cons_iff.mpr (.inl ⟨rfl, hprefix⟩), fun m _ _ => Nat.zero_le m⟩
    · rename_i hprefix
      rw [List.isPrefixOf_iff_prefix] at hprefix
      have hbehind : ∀ {m}, Occurs (c :: t) text m → ∃ k, m = c.utf8Size + k ∧ Occurs t text k :=
        fun hm => (occurs_cons_iff.mp hm).resolve_left fun hfront => hprefix hfront.2
      refine ⟨fun n hn => ?_, fun hnone n hn => ?_⟩
      · obtain ⟨k, hk, rfl⟩ := Option.map_eq_some_iff.mp hn
        obtain ⟨-, hoccurs, hfirst⟩ := ih.1 k hk
        refine ⟨Nat.zero_le _, occurs_cons_iff.mpr (.inr ⟨k, rfl, hoccurs⟩), fun m _ hm => ?_⟩
        obtain ⟨j, rfl, hj⟩ := hbehind hm
        exact Nat.add_le_add_left (hfirst j (Nat.zero_le _) hj) _
      · obtain ⟨k, -, hk⟩ := hbehind hn
        exact ih.2 (Option.map_eq_none_iff.mp hnone) k hk

/-- A search finds the first occurrence, -/
theorem find?_eq_some_iff : Text.find? text source = some n ↔ OccursFirst source text 0 n := by
  obtain ⟨hsome, hnone⟩ := find?_spec text source
  refine ⟨hsome n, fun h => ?_⟩
  cases hfind : Text.find? text source with
  | none => exact absurd h.occurs (hnone hfind n)
  | some m => rw [(hsome m hfind).unique h]

/-- and it finds nothing if and only if there is none. -/
theorem find?_eq_none_iff : Text.find? text source = none ↔ ∀ n, ¬Occurs source text n := by
  obtain ⟨hsome, hnone⟩ := find?_spec text source
  refine ⟨hnone, fun h => ?_⟩
  cases hfind : Text.find? text source with
  | none => rfl
  | some m => exact absurd (hsome m hfind).occurs (h m)

end

/-! ### The window -/

section

variable {r : Region} {source : Text} {low high first : Nat}

/-- The end marker is searched for behind the start marker.  So an end marker in front of the start
marker, or one that overlaps it, is not seen. -/
theorem window?_of_first (h : OccursFirst source r.start 0 first) :
    (∀ low high, r.window? source = some (low, high) ↔
      low = first + r.start.size ∧ OccursFirst source r.stop low high) ∧
    (r.window? source = none ↔
      ∀ n, first + r.start.size ≤ n → ¬Occurs source r.stop n) := by
  obtain ⟨before, behind, hsource, hfirst⟩ := occurs_iff.mp h.occurs
  have hlow : first + r.start.size = (before ++ r.start).size := by
    rw [Text.size_append, hfirst]
  rw [← List.append_assoc] at hsource
  have hwindow : r.window? source = (r.stop.find? behind).map fun distance =>
      ((before ++ r.start).size, (before ++ r.start).size + distance) := by
    rw [Region.window?, find?_eq_some_iff.mpr h, Option.bind_some]
    dsimp only
    rw [hlow, hsource, Text.cut_size]
  rw [hwindow, hlow, hsource]
  constructor
  · intro low high
    rw [Option.map_eq_some_iff]
    constructor
    · rintro ⟨distance, hdistance, hpair⟩
      obtain ⟨rfl, rfl⟩ := Prod.mk.inj hpair
      exact ⟨rfl, occursFirst_append_iff.mpr (find?_eq_some_iff.mp hdistance)⟩
    · rintro ⟨rfl, hhigh⟩
      obtain ⟨distance, rfl⟩ := Nat.exists_eq_add_of_le hhigh.low_le
      exact ⟨distance, find?_eq_some_iff.mpr (occursFirst_append_iff.mp hhigh), rfl⟩
  · rw [Option.map_eq_none_iff, find?_eq_none_iff]
    constructor
    · intro hnone n hn hoccurs
      obtain ⟨m, rfl⟩ := Nat.exists_eq_add_of_le hn
      exact hnone m (occurs_append_iff.mp hoccurs)
    · intro hnone n hoccurs
      exact hnone _ (Nat.le_add_right _ _) (occurs_append_iff.mpr hoccurs)

theorem window?_of_none (h : ∀ n, ¬Occurs source r.start n) : r.window? source = none := by
  rw [Region.window?, find?_eq_none_iff.mpr h, Option.bind_none]

/-- **The window is the one between the markers.**  The start marker is the first one there is, and
the end marker the first one behind it. -/
theorem window?_eq_some_iff : r.window? source = some (low, high) ↔ r.Bounds source low high := by
  constructor
  · intro hwindow
    cases hfind : Text.find? r.start source with
    | none =>
      rw [window?_of_none (find?_eq_none_iff.mp hfind)] at hwindow
      cases hwindow
    | some first =>
      have hfirst := find?_eq_some_iff.mp hfind
      exact ⟨first, hfirst, ((window?_of_first hfirst).1 low high).mp hwindow⟩
  · rintro ⟨first, hfirst, hlow, hhigh⟩
    exact ((window?_of_first hfirst).1 low high).mpr ⟨hlow, hhigh⟩

/-- Without both markers there is no window. -/
theorem window?_of_missing (h : r.Missing source) : r.window? source = none := by
  rcases h with hstart | ⟨first, hfirst, hnone⟩
  · exact window?_of_none hstart
  · exact (window?_of_first hfirst).2.mpr hnone

end

/-! ### Declarations -/

/-- The region begins between the word `async`, with which the declaration begins, and its word
`function`. -/
def Declaration.CutBehindAsync (d : Declaration) (source : Text) (low : Nat) : Prop :=
  ∃ before async keyword after, (lex source).tokens = before ++ async :: keyword :: after ∧
    async.identIs "async" = true ∧ keyword.identIs "function" = true ∧
    d.start = async.start ∧ async.start < low ∧ low ≤ keyword.start

namespace Extractor

/-- Where a marker is missing, the walk has no tokens. -/
theorem start_of_missing {source : Text} {options : Options} {region : Region}
    (hregion : options.region = some region) (h : region.Missing source) :
    start source options =
      ⟨options.rules.normalizeWhitespace, 0, 0, [], none, none, none, [], 0⟩ := by
  unfold start
  rw [hregion]
  dsimp only
  rw [window?_of_missing h]

/-- Where both markers are found, the walk has all tokens and looks at those between the bounds. -/
theorem start_of_bounds {source : Text} {options : Options} {region : Region} {low high : Nat}
    (hregion : options.region = some region) (h : region.Bounds source low high) :
    start source options =
      ⟨options.rules.normalizeWhitespace, low, high, (lex source).tokens, (lex source).failure, none,
        none, [], 0⟩ := by
  unfold start
  rw [hregion]
  dsimp only
  rw [window?_eq_some_iff.mpr h]

end Extractor

/-- A token begins in front of the next one. -/
theorem start_lt_of_neighbours {source : Text} {before after : List Token} {t u : Token}
    (h : (lex source).tokens = before ++ t :: u :: after) : t.start < u.start := by
  have hplaced := placed_of_lex source
  rw [h, placed_append_iff] at hplaced
  obtain ⟨-, -, hstart, -⟩ := hplaced
  have hpos := start_lt_stop_of_lex source t (by simp [h])
  omega

/-- **Declarations begin in the region**, but for one case.  The word `function` is looked at: a
declaration begins in front of the end of the region, and it begins in front of the region if and
only if the region begins between `async` and `function`.  If a marker is missing, there is nothing
to extract. -/
theorem starts_in_region (source : Text) (options : Options) {region : Region}
    (hregion : options.region = some region) :
    (∀ low high, region.Bounds source low high → ∀ d ∈ (extract source options).declarations,
      d.start < high ∧ (low ≤ d.start ↔ ¬d.CutBehindAsync source low)) ∧
    (region.Missing source → extract source options = ⟨[], none⟩) := by
  constructor
  · intro low high hbounds d hd
    obtain ⟨before, after, p, scope, htokens, hfound, hasync, ⟨hlow, hhigh⟩, hread⟩ :=
      Extractor.exists_parts_of_mem_run _ hd
    rw [Extractor.start_of_bounds hregion hbounds] at htokens hasync hlow hhigh
    dsimp only at htokens hasync hlow hhigh
    have hstart : d.start = (p.async.getD p.keyword).start := by rw [hread]; rfl
    -- The window is asked of the word `function`: only a declaration with `async` begins elsewhere.
    cases hp : p.async with
    | none =>
      rw [hp, Option.getD_none] at hstart
      refine ⟨by omega, fun _ => ?_, fun _ => by omega⟩
      rintro ⟨_, async, -, -, -, -, -, hsame, hfront, -⟩
      omega
    | some async =>
      rw [hp, Option.getD_some] at hstart
      obtain ⟨front, rfl⟩ := List.getLast?_eq_some_iff.mp (hasync async hp)
      have hsplit : (lex source).tokens =
          front ++ async :: p.keyword :: (p.signature ++ p.block ++ after) := by
        rw [htokens]
        simp [Parts.unit]
      have hbehind := start_lt_of_neighbours hsplit
      refine ⟨by omega, ?_, fun hcut => ?_⟩
      · rintro hle ⟨_, _, _, _, -, -, -, hsame, hfront, -⟩
        omega
      · by_contra hfront
        exact hcut ⟨front, async, p.keyword, _, hsplit, hfound.async async hp, hfound.function, hstart,
          by omega, hlow⟩
  · intro hmissing
    rw [extract, Extractor.start_of_missing hregion hmissing]
    exact Extractor.run_of_finished rfl

/-- A start marker in front of both words. -/
theorem starts_in_region_of_async :
    ∃ d ∈ (extract "/*<*/async function f()\x7b\x7d/*>*/".toList
        { region := some ⟨"/*<*/".toList, "/*>*/".toList⟩ }).declarations,
      d.start < 25 ∧ ¬d.CutBehindAsync "/*<*/async function f()\x7b\x7d/*>*/".toList 5 := by
  have hbounds : Region.Bounds ⟨"/*<*/".toList, "/*>*/".toList⟩
      "/*<*/async function f()\x7b\x7d/*>*/".toList 5 25 :=
    window?_eq_some_iff.mp (by decide)
  have hd : ∃ d ∈ (extract "/*<*/async function f()\x7b\x7d/*>*/".toList
      { region := some ⟨"/*<*/".toList, "/*>*/".toList⟩ }).declarations, 5 ≤ d.start := by
    decide +kernel
  obtain ⟨d, hd, hlow⟩ := hd
  obtain ⟨hhigh, hiff⟩ := (starts_in_region _ { region := some ⟨"/*<*/".toList, "/*>*/".toList⟩ }
    rfl).1 5 25 hbounds d hd
  exact ⟨d, hd, hhigh, hiff.mp hlow⟩

/-- **A marker behind `async`** does not keep the declaration from being extracted: the region
begins at byte 11, and the declaration at byte 0. -/
theorem async_in_front_of_region :
    ¬∀ (source : Text) (options : Options) (region : Region), options.region = some region →
      ∀ low high, region.Bounds source low high →
        ∀ d ∈ (extract source options).declarations, low ≤ d.start ∧ d.start < high := by
  intro hall
  have hbounds : Region.Bounds ⟨"/*<*/".toList, "/*>*/".toList⟩
      "async /*<*/ function f()\x7b\x7d /*>*/".toList 11 27 :=
    window?_eq_some_iff.mp (by decide)
  have hd : ∃ d ∈ (extract "async /*<*/ function f()\x7b\x7d /*>*/".toList
      { region := some ⟨"/*<*/".toList, "/*>*/".toList⟩ }).declarations, d.start = 0 := by
    decide +kernel
  obtain ⟨d, hd, hstart⟩ := hd
  have hlow := (hall _ { region := some ⟨"/*<*/".toList, "/*>*/".toList⟩ } _ rfl 11 27 hbounds d hd).1
  omega

end Twinfold
