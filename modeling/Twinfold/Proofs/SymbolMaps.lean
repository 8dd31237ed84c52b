import Mathlib.Data.List.Induction
import Mathlib.Data.Set.Card
import Twinfold.Proofs.Text.Lines

/-!
# What a symbol map says

The lines of the text decide everything.  A line that is not blank is an entry (`IsEntry`) or it
offends.  While the lines are read, none of those that have been read offends, and the map holds
what they say (`Holds`): a line without an entry changes nothing (`Holds.skip`), and an entry takes
the place of an earlier one for the same short name (`Holds.insert`).  So the map that is read says
the last entry of every short name, and the error tells of the first line that offends
(`ends_readLines`).
-/

namespace Twinfold

namespace SymbolMap

/-- A line that gives a short name the name it stands for: these are the two sides of its first
colon, without the white space around them, and neither side is blank. -/
def IsEntry (line short full : Text) : Prop :=
  ∃ before after : Text, line = before ++ ':' :: after ∧ ':' ∉ before ∧ ¬before.Blank ∧
    ¬after.Blank ∧ short = before.trim ∧ full = after.trim

/-- A line that is neither blank nor an entry. -/
def Offends (line : Text) : Prop := ¬line.Blank ∧ ∀ short full, ¬IsEntry line short full

/-- The last entry of a short name. -/
def LastEntry (lines : List Text) (short full : Text) : Prop :=
  ∃ before line after, lines = before ++ line :: after ∧ IsEntry line short full ∧
    ∀ other ∈ after, ∀ full, ¬IsEntry other short full

/-- The error tells of the first line that offends. -/
def FirstOffence (lines : List Text) (e : SymbolMapError) : Prop :=
  ∃ before after, lines = before ++ e.content :: after ∧ e.line = before.length + 1 ∧
    Offends e.content ∧ ∀ line ∈ before, ¬Offends line

/-- **An entry is read if and only if the line is one**: a short name, a colon and a full name,
without the white space around either. -/
theorem readEntry_eq_some_iff {line short full : Text} :
    readEntry line = some (short, full) ↔ IsEntry line short full := by
  unfold readEntry IsEntry
  split
  · rename_i hnone
    constructor
    · intro h
      cases h
    · intro h
      obtain ⟨before, after, hline, hcolon, -⟩ := h
      rw [Text.splitOnce_eq_some_iff.mpr ⟨hline, hcolon⟩] at hnone
      cases hnone
  · rename_i before after hsides
    obtain ⟨hline, hcolon⟩ := Text.splitOnce_eq_some_iff.mp hsides
    constructor
    · intro h
      split_ifs at h with hblank
      simp only [Bool.or_eq_true, Text.trim_isEmpty_iff, not_or] at hblank
      cases h
      exact ⟨before, after, hline, hcolon, hblank.1, hblank.2, rfl, rfl⟩
    · intro h
      obtain ⟨before', after', hline', hcolon', hbefore, hafter, rfl, rfl⟩ := h
      have hsame := Text.splitOnce_eq_some_iff.mpr ⟨hline', hcolon'⟩
      rw [hsides, Option.some_inj, Prod.mk.injEq] at hsame
      obtain ⟨rfl, rfl⟩ := hsame
      rw [if_neg]
      simp only [Bool.or_eq_true, Text.trim_isEmpty_iff, not_or]
      exact ⟨hbefore, hafter⟩

/-- A blank line is no entry. -/
theorem IsEntry.not_blank {line short full : Text} (h : IsEntry line short full) : ¬line.Blank := by
  obtain ⟨before, after, rfl, -, hbefore, -⟩ := h
  intro hblank
  exact hbefore fun c hc => hblank c (List.mem_append_left _ hc)

/-! ### What a map holds -/

section

variable {lines : List Text} {line short full : Text}

/-- The last entry of some lines with one line behind them.  If this line is an entry for the name,
it is the last one; otherwise the others decide. -/
theorem lastEntry_concat_iff : LastEntry (lines ++ [line]) short full ↔
    IsEntry line short full ∨ (∀ full, ¬IsEntry line short full) ∧ LastEntry lines short full := by
  constructor
  · intro h
    obtain ⟨before, other, after, hsplit, hentry, hlast⟩ := h
    obtain rfl | ⟨after, last, rfl⟩ := List.eq_nil_or_concat after
    · obtain ⟨rfl, hline⟩ := List.append_inj' hsplit rfl
      obtain rfl : line = other := List.singleton_inj.mp hline
      exact .inl hentry
    · rw [List.concat_eq_append, ← List.cons_append, ← List.append_assoc] at hsplit
      obtain ⟨rfl, hline⟩ := List.append_inj' hsplit rfl
      obtain rfl : line = last := List.singleton_inj.mp hline
      exact .inr ⟨hlast line (by simp), before, other, after, rfl, hentry,
        fun other hother => hlast other (by simp [hother])⟩
  · intro h
    obtain hentry | ⟨hnone, before, other, after, rfl, hentry, hlast⟩ := h
    · exact ⟨lines, line, [], rfl, hentry, nofun⟩
    · refine ⟨before, other, after ++ [line], by simp, hentry, ?_⟩
      exact List.forall_mem_append.mpr ⟨hlast, by simpa using hnone⟩

/-- A line has one name at most, which stands for one name. -/
theorem IsEntry.unique {short' full' : Text} (h : IsEntry line short full)
    (h' : IsEntry line short' full') : short = short' ∧ full = full' := by
  rw [← readEntry_eq_some_iff] at h h'
  rw [h, Option.some_inj] at h'
  exact Prod.mk.inj h'

/-- Whoever has an entry has a last one. -/
theorem exists_lastEntry (h : ∃ line ∈ lines, ∃ full, IsEntry line short full) :
    ∃ full, LastEntry lines short full := by
  induction lines using List.reverseRecOn with
  | nil => simp at h
  | append_singleton lines line ih =>
    by_cases hline : ∃ full, IsEntry line short full
    · obtain ⟨full, hentry⟩ := hline
      exact ⟨full, lastEntry_concat_iff.mpr (.inl hentry)⟩
    · obtain ⟨other, hother, full, hentry⟩ := h
      rw [not_exists] at hline
      obtain hmem | hmem := List.mem_append.mp hother
      · obtain ⟨full, hlast⟩ := ih ⟨other, hmem, full, hentry⟩
        exact ⟨full, lastEntry_concat_iff.mpr (.inr ⟨hline, hlast⟩)⟩
      · rw [List.mem_singleton.mp hmem] at hentry
        exact absurd hentry (hline full)

end

/-- The map holds what the lines say: every short name once, with its last entry. -/
structure Holds (lines : List Text) (m : SymbolMap) : Prop where
  nodup : (m.entries.map Prod.fst).Nodup
  get?_iff : ∀ short full, m.get? short = some full ↔ LastEntry lines short full

/-- Behind an insertion the key has the new value, and every other key has the value that it had.
-/
theorem get?_insert (m : SymbolMap) (short full other : Text) :
    (m.insert short full).get? other = if other = short then some full else m.get? other := by
  unfold get? insert
  rw [List.lookup_cons]
  by_cases hother : other = short
  · simp [hother]
  · have hfilter : ∀ entries : List (Text × Text),
        (entries.filter fun entry => entry.1 ≠ short).lookup other = entries.lookup other := by
      intro entries
      induction entries with
      | nil => rfl
      | cons entry entries ih =>
        by_cases hentry : entry.1 = short
        · have hne : (other == entry.1) = false := by simpa [hentry] using hother
          rw [List.filter_cons_of_neg (by simpa using hentry), ih, List.lookup_cons, hne]
        · rw [List.filter_cons_of_pos (by simpa using hentry), List.lookup_cons, List.lookup_cons,
            ih]
    rw [if_neg hother, hfilter, beq_false_of_ne hother]

/-- The empty map holds what no lines say. -/
theorem Holds.nil : Holds [] ⟨[]⟩ where
  nodup := .nil
  get?_iff short full := by
    constructor
    · intro h
      cases h
    · intro h
      obtain ⟨before, line, after, hnil, -⟩ := h
      simp at hnil

section

variable {lines : List Text} {line short full : Text} {m : SymbolMap}

/-- A line without an entry changes nothing. -/
theorem Holds.skip (h : Holds lines m) (hline : ∀ short full, ¬IsEntry line short full) :
    Holds (lines ++ [line]) m where
  nodup := h.nodup
  get?_iff short full := by
    rw [h.get?_iff, lastEntry_concat_iff]
    constructor
    · intro hlast
      exact .inr ⟨hline short, hlast⟩
    · intro hlast
      obtain hentry | ⟨-, hlast⟩ := hlast
      · exact absurd hentry (hline short full)
      · exact hlast

/-- **An entry takes the place of what was there.**  If the key was there its value is replaced in
its place, otherwise the entry goes to the end; in either way every key occurs once. -/
theorem Holds.insert (h : Holds lines m) (hline : IsEntry line short full) :
    Holds (lines ++ [line]) (m.insert short full) where
  nodup := by
    have hfront : short ∉ (m.entries.filter fun entry => entry.1 ≠ short).map Prod.fst := by
      intro hmem
      obtain ⟨entry, hentry, hshort⟩ := List.mem_map.mp hmem
      exact of_decide_eq_true (List.mem_filter.mp hentry).2 hshort
    exact List.nodup_cons.mpr ⟨hfront, h.nodup.sublist (List.filter_sublist.map _)⟩
  get?_iff other full' := by
    rw [get?_insert, lastEntry_concat_iff]
    by_cases hother : other = short
    · subst hother
      rw [if_pos rfl, Option.some_inj]
      constructor
      · intro hfull
        exact .inl (hfull ▸ hline)
      · intro hlast
        obtain hentry | ⟨hnone, -⟩ := hlast
        · exact (hline.unique hentry).2
        · exact absurd hline (hnone full)
    · have hnone : ∀ full, ¬IsEntry line other full := fun full hentry =>
        hother (hentry.unique hline).1
      rw [if_neg hother, h.get?_iff]
      constructor
      · intro hlast
        exact .inr ⟨hnone, hlast⟩
      · intro hlast
        obtain hentry | ⟨-, hlast⟩ := hlast
        · exact absurd hentry (hnone full')
        · exact hlast

/-- Nothing is found for a short name without an entry. -/
theorem Holds.get?_eq_none_iff (h : Holds lines m) :
    m.get? short = none ↔ ∀ line ∈ lines, ∀ full, ¬IsEntry line short full := by
  rw [Option.eq_none_iff_forall_ne_some]
  constructor
  · intro hnone line hline full hentry
    obtain ⟨full, hlast⟩ := exists_lastEntry ⟨line, hline, full, hentry⟩
    exact hnone full ((h.get?_iff short full).mpr hlast)
  · intro hnone full hget
    obtain ⟨before, line, after, rfl, hentry, -⟩ := (h.get?_iff short full).mp hget
    exact hnone line (by simp) full hentry

/-- The size is the number of short names.  A name that is given twice is counted once. -/
theorem Holds.size_eq (h : Holds lines m) :
    m.size = {short | ∃ line ∈ lines, ∃ full, IsEntry line short full}.ncard := by
  have hnames : {short | ∃ line ∈ lines, ∃ full, IsEntry line short full} =
      ((m.entries.map Prod.fst).toFinset : Set Text) := by
    ext short
    rw [Set.mem_ofPred_eq, Finset.mem_coe, List.mem_toFinset]
    have hnone : m.get? short = none ↔ short ∉ m.entries.map Prod.fst := by
      rw [get?, List.lookup_eq_none_iff]
      constructor
      · intro h hmem
        obtain ⟨entry, hentry, rfl⟩ := List.mem_map.mp hmem
        simpa using h entry hentry
      · intro h entry hentry
        rw [bne_iff_ne]
        intro heq
        exact h (List.mem_map.mpr ⟨entry, hentry, heq.symm⟩)
    rw [← not_iff_not, ← hnone, h.get?_eq_none_iff]
    simp
  rw [hnames, Set.ncard_coe_finset, List.toFinset_card_of_nodup h.nodup, List.length_map]
  rfl

end

/-! ### Reading -/

/-- How reading some lines ends. -/
inductive Ends (lines : List Text) : Except SymbolMapError SymbolMap → Prop
  | read {m : SymbolMap} (hlines : ∀ line ∈ lines, ¬Offends line) (hm : Holds lines m) :
      Ends lines (.ok m)
  | offended {e : SymbolMapError} (he : FirstOffence lines e) : Ends lines (.error e)

/-- **Reading goes through the lines.**  In front of the lines that are left no line offends, and
the map holds what they say. -/
theorem ends_readLines {front : List Text} {m : SymbolMap} (hm : Holds front m)
    (hfront : ∀ line ∈ front, ¬Offends line) (rest : List Text) :
    Ends (front ++ rest) (readLines (front.length + 1) m rest) := by
  induction rest generalizing front m with
  | nil =>
    rw [List.append_nil]
    exact .read hfront hm
  | cons line rest ih =>
    have hstep : ∀ {m : SymbolMap}, Holds (front ++ [line]) m → ¬Offends line →
        Ends (front ++ line :: rest) (readLines (front.length + 1 + 1) m rest) := by
      intro m hm hline
      have hmore := ih hm (List.forall_mem_append.mpr ⟨hfront, by simpa using hline⟩)
      simpa using hmore
    rw [readLines]
    split_ifs with hblank
    · rw [Text.trim_isEmpty_iff] at hblank
      exact hstep (hm.skip fun _ _ hentry => hentry.not_blank hblank) fun hoffends =>
        hoffends.1 hblank
    · rw [Text.trim_isEmpty_iff] at hblank
      split
      · rename_i hnone
        refine .offended ⟨front, rest, rfl, rfl, ⟨hblank, fun short full hentry => ?_⟩, hfront⟩
        rw [readEntry_eq_some_iff.mpr hentry] at hnone
        cases hnone
      · rename_i short full hentry
        rw [readEntry_eq_some_iff] at hentry
        exact hstep (hm.insert hentry) fun hoffends => hoffends.2 short full hentry

theorem ends_parse (t : Text) : Ends t.lines (parse t) :=
  ends_readLines Holds.nil nofun t.lines

/-- Of two first offences neither comes before the other.  Both are about the first line that
offends. -/
theorem FirstOffence.unique {lines : List Text} {e e' : SymbolMapError} (h : FirstOffence lines e)
    (h' : FirstOffence lines e') : e = e' := by
  obtain ⟨number, content⟩ := e
  obtain ⟨number', content'⟩ := e'
  obtain ⟨before, after, hsplit, hline, hoffends, hbefore⟩ := h
  obtain ⟨before', after', hsplit', hline', hoffends', hbefore'⟩ := h'
  dsimp only at hsplit hline hoffends hsplit' hline' hoffends'
  rw [hsplit] at hsplit'
  obtain ⟨between, rfl, hrest⟩ | ⟨between, rfl, hrest⟩ := List.append_eq_append_iff.mp hsplit'
  · cases between with
    | nil =>
      obtain ⟨rfl, -⟩ := List.cons.inj hrest
      rw [hline, hline', List.append_nil]
    | cons first between =>
      obtain ⟨rfl, -⟩ := List.cons.inj hrest
      exact absurd hoffends (hbefore' content (by simp))
  · cases between with
    | nil =>
      obtain ⟨rfl, -⟩ := List.cons.inj hrest
      rw [hline, hline', List.append_nil]
    | cons first between =>
      obtain ⟨rfl, -⟩ := List.cons.inj hrest
      exact absurd hoffends' (hbefore content' (by simp))

/-- Reading fails with the first offence and with nothing else.  A line behind the first offence is
not read, whatever is wrong with it. -/
theorem Ends.error_iff {lines : List Text} {result : Except SymbolMapError SymbolMap}
    (h : Ends lines result) (e : SymbolMapError) : result = .error e ↔ FirstOffence lines e := by
  cases h with
  | read hlines hm =>
    constructor
    · intro hresult
      cases hresult
    · intro he
      obtain ⟨before, after, rfl, -, hoffends, -⟩ := he
      exact absurd hoffends (hlines e.content (by simp))
  | @offended e' he' =>
    constructor
    · intro hresult
      cases hresult
      exact he'
    · intro he
      rw [he.unique he']

/-- Reading succeeds if no line offends. -/
theorem Ends.ok_iff {lines : List Text} {result : Except SymbolMapError SymbolMap}
    (h : Ends lines result) : (∃ m, result = .ok m) ↔ ∀ line ∈ lines, ¬Offends line := by
  cases h with
  | @read m hlines hm => exact ⟨fun _ => hlines, fun _ => ⟨m, rfl⟩⟩
  | @offended e he =>
    constructor
    · intro hresult
      obtain ⟨m, hresult⟩ := hresult
      cases hresult
    · intro hlines
      obtain ⟨before, after, rfl, -, hoffends, -⟩ := he
      exact absurd hoffends (hlines e.content (by simp))

/-- **Symbol maps are read by their lines.**  A text falls into lines in one way, and it is read if
and only if each of them is blank or an entry: that is, if it has names on both sides of its first
colon.  A short name then stands for what its last entry says, and for nothing if it has no entry;
the size of the map is the number of short names.  Otherwise the error has the number of the first
line that offends, counted from one, and this line as it stands in the text. -/
theorem parse_reads_lines (t : Text) :
    (∀ lines, t.InLines lines ↔ t.lines = lines) ∧
      ((∃ m, parse t = .ok m) ↔
        ∀ line ∈ t.lines, line.Blank ∨ ∃ short full, IsEntry line short full) ∧
      (∀ m, parse t = .ok m →
        (∀ short full, m.get? short = some full ↔ LastEntry t.lines short full) ∧
        (∀ short, m.get? short = none ↔ ∀ line ∈ t.lines, ∀ full, ¬IsEntry line short full) ∧
        m.size = {short | ∃ line ∈ t.lines, ∃ full, IsEntry line short full}.ncard) ∧
      ∀ e, parse t = .error e ↔ FirstOffence t.lines e := by
  have hends := ends_parse t
  refine ⟨fun _ => Text.inLines_iff, ?accepted, ?content, hends.error_iff⟩
  case accepted =>
    rw [hends.ok_iff]
    apply forall₂_congr
    intro line hline
    simp only [Offends, not_and_or, not_not, not_forall]
  case content =>
    intro m hm
    rw [hm] at hends
    cases hends with
    | read hlines hm => exact ⟨hm.get?_iff, fun _ => hm.get?_eq_none_iff, hm.size_eq⟩

/-- The entry further down counts, and a carriage return at the very end is white space like any
other; a colon in a long name is one of its characters. -/
theorem parse_reads_repeated_entries :
    ∃ m, parse "a : x::y\r\n\n b:c \na:z\r".toList = .ok m ∧ m.size = 2 ∧
      LastEntry (Text.lines "a : x::y\r\n\n b:c \na:z\r".toList) ['a'] ['z'] ∧
      FirstOffence (Text.lines "a:b\n\nbroken\n".toList) ⟨3, "broken".toList⟩ := by
  obtain ⟨-, -, hcontent, -⟩ := parse_reads_lines "a : x::y\r\n\n b:c \na:z\r".toList
  obtain ⟨-, -, -, herror⟩ := parse_reads_lines "a:b\n\nbroken\n".toList
  have hread : parse "a : x::y\r\n\n b:c \na:z\r".toList =
      .ok ⟨[(['a'], ['z']), (['b'], ['c'])]⟩ := by decide
  refine ⟨_, hread, rfl, ?_, ?_⟩
  · exact ((hcontent _ hread).1 ['a'] ['z']).mp rfl
  · exact (herror _).mp (by decide)

end SymbolMap

end Twinfold
