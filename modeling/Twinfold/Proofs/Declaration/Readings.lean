import Twinfold.Proofs.Declaration.Source

/-!
# What extraction reads

A step of extraction passes over tokens, finds the word `function` of a declaration and reads the
declaration behind it (`Extractor.Reads`).  So every declaration that a run yields was read from
tokens of the text, one behind the other, and this is so also for a run that fails later
(`exists_parts_of_extract`).  Whether lines are read with the blanks around them makes no difference
for the tokens (`Extractor.exists_next_reading`).  Where a declaration begins with `async`, extraction has passed over
that word before, as the last token in front of the word `function`.
-/

namespace Twinfold

namespace Extractor

/-- The token that extraction keeps is the last one that it has passed over.  Each token that is
passed over takes the place of the one before. -/
theorem previous_of_seek {x y : Extractor} {lead : Lead} {ts skipped : List Token} {keyword : Token}
    (h : x.seek ts = .lead lead y) (hts : ts = skipped ++ keyword :: y.tokens) :
    y.previous = (x.previous.toList ++ skipped).getLast? := by
  induction ts generalizing x skipped with
  | nil => simp at hts
  | cons t ts ih =>
    rw [seek] at h
    split at h
    · cases h
    split at h
    · cases h
      obtain rfl : skipped = [] := by
        have hlength := congrArg List.length hts
        simp only [List.length_cons, List.length_append] at hlength
        exact List.length_eq_zero_iff.mp (by omega)
      cases x.previous <;> rfl
    · split at h
      · cases h
      · have hless := length_of_seek h
        cases skipped with
        | nil =>
          obtain ⟨-, rfl⟩ := List.cons.inj hts
          omega
        | cons u skipped =>
          obtain ⟨rfl, hmore⟩ := List.cons.inj hts
          rw [ih h hmore, List.getLast?_append_of_ne_nil _ (List.cons_ne_nil _ _)]
          rfl

/-- A step passes over tokens and then reads the parts of a declaration. -/
structure Reads (x : Extractor) (skipped : List Token) (p : Parts) (after : Extractor) : Prop where
  tokens_eq : x.tokens = skipped ++ (p.unit ++ after.tokens)
  found : p.Found
  async : ∀ t ∈ p.async, (x.previous.toList ++ skipped).getLast? = some t
  previous_eq : after.previous = some p.braceClose
  within : x.low ≤ p.keyword.start ∧ p.keyword.start < x.high
  normalize_eq : after.normalize = x.normalize
  window_eq : after.low = x.low ∧ after.high = x.high
  index_eq : after.index = x.index + 1

/-! ### White space does not count while declarations are found -/

/-- The extractor that reads lines with the blanks around them, or without. -/
def reading (normalize : Bool) (x : Extractor) : Extractor := { x with normalize }

/-- What a walk of such an extractor comes to. -/
def Sighting.reading (normalize : Bool) : Sighting → Sighting
  | .lead begins after => .lead begins (after.reading normalize)
  | .failed e => .failed e
  | .finished => .finished

/-- Seeking does not look at white space: with the other way of reading lines the same declaration
is found. -/
theorem seek_reading (normalize : Bool) (x : Extractor) (ts : List Token) :
    (x.reading normalize).seek ts = (x.seek ts).reading normalize := by
  induction ts generalizing x with
  | nil =>
    obtain ⟨_, _, _, _, failure, _, _, opened, _⟩ := x
    cases failure <;> cases opened <;> rfl
  | cons t ts ih =>
    rw [reading]
    simp only [seek]
    split
    · rfl
    rcases (if x.low ≤ t.start then leadAt? x.previous x.beforePrevious t ts else none) with
      _ | lead
    · rcases track x.opened t with e | opened
      · rfl
      · exact ih { x with opened, previous := some t, beforePrevious := x.previous }
    · rfl

/-- A step in either way: only the declaration itself is read differently.  What is skipped, where
a declaration begins and what is left behind it do not depend on the rules. -/
theorem next_reading (normalize : Bool) (x : Extractor) :
    (x.reading normalize).next =
      match x.seek x.tokens with
      | .finished => .finished
      | .failed e => .failed e
      | .lead begins y =>
        match readDeclaration normalize y.failure y.index y.scope begins y.tokens with
        | .error e => .failed e
        | .ok r => .declaration r.declaration (reading normalize { y with
            tokens := r.rest, previous := some r.close, beforePrevious := none
            index := y.index + 1 }) := by
  have hseek : (x.reading normalize).seek (x.reading normalize).tokens = _ :=
    seek_reading normalize x x.tokens
  unfold next
  rw [hseek]
  cases x.seek x.tokens <;> rfl

/-- A declaration that cannot be read can be read in neither way. -/
theorem readDeclaration_of_error {normalize : Bool} {failure : Option ParseError} {index : Nat}
    {scope : Option Nat} {lead : Lead} {ts : List Token} {e : ParseError}
    (h : readDeclaration normalize failure index scope lead ts = .error e) (normalize' : Bool) :
    readDeclaration normalize' failure index scope lead ts = .error e := by
  simp only [readDeclaration, bind, Except.bind] at h ⊢
  -- Only the declaration itself, at the very end, is read in two ways.
  iterate 5
    split at h
    · exact h
  cases h

/-- **A step reads the same tokens in either way.**  Which tokens are the parts of the declaration
does not depend on how its lines are read, so both ways read the same parts. -/
theorem exists_next_reading {x after : Extractor} {d : Declaration}
    (h : x.next = .declaration d after) :
    ∃ skipped p scope, x.Reads skipped p after ∧ ∀ normalize, (x.reading normalize).next =
      .declaration (p.read normalize x.index scope) (after.reading normalize) := by
  unfold next at h
  split at h
  · cases h
  · cases h
  rename_i lead y hseek
  split at h
  · cases h
  rename_i r hread
  cases h
  obtain ⟨skipped, keyword, hsplit, hlead, hwithin, ⟨hnormalize, -, hindex, hwindow⟩, -⟩ :=
    walks_of_seek_eq_lead hseek
  have hprevious := previous_of_seek hseek hsplit
  obtain ⟨async, afterDefault, rfl⟩ := exists_async_of_leadAt? hlead
  obtain ⟨p, rfl, rfl, hformed, hparts, hdeclaration, hclose⟩ :=
    exists_parts_of_readDeclaration hread
  refine ⟨skipped, p, y.scope, ⟨?_, Parts.found_of_lead hformed hlead, ?_, ?_, hwithin, hnormalize,
    hwindow, ?_⟩, ?_⟩
  · rw [hsplit, hparts]
    simp [Parts.unit]
  · intro t ht
    rw [← Parts.asyncOf_of_lead hlead, asyncOf, Option.mem_def, Option.filter_eq_some_iff] at ht
    rw [← hprevious, ht.1]
  · rw [hclose]
  · rw [← hindex]
  · intro normalize
    have hsame := hformed.readDeclaration normalize y.failure y.index y.scope r.rest
    rw [← hparts, Parts.lead, Parts.first] at hsame
    rw [next_reading, hseek]
    dsimp only
    rw [hsame, ← hindex, hclose]

/-- A declaration that is yielded was read from tokens that stood at hand. -/
theorem exists_reads_of_next {x after : Extractor} {d : Declaration}
    (h : x.next = .declaration d after) :
    ∃ skipped p scope, x.Reads skipped p after ∧ d = p.read x.normalize x.index scope := by
  obtain ⟨skipped, p, scope, hreads, hnext⟩ := exists_next_reading h
  have hsame : x.next = .declaration (p.read x.normalize x.index scope) _ := hnext x.normalize
  obtain ⟨hd, -⟩ := ExtractorStep.declaration.inj (h.symm.trans hsame)
  exact ⟨skipped, p, scope, hreads, hd⟩

/-! ### What a run reads -/

/-- Behind a declaration no `async` has been passed over yet. -/
theorem Reads.getLast? {x after : Extractor} {skipped more : List Token} {p : Parts}
    (h : x.Reads skipped p after) {t : Token} (ht : t.identIs "async" = true)
    (hlast : (after.previous.toList ++ more).getLast? = some t) :
    (skipped ++ (p.unit ++ more)).getLast? = some t := by
  obtain ⟨_, hformed⟩ := h.found.wellFormed
  rw [h.previous_eq] at hlast
  cases more with
  | nil =>
    obtain rfl : p.braceClose = t := by simpa using hlast
    rw [identIs_of_punctIs hformed.braceClose] at ht
    cases ht
  | cons u more =>
    rw [List.getLast?_append_of_ne_nil _ (List.cons_ne_nil _ _)] at hlast
    rw [← List.append_assoc, List.getLast?_append_of_ne_nil _ (List.cons_ne_nil _ _), hlast]

/-- **Whatever is extracted was read from tokens of the text**, also by a run that fails later.  By
induction on the run: what a step reads stands in the tokens that are left, and these are the end
of those of the text. -/
theorem exists_parts_of_mem_run (x : Extractor) {d : Declaration} (h : d ∈ x.run.declarations) :
    ∃ (before after : List Token) (p : Parts) (scope : Option Nat),
      x.tokens = before ++ (p.unit ++ after) ∧ p.Found ∧
      (∀ t ∈ p.async, (x.previous.toList ++ before).getLast? = some t) ∧
      (x.low ≤ p.keyword.start ∧ p.keyword.start < x.high) ∧
      d = p.read x.normalize d.index scope := by
  induction x using run.induct with
  | case1 x e after hnext ih =>
    obtain ⟨skipped, p, scope, hreads, hread⟩ := exists_reads_of_next hnext
    rw [run_of_declaration hnext, List.mem_cons] at h
    rcases h with rfl | h
    · refine ⟨skipped, after.tokens, p, scope, hreads.tokens_eq, hreads.found, hreads.async,
        hreads.within, ?_⟩
      rw [hread]
      rfl
    · obtain ⟨before, behind, q, scope', hbehind, hfound, hasync, hwithin, hd⟩ := ih h
      rw [hreads.window_eq.1, hreads.window_eq.2] at hwithin
      refine ⟨skipped ++ (p.unit ++ before), behind, q, scope', ?_, hfound, fun t ht => ?_, hwithin,
        hreads.normalize_eq ▸ hd⟩
      · rw [hreads.tokens_eq, hbehind]
        simp
      · have hlast := hreads.getLast? (hfound.async t ht) (hasync t ht)
        rw [List.getLast?_append_of_ne_nil _ (by simp [Parts.unit]), hlast]
  | case2 x e hnext =>
    rw [run_of_failed hnext] at h
    cases h
  | case3 x hnext =>
    rw [run_of_finished hnext] at h
    cases h

/-- A walk begins with all tokens of the text, or with none if a marker is missing. -/
theorem tokens_start (source : Text) (options : Options) :
    (start source options).tokens = [] ∨ (start source options).tokens = (lex source).tokens := by
  unfold start
  dsimp only
  split
  · exact .inl rfl
  · exact .inr rfl

/-- A walk begins behind no token. -/
theorem previous_start (source : Text) (options : Options) :
    (start source options).previous = none := by
  unfold start
  dsimp only
  split <;> rfl

/-- A walk reads lines as the options say. -/
theorem normalize_start (source : Text) (options : Options) :
    (start source options).normalize = options.rules.normalizeWhitespace := by
  unfold start
  dsimp only
  split <;> rfl

end Extractor

/-- The tokens of the header behind the first one. -/
def Parts.behindFirst (p : Parts) : List Token :=
  (if p.async.isSome then [p.keyword] else []) ++ p.signature

/-- The tokens of a declaration among those of the text, from its first one on. -/
theorem Parts.exists_front {p : Parts} {before : List Token}
    (hasync : ∀ t ∈ p.async, before.getLast? = some t) (after : List Token) :
    ∃ front, before ++ (p.unit ++ after) =
      front ++ p.first :: (p.behindFirst ++ p.brace :: (p.inner ++ p.braceClose :: after)) := by
  unfold first behindFirst unit block
  cases h : p.async with
  | none => exact ⟨before, by simp⟩
  | some t =>
    obtain ⟨front, rfl⟩ := List.getLast?_eq_some_iff.mp (hasync t h)
    exact ⟨front, by simp⟩

/-- Whatever is extracted was read from tokens of the text. -/
theorem exists_parts_of_extract {source : Text} {options : Options} {d : Declaration}
    (hd : d ∈ (extract source options).declarations) :
    ∃ (before after : List Token) (p : Parts) (scope : Option Nat),
      (lex source).tokens = before ++ (p.unit ++ after) ∧ p.Found ∧
      (∀ t ∈ p.async, before.getLast? = some t) ∧
      d = p.read options.rules.normalizeWhitespace d.index scope := by
  obtain ⟨before, after, p, scope, htokens, hfound, hasync, -, hread⟩ :=
    Extractor.exists_parts_of_mem_run _ hd
  rw [Extractor.previous_start] at hasync
  rw [Extractor.normalize_start] at hread
  refine ⟨before, after, p, scope, ?_, hfound, hasync, hread⟩
  rcases Extractor.tokens_start source options with hnone | hall
  · rw [hnone] at htokens
    simp [Parts.unit] at htokens
  · exact hall.symm.trans htokens

end Twinfold
