import Twinfold.Token.Bytes

/-!
# Scanners of bytes get ahead

A scanner of bytes goes on where another one has ended only if less is left there than before
(`Bytes.onward`).  Here it is shown that this never keeps it back, whatever the bytes are: every scan
ends behind the place where it began.  So each scanner is what it would be without looking at how
much is left, and is unfolded that way from here on.

* `ByteScan.EndsFrom` — where a scan ends at the earliest;
* `endsFrom_scanTemplate`, `endsFrom_scanSubstitution` — templates, whose code may hold templates;
* `skipTrivia_unfold`, `scanTemplate_unfold`, `scanSubstitution_unfold` — the scanners that go on
  behind another one.
-/

namespace Twinfold

@[simp] theorem Place.offset_skip (p : Place) (n : Nat) : (p.skip n).offset = p.offset + n := rfl

@[simp] theorem Place.offset_nextLine (p : Place) : p.nextLine.offset = p.offset := rfl

/-! ### Where a scan ends -/

/-- A scan ends at position `n` or behind it, if it comes to an end. -/
def ByteScan.EndsFrom (n : Nat) (x : ByteScan Place) : Prop :=
  ∀ q, x.run = some (.ok q) → n ≤ q.offset

namespace ByteScan

section

variable {α : Type} {n m : Nat} {p q : Place} {x : ByteScan Place}

theorem EndsFrom.mono (h : x.EndsFrom n) (hle : m ≤ n) : x.EndsFrom m :=
  fun q hq => Nat.le_trans hle (h q hq)

theorem endsFrom_pure (h : n ≤ p.offset) : EndsFrom n (pure p) := by
  rintro q ⟨⟩
  exact h

/-- A scan that is given up ends nowhere. -/
theorem endsFrom_giveUp {fault : Fault} {stopped : Nat} : EndsFrom n (giveUp fault p stopped) :=
  nofun

/-- Of two scans the second one decides, which begins where the first one has ended. -/
theorem EndsFrom.bind {f : Place → ByteScan Place} (hx : x.EndsFrom m)
    (hf : ∀ q, m ≤ q.offset → (f q).EndsFrom n) : EndsFrom n (x >>= f) := by
  intro q hq
  rcases hrun : x.run with _ | e | r
  · rw [ExceptT.run_bind, hrun] at hq
    cases hq
  · rw [ExceptT.run_bind, hrun] at hq
    cases hq
  · rw [ExceptT.run_bind, hrun] at hq
    exact hf r (hx r hrun) q hq

/-- Two scans of which the second one does the same in either form, wherever the first one ends. -/
theorem EndsFrom.bind_congr {f g : Place → ByteScan α} (hx : x.EndsFrom n)
    (h : ∀ q, n ≤ q.offset → f q = g q) : x >>= f = x >>= g := by
  refine ExceptT.ext ?_
  rw [ExceptT.run_bind, ExceptT.run_bind]
  rcases hrun : x.run with _ | e | q
  · rfl
  · rfl
  · exact congrArg ExceptT.run (h q (hx q hrun))

end

end ByteScan

namespace Bytes

open ByteScan

variable {src : Bytes} {n : Nat} {p q opened : Place} {b : UInt8}

/-- Where less is left is further on. -/
theorem lt_of_left_lt (h : src.left q < src.left p) : p.offset < q.offset := by
  simp only [left] at h
  omega

/-- A scan that goes on ends behind the place that it goes on from. -/
theorem endsFrom_onward {next : (q : Place) → src.left q < src.left p → ByteScan Place}
    (h : ∀ hlt, (next q hlt).EndsFrom n) : (src.onward p next q).EndsFrom n := by
  unfold onward
  split
  · exact h _
  · exact nofun

/-- Behind a byte that was read nothing keeps a scan back. -/
theorem onward_eq {α : Type} {f : Place → ByteScan α} (hb : src[p.offset]? = some b)
    (hlt : p.offset < q.offset) : src.onward p (fun q _ => f q) q = f q :=
  dif_pos (left_lt hb hlt)

/-! ### Simple scanners -/

/-- A line is walked to its end byte by byte. -/
theorem skipLine_unfold : src.skipLine p =
    match src[p.offset]? with
    | some b => if b = ascii '\n' then p else src.skipLine (p.skip 1)
    | none => p := by
  rw [skipLine]
  cases src[p.offset]? <;> rfl

/-- A block comment is looked at two bytes at a time, and ends where these are its mark. -/
theorem skipBlock_unfold : src.skipBlock opened p =
    match src[p.offset]?, src[p.offset + 1]? with
    | some b, some next =>
      let here := if b = ascii '\n' then p.nextLine else p
      if b = ascii '*' && next = ascii '/' then pure (here.skip 2)
      else src.skipBlock opened (here.skip 1)
    | _, _ => giveUp .unterminatedComment opened p.offset := by
  rw [skipBlock]
  cases src[p.offset]? <;> cases src[p.offset + 1]? <;> rfl

/-- In a string a backslash takes the next byte with it, whatever it is. -/
theorem scanString_unfold {quote : UInt8} : src.scanString quote opened p =
    match src[p.offset]? with
    | none => giveUp .unterminatedString opened p.offset
    | some b =>
      match if b = ascii '\\' then src[p.offset + 1]? else none with
      | some next =>
        let here := if next = ascii '\n' then p.nextLine else p
        src.scanString quote opened (here.skip 2)
      | none =>
        if b = ascii '\n' then giveUp .unterminatedString opened p.offset
        else if b = quote then pure (p.skip 1)
        else src.scanString quote opened (p.skip 1) := by
  rw [scanString]
  cases src[p.offset]? <;> rfl

/-- Flags go on as long as an identifier would. -/
theorem scanFlags_unfold : src.scanFlags p =
    match src[p.offset]? with
    | some b => if continuesIdentByte b then src.scanFlags (p.skip 1) else pure p
    | none => pure p := by
  rw [scanFlags]
  cases src[p.offset]? <;> rfl

/-- In a regular expression a slash closes, but not within brackets. -/
theorem scanRegex_unfold {inClass : Bool} : src.scanRegex opened inClass p =
    match src[p.offset]? with
    | none => giveUp .unterminatedRegex opened p.offset
    | some b =>
      if b = ascii '\n' then giveUp .unterminatedRegex opened p.offset
      else if b = ascii '\\' then src.scanRegex opened inClass (p.skip 2)
      else if b = ascii '[' then src.scanRegex opened true (p.skip 1)
      else if b = ascii ']' then src.scanRegex opened false (p.skip 1)
      else if b = ascii '/' && !inClass then src.scanFlags (p.skip 1)
      else src.scanRegex opened inClass (p.skip 1) := by
  rw [scanRegex]
  cases src[p.offset]? <;> rfl

/-- In a number a sign may stand behind the letter of an exponent. -/
theorem scanNumber_unfold {hex : Bool} : src.scanNumber hex p =
    match src[p.offset]? with
    | none => pure p
    | some b =>
      if isLetterByte b || isDigitByte b || b = ascii '.' || b = ascii '_' then
        src.scanNumber hex (p.skip 1)
      else if !hex && (b = ascii '+' || b = ascii '-') &&
          src[p.offset - 1]?.any (fun last => last = ascii 'e' || last = ascii 'E') then
        src.scanNumber hex (p.skip 1)
      else pure p := by
  rw [scanNumber]
  cases src[p.offset]? <;> rfl

/-- An identifier is left at a space beyond ASCII, whose bytes would be letters. -/
theorem scanIdent_unfold : src.scanIdent p =
    match src[p.offset]? with
    | none => pure p
    | some b =>
      if continuesIdentByte b && (src.wideSpace? p.offset).isNone then src.scanIdent (p.skip 1)
      else pure p := by
  rw [scanIdent]
  cases src[p.offset]? <;> rfl

/-! ### Every scan gets ahead -/

/-- The end of a line is where one stands or behind that. -/
theorem le_skipLine : p.offset ≤ (src.skipLine p).offset := by
  fun_induction skipLine src p with
  | case1 | case3 => exact Nat.le_refl _
  | case2 p b _ _ ih => exact Nat.le_of_succ_le ih

/-- A block comment is closed behind what is read of it. -/
theorem endsFrom_skipBlock : (src.skipBlock opened p).EndsFrom p.offset := by
  fun_induction skipBlock src opened p with
  | case1 p b next _ _ here _ => exact endsFrom_pure (Nat.le_of_lt (p.lt_skip_ite _ Nat.zero_lt_two))
  | case2 p b next _ _ here _ ih => exact ih.mono (Nat.le_of_lt (p.lt_skip_ite _ Nat.zero_lt_one))
  | case3 => exact endsFrom_giveUp

/-- A gap ends where it begins or behind that. -/
theorem endsFrom_skipTrivia : (src.skipTrivia p).EndsFrom p.offset := by
  fun_induction skipTrivia src p with
  | case1 | case7 => exact endsFrom_pure (Nat.le_refl _)
  | case2 _ _ ih | case3 _ _ _ _ _ ih => exact ih.mono (Nat.le_succ _)
  | case4 p b _ _ _ size _ ih | case5 p b _ _ _ _ _ ih =>
    exact endsFrom_onward fun hlt => (ih _ hlt).mono (Nat.le_of_lt (lt_of_left_lt hlt))
  | case6 p b _ _ _ _ _ _ ih =>
    exact endsFrom_skipBlock.bind fun q _ =>
      endsFrom_onward fun hlt => (ih q hlt).mono (Nat.le_of_lt (lt_of_left_lt hlt))

/-- A string ends behind its first quote. -/
theorem endsFrom_scanString {quote : UInt8} :
    (src.scanString quote opened p).EndsFrom p.offset := by
  fun_induction scanString src quote opened p with
  | case1 | case3 => exact endsFrom_giveUp
  | case2 p b _ next _ here ih => exact ih.mono (Nat.le_of_lt (p.lt_skip_ite _ Nat.zero_lt_two))
  | case4 => exact endsFrom_pure (Nat.le_succ _)
  | case5 _ _ _ _ _ _ ih => exact ih.mono (Nat.le_succ _)

/-- Templates from a place on end there or behind, and so does the code in them. -/
def TemplatesGetAhead (src : Bytes) (p : Place) : Prop :=
  (∀ opened, (src.scanTemplate opened p).EndsFrom p.offset) ∧
    ∀ opened depth, (src.scanSubstitution opened depth p).EndsFrom p.offset

section

variable (ih : ∀ q, src.left q < src.left p → src.TemplatesGetAhead q)

include ih

/-- A template ends behind what it reads, if those that begin further on do.  The induction is on
the bytes that are left, for templates and for the code in them at once. -/
theorem endsFrom_scanTemplate_of : (src.scanTemplate opened p).EndsFrom p.offset := by
  have hon {q : Place} (hlt : src.left q < src.left p) :
      (src.scanTemplate opened q).EndsFrom p.offset :=
    ((ih q hlt).1 opened).mono (Nat.le_of_lt (lt_of_left_lt hlt))
  rw [scanTemplate]
  split
  case h_1 => exact endsFrom_giveUp
  case h_2 b hb =>
    have hskip {n : Nat} (hn : 0 < n) := hon (left_lt hb (p.lt_skip hn))
    split
    · exact hskip Nat.zero_lt_two
    split
    · exact endsFrom_pure (Nat.le_succ _)
    split
    · have hcode := (ih _ (left_lt hb (p.lt_skip Nat.zero_lt_two))).2 (p.skip 2) 0
      exact hcode.bind fun q _ => endsFrom_onward hon
    split
    · exact hon (left_lt hb (p.nextLine.lt_skip Nat.zero_lt_one))
    · exact hskip Nat.zero_lt_one

/-- The code of a substitution ends behind what it reads, if templates and code further on do.
Whatever it passes over has at least one byte. -/
theorem endsFrom_scanSubstitution_of {depth : Nat} :
    (src.scanSubstitution opened depth p).EndsFrom p.offset := by
  have hon {q : Place} {depth : Nat} : (src.onward p
      (fun q _ => src.scanSubstitution opened depth q) q).EndsFrom p.offset :=
    endsFrom_onward fun hlt => ((ih q hlt).2 opened depth).mono (Nat.le_of_lt (lt_of_left_lt hlt))
  rw [scanSubstitution]
  refine endsFrom_skipTrivia.bind fun q hq => ?_
  split
  case h_1 => exact endsFrom_giveUp
  case h_2 b hb =>
    split
    · exact endsFrom_scanString.bind fun q _ => hon
    split
    · have hinner : (src.onward p (fun r _ => src.scanTemplate q r) (q.skip 1)).EndsFrom 0 :=
        fun _ _ => Nat.zero_le _
      exact hinner.bind fun q _ => hon
    split
    · exact hon
    split
    · split
      · exact endsFrom_pure (Nat.le_succ_of_le hq)
      · exact hon
    · exact hon

end

/-- Templates and the code in them are read together, and what is left of the bytes carries the
induction: a scan that goes on behind another one has less left than it began with. -/
theorem templatesGetAhead (src : Bytes) (p : Place) : src.TemplatesGetAhead p :=
  have ih (q : Place) (_ : src.left q < src.left p) := templatesGetAhead src q
  ⟨fun _ => endsFrom_scanTemplate_of ih, fun _ _ => endsFrom_scanSubstitution_of ih⟩
termination_by src.left p

theorem endsFrom_scanTemplate : (src.scanTemplate opened p).EndsFrom p.offset :=
  (src.templatesGetAhead p).1 opened

theorem endsFrom_scanSubstitution {depth : Nat} :
    (src.scanSubstitution opened depth p).EndsFrom p.offset :=
  (src.templatesGetAhead p).2 opened depth

/-! ### Scanners that go on behind another one -/

/-- Behind another scan that gets ahead nothing keeps a scan back. -/
theorem bind_onward {α : Type} {x : ByteScan Place} {f : Place → ByteScan α}
    (hb : src[p.offset]? = some b) (hx : x.EndsFrom (p.offset + 1)) :
    (x >>= fun q => src.onward p (fun q _ => f q) q) = x >>= f :=
  hx.bind_congr fun _ hlt => onward_eq hb hlt

/-- A space beyond ASCII has bytes. -/
theorem pos_of_wideSpace? {pos size : Nat} (h : src.wideSpace? pos = some size) : 0 < size := by
  have hpos : ∀ space ∈ wideSpaces, 0 < space.length := by decide
  rw [wideSpace?] at h
  obtain ⟨rest, -, h⟩ := Option.bind_eq_some_iff.mp h
  obtain ⟨space, hspace, h⟩ := Option.bind_eq_some_iff.mp h
  cases h
  exact hpos space (List.mem_of_find?_eq_some hspace)

/-- A line that does not end at once ends further on. -/
theorem lt_skipLine (hb : src[p.offset]? = some b) (hne : b ≠ ascii '\n') :
    p.offset < (src.skipLine p).offset := by
  rw [skipLine_unfold, hb]
  dsimp only
  rw [if_neg hne]
  exact le_skipLine (p := p.skip 1)

/-- **Gaps.**  Behind a space or a comment the gap goes on, and nothing is asked about how much is
left: a space has bytes, and comments end further on. -/
theorem skipTrivia_unfold : src.skipTrivia p =
    match src[p.offset]? with
    | none => pure p
    | some b =>
      if b = ascii '\n' then src.skipTrivia (p.nextLine.skip 1)
      else if isSpaceByte b then src.skipTrivia (p.skip 1)
      else
        match if 0x80 ≤ b then src.wideSpace? p.offset else none with
        | some size => src.skipTrivia (p.skip size)
        | none =>
          if b = ascii '/' && src[p.offset + 1]? = some (ascii '/') then
            src.skipTrivia (src.skipLine p)
          else if b = ascii '/' && src[p.offset + 1]? = some (ascii '*') then do
            src.skipTrivia (← src.skipBlock p (p.skip 2))
          else pure p := by
  rw [skipTrivia]
  split
  case h_1 hb => rw [hb]
  case h_2 b hb =>
    rw [hb, bind_onward hb (endsFrom_skipBlock.mono (Nat.le_succ _))]
    dsimp only
    rcases hsize : (if 0x80 ≤ b then src.wideSpace? p.offset else none) with _ | size
    · by_cases hslash : b = ascii '/'
      · rw [onward_eq hb (lt_skipLine hb (hslash ▸ by decide))]
      · simp only [hslash, decide_false, Bool.false_and]
        rfl
    · have hpos : 0 < size := by
        split at hsize
        · exact pos_of_wideSpace? hsize
        · cases hsize
      dsimp only
      rw [onward_eq hb (p.lt_skip hpos)]

/-- **Templates.**  Behind a substitution the template goes on.  It always goes on further behind
than it was, so `onward` never stops it. -/
theorem scanTemplate_unfold : src.scanTemplate opened p =
    match src[p.offset]? with
    | none => giveUp .unterminatedTemplate opened p.offset
    | some b =>
      if b = ascii '\\' then src.scanTemplate opened (p.skip 2)
      else if b = ascii '`' then pure (p.skip 1)
      else if b = ascii '$' && src[p.offset + 1]? = some (ascii '{') then do
        src.scanTemplate opened (← src.scanSubstitution (p.skip 2) 0 (p.skip 2))
      else if b = ascii '\n' then src.scanTemplate opened (p.nextLine.skip 1)
      else src.scanTemplate opened (p.skip 1) := by
  rw [scanTemplate]
  split
  case h_1 hb => rw [hb]
  case h_2 b hb =>
    rw [hb]
    dsimp only
    rw [bind_onward hb (endsFrom_scanSubstitution.mono (Nat.le_succ _))]

/-- **The code in a template** goes on behind a string or a template in it, until a brace closes
it.  Each of these gets ahead, so `onward` never stops it. -/
theorem scanSubstitution_unfold {depth : Nat} : src.scanSubstitution opened depth p = (do
    let q ← src.skipTrivia p
    match src[q.offset]? with
    | none => giveUp .unterminatedTemplate opened q.offset
    | some b =>
      if b = ascii '"' || b = ascii '\'' then do
        src.scanSubstitution opened depth (← src.scanString b q (q.skip 1))
      else if b = ascii '`' then do
        src.scanSubstitution opened depth (← src.scanTemplate q (q.skip 1))
      else if b = ascii '{' then src.scanSubstitution opened (depth + 1) (q.skip 1)
      else if b = ascii '}' then
        if depth = 0 then pure (q.skip 1) else src.scanSubstitution opened (depth - 1) (q.skip 1)
      else src.scanSubstitution opened depth (q.skip 1)) := by
  rw [scanSubstitution]
  refine endsFrom_skipTrivia.bind_congr fun q hq => ?_
  rcases hb : src[q.offset]? with _ | b
  · rfl
  -- The place read is behind the one where the scan began, which is itself in front of the end.
  have hsize : q.offset < src.size := (Array.getElem?_eq_some_iff.mp hb).1
  obtain ⟨a, ha⟩ : ∃ a, src[p.offset]? = some a :=
    ⟨_, Array.getElem?_eq_getElem (Nat.lt_of_le_of_lt hq hsize)⟩
  have hlt : p.offset < (q.skip 1).offset := Nat.lt_succ_of_le hq
  dsimp only
  simp only [onward_eq ha hlt, bind_onward ha (endsFrom_scanString.mono hlt),
    bind_onward ha (endsFrom_scanTemplate.mono hlt)]

end Bytes

end Twinfold
