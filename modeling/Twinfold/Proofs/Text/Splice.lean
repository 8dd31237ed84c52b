import Mathlib.Data.List.Induction
import Mathlib.Data.List.Sort
import Twinfold.Proofs.Lists
import Twinfold.Proofs.Token.Spelling

/-!
# Edits of a text

A text that is edited falls into **chunks**, some of which are replaced.  `splice` carries out
the edits of the chunks, whatever else their texts hold (`splice_edits`).  Edits that ascend are
told by which ones they are (`eq_of_ascending`), so it does not matter how they were found.

Offsets count bytes, and a byte may lie within a character.  A text **stands** in a source from one
byte up to another (`StandsAt`) if it is what the source holds there; then both bytes lie between
characters.  Texts that stand one behind the other can be joined (`StandsAt.append`) and cut
(`StandsAt.within`).

An edit that is carried out by itself replaces the bytes from its start to its stop, if characters
begin in both places (`Text.replace?`).  It moves what stands behind it, so edits by the offsets of
one text can be carried out one after the other only from the back to the front.

Edits of parts of a text that do not overlap are the edits of chunks (`exists_chunks`).  In whatever
way they are put in descending order, carrying them out one after the other never fails, and it
replaces the chunks as if all were replaced at once (`foldlM_replace?`).
-/

namespace Twinfold

/-! ### Cuts -/

/-- A text is cut behind a front of it by the size of the front. -/
@[simp] theorem Text.cut_size (u t : Text) : Text.cut u.size (u ++ t) = (u, t) := by
  induction u with
  | nil => simp [size, cut]
  | cons c u ih =>
    have hpos := Char.utf8Size_pos c
    obtain ⟨n, hn⟩ : ∃ n, Text.size (c :: u) = n + 1 := ⟨Text.size (c :: u) - 1, by
      have : Text.size (c :: u) = c.utf8Size + Text.size u := rfl
      omega⟩
    have hrest : n + 1 - c.utf8Size = Text.size u := by
      rw [← hn]
      exact Nat.add_sub_cancel_left _ _
    rw [hn, List.cons_append, cut, hrest, ih]

/-- Fronts of one text that have the same size are the same. -/
theorem append_inj_of_size {front front' rest rest' : Text} (h : front ++ rest = front' ++ rest')
    (hsize : front.size = front'.size) : front = front' ∧ rest = rest' := by
  have hcut := Text.cut_size front rest
  rw [h, hsize, Text.cut_size] at hcut
  exact Prod.mk.inj hcut.symm

/-- What begins behind a front of a text is a part of the rest. -/
theorem exists_behind_of_size {front rest front' rest' : Text} (h : front ++ rest = front' ++ rest')
    (hsize : front.size ≤ front'.size) : ∃ between, front' = front ++ between ∧
      rest = between ++ rest' := by
  rcases List.append_eq_append_iff.mp h with ⟨between, rfl, hrest⟩ | ⟨more, rfl, hrest⟩
  · exact ⟨between, rfl, hrest⟩
  · obtain rfl : more = [] := by
      by_contra hne
      have := Text.size_pos hne
      rw [Text.size_append] at hsize
      omega
    exact ⟨[], by simp, hrest.symm⟩

/-! ### Chunks -/

/-- A part of a text, and what replaces it, if anything does. -/
structure Chunk where
  old : Text
  new : Option Text

/-- The text in which nothing is replaced. -/
def oldText (chunks : List Chunk) : Text := chunks.flatMap Chunk.old

/-- The text in which chunks are replaced. -/
def newText (chunks : List Chunk) : Text := chunks.flatMap fun c => c.new.getD c.old

/-- The edits that replace the chunks of a text whose first byte has an offset. -/
def editsOf : (offset : Nat) → List Chunk → List Edit
  | _, [] => []
  | offset, c :: cs =>
    (c.new.map fun text => ⟨offset, offset + c.old.size, text⟩).toList ++
      editsOf (offset + c.old.size) cs

@[simp] theorem oldText_cons (c : Chunk) (cs : List Chunk) :
    oldText (c :: cs) = c.old ++ oldText cs := rfl

@[simp] theorem newText_cons (c : Chunk) (cs : List Chunk) :
    newText (c :: cs) = c.new.getD c.old ++ newText cs := rfl

@[simp] theorem oldText_append (cs cs' : List Chunk) :
    oldText (cs ++ cs') = oldText cs ++ oldText cs' := List.flatMap_append

@[simp] theorem newText_append (cs cs' : List Chunk) :
    newText (cs ++ cs') = newText cs ++ newText cs' := List.flatMap_append

/-- Behind other chunks the edits begin behind their old text. -/
theorem editsOf_append (offset : Nat) (cs cs' : List Chunk) :
    editsOf offset (cs ++ cs') = editsOf offset cs ++ editsOf (offset + (oldText cs).size) cs' := by
  induction cs generalizing offset with
  | nil => rfl
  | cons c cs ih => simp [editsOf, ih, Text.size_append, Nat.add_assoc]

/-- **Splicing replaces chunks.**  The text `kept` in front of the chunks stays.  Positions of
edits are counted from the front of the whole text, and so the offset goes along. -/
theorem splice_append_oldText (offset : Nat) (kept : Text) (cs : List Chunk) :
    Text.splice offset (editsOf (offset + kept.size) cs) (kept ++ oldText cs) =
      kept ++ newText cs := by
  induction cs generalizing offset kept with
  | nil => rfl
  | cons c cs ih =>
    rw [editsOf]
    cases hnew : c.new with
    | none =>
      have hmore := ih offset (kept ++ c.old)
      rw [Text.size_append, ← Nat.add_assoc, List.append_assoc, List.append_assoc] at hmore
      simpa [hnew] using hmore
    | some text =>
      have hmore := ih (offset + kept.size + c.old.size) []
      simp only [Option.map_some, Option.toList_some, List.singleton_append, Text.splice,
        oldText_cons, newText_cons, hnew, Option.getD_some, Nat.add_sub_cancel_left, Text.cut_size]
      rw [List.append_assoc, List.append_cancel_left_eq, List.append_cancel_left_eq]
      simpa [Text.size] using hmore

theorem splice_edits (cs : List Chunk) : Text.splice 0 (editsOf 0 cs) (oldText cs) = newText cs := by
  simpa [Text.size] using splice_append_oldText 0 [] cs

/-! ### The order of edits -/

/-- Each edit begins behind the beginning of the one before. -/
abbrev Ascending (edits : List Edit) : Prop := edits.Pairwise fun e f => e.start < f.start

/-- The edits of chunks begin behind the offset at which the chunks begin. -/
theorem le_start_of_mem_editsOf {offset : Nat} {cs : List Chunk} :
    ∀ e ∈ editsOf offset cs, offset ≤ e.start := by
  induction cs generalizing offset with
  | nil => simp [editsOf]
  | cons c cs ih =>
    intro e he
    rcases List.mem_append.mp he with he | he
    · cases hnew : c.new with
      | none => simp [hnew] at he
      | some text =>
        obtain rfl : e = ⟨offset, offset + c.old.size, text⟩ := by simpa [hnew] using he
        exact Nat.le_refl _
    · exact (Nat.le_add_right _ _).trans (ih e he)

/-- The edits of chunks ascend, if nothing is put where there was nothing. -/
theorem ascending_editsOf {offset : Nat} {cs : List Chunk}
    (h : ∀ c ∈ cs, c.new.isSome → c.old ≠ []) : Ascending (editsOf offset cs) := by
  induction cs generalizing offset with
  | nil => exact .nil
  | cons c cs ih =>
    have hrest := @ih (offset + c.old.size) fun c hc => h c (List.mem_cons_of_mem _ hc)
    rw [editsOf]
    cases hnew : c.new with
    | none => exact hrest
    | some text =>
      refine List.pairwise_cons.mpr ⟨fun e he => ?_, hrest⟩
      have hpos := Text.size_pos (h c List.mem_cons_self (by rw [hnew]; rfl))
      have hle := le_start_of_mem_editsOf e he
      dsimp only
      omega

/-- Edits in different places ascend when they are sorted.  The order in which they were given has
no part in it. -/
theorem ascending_sortList {edits : List Edit}
    (hapart : edits.Pairwise fun e f => e.start ≠ f.start) :
    Ascending (sortList (fun e f => e.start < f.start) edits) := by
  have hsorted : (sortList (fun e f : Edit => e.start < f.start) edits).Pairwise fun e f =>
      ¬decide (f.start < e.start) = true := by
    apply pairwise_sortList
    · intro e f hlt hgt
      rw [decide_eq_true_eq] at hlt hgt
      omega
    · intro e f g hef hfg hge
      rw [decide_eq_true_eq] at hef hfg hge
      omega
  have hplaces := ((perm_sortList (fun e f : Edit => decide (e.start < f.start)) _).pairwise_iff
    fun hne => Ne.symm hne).mpr hapart
  refine (hsorted.and hplaces).imp fun ⟨hnot, hne⟩ => ?_
  rw [decide_eq_true_eq] at hnot
  omega

/-- **Ascending edits** are told by which ones they are.  There is only one order in which they
ascend. -/
theorem eq_of_ascending {edits edits' : List Edit} (h : Ascending edits) (h' : Ascending edits')
    (hmem : ∀ e, e ∈ edits ↔ e ∈ edits') : edits = edits' := by
  have : Std.Irrefl fun e f : Edit => e.start < f.start := ⟨fun e => Nat.lt_irrefl e.start⟩
  have : Std.Antisymm fun e f : Edit => e.start < f.start :=
    ⟨fun e f hef hfe => absurd hfe (Nat.lt_asymm hef)⟩
  exact h.eq_of_mem_iff h' hmem

/-! ### Where a text stands -/

/-- The text stands in the source from the byte `start` up to the byte `stop`. -/
def StandsAt (source : Text) (start stop : Nat) (text : Text) : Prop :=
  ∃ before behind, source = before ++ (text ++ behind) ∧ start = before.size ∧
    stop = (before ++ text).size

namespace StandsAt

variable {source text text' : Text} {start middle stop : Nat}

theorem stop_eq (h : StandsAt source start stop text) : stop = start + text.size := by
  obtain ⟨before, behind, -, rfl, rfl⟩ := h
  exact Text.size_append _ _

/-- What stands in a source ends within it. -/
theorem stop_le (h : StandsAt source start stop text) : stop ≤ source.size := by
  obtain ⟨before, behind, rfl, -, rfl⟩ := h
  rw [← List.append_assoc, Text.size_append (before ++ text)]
  omega

/-- Texts that stand one behind the other. -/
theorem append (h : StandsAt source start middle text) (h' : StandsAt source middle stop text') :
    StandsAt source start stop (text ++ text') := by
  obtain ⟨before, behind, hsource, hstart, hmiddle⟩ := h
  obtain ⟨before', behind', hsource', hmiddle', hstop⟩ := h'
  obtain ⟨rfl, rfl⟩ : before ++ text = before' ∧ behind = text' ++ behind' := by
    refine append_inj_of_size ?_ (hmiddle.symm.trans hmiddle')
    rw [List.append_assoc, ← hsource, hsource']
  exact ⟨before, behind', by rw [hsource, List.append_assoc], hstart, by
    rw [hstop, List.append_assoc]⟩

/-- A part of a text that stands somewhere. -/
theorem within {front behind : Text} {low high : Nat}
    (h : StandsAt source start stop (front ++ (text ++ behind))) (hlow : low = start + front.size)
    (hhigh : high = low + text.size) : StandsAt source low high text := by
  obtain ⟨before, tail, rfl, rfl, -⟩ := h
  refine ⟨before ++ front, behind ++ tail, by simp, ?_, ?_⟩
  · rw [hlow, Text.size_append]
  · rw [hhigh, hlow, Text.size_append, Text.size_append]

/-- What stands between two bytes is told by the source. -/
theorem text_eq (h : StandsAt source start stop text) (h' : StandsAt source start stop text') :
    text = text' := by
  obtain ⟨before, behind, hsource, hstart, hstop⟩ := h
  obtain ⟨before', behind', hsource', hstart', hstop'⟩ := h'
  obtain ⟨rfl, hrest⟩ : before = before' ∧ text ++ behind = text' ++ behind' :=
    append_inj_of_size (hsource.symm.trans hsource') (hstart.symm.trans hstart')
  refine (append_inj_of_size hrest ?_).1
  rw [Text.size_append] at hstop hstop'
  omega

end StandsAt

/-! ### Edits one after the other -/

/-- The text after one edit, if the edit is of a part of it. -/
def Text.replace? (t : Text) (e : Edit) : Option Text :=
  let front := t.cut e.start
  let old := Text.cut (e.stop - e.start) front.2
  if e.start ≤ e.stop ∧ front.1.size = e.start ∧ old.1.size = e.stop - e.start then
    some (front.1 ++ e.text ++ old.2)
  else none

/-- The text, whose first byte has an offset, holds `old` where the edit is. -/
def Edit.Replaces (e : Edit) (offset : Nat) (text old : Text) : Prop :=
  ∃ front behind, text = front ++ (old ++ behind) ∧ e.start = offset + front.size ∧
    e.stop = e.start + old.size

/-- An edit of a part replaces that part. -/
theorem replace?_append (front old behind new : Text) :
    Text.replace? (front ++ (old ++ behind)) ⟨front.size, front.size + old.size, new⟩ =
      some (front ++ (new ++ behind)) := by
  simp [Text.replace?]

/-! ### Edits of chunks -/

/-- **From the back to the front** the edits of chunks replace these chunks, whatever stands
behind them. -/
theorem foldlM_reverse_editsOf (cs : List Chunk) (behind : Text) :
    (editsOf 0 cs).reverse.foldlM Text.replace? (oldText cs ++ behind) =
      some (newText cs ++ behind) := by
  induction cs using List.reverseRecOn generalizing behind with
  | nil => rfl
  | append_singleton cs c ih =>
    rw [editsOf_append, List.reverse_append, List.foldlM_append, oldText_append, newText_append,
      List.append_assoc, List.append_assoc]
    have hold : oldText [c] = c.old := List.append_nil _
    have hnew : newText [c] = c.new.getD c.old := List.append_nil _
    rw [hold, hnew, ← ih]
    cases hedit : c.new with
    | none => simp [editsOf, hedit]
    | some new => simp [editsOf, hedit, replace?_append]

/-- Edits of parts of a text that do not overlap replace chunks of it.  The induction is on the
edits: what stands in front of the first one is kept, and the others are edits of what comes behind
it. -/
theorem exists_chunks {offset : Nat} {text : Text} {edits : List Edit}
    (hold : ∀ e ∈ edits, ∃ old, e.Replaces offset text old)
    (happart : edits.Pairwise fun e f => e.stop ≤ f.start) :
    ∃ cs, oldText cs = text ∧ editsOf offset cs = edits := by
  induction edits generalizing offset text with
  | nil => exact ⟨[⟨text, none⟩], List.append_nil _, rfl⟩
  | cons e edits ih =>
    obtain ⟨old, front, behind, rfl, hstart, hstop⟩ := hold e List.mem_cons_self
    obtain ⟨hfirst, happart⟩ := List.pairwise_cons.mp happart
    obtain ⟨cs, rfl, hcs⟩ := @ih e.stop behind (fun f hf => by
      obtain ⟨old', front', behind', htext, hstart', hstop'⟩ :=
        hold f (List.mem_cons_of_mem _ hf)
      have hle := hfirst f hf
      rw [← List.append_assoc] at htext
      obtain ⟨between, rfl, hbehind⟩ := exists_behind_of_size htext (by
        rw [Text.size_append]
        omega)
      refine ⟨old', between, behind', hbehind, ?_, hstop'⟩
      rw [hstart', Text.size_append, Text.size_append]
      omega) happart
    refine ⟨⟨front, none⟩ :: ⟨old, some e.text⟩ :: cs, rfl, ?_⟩
    simp [editsOf, ← hstart, ← hstop, hcs]

/-- Edits in descending order are those in ascending order from the back to the front. -/
theorem eq_reverse_of_descending {edits edits' : List Edit} (hascending : Ascending edits)
    (hperm : edits'.Perm edits) (hdescending : edits'.Pairwise fun e f => f.start ≤ e.start) :
    edits' = edits.reverse := by
  have hplaces : edits'.Pairwise fun e f => e.start ≠ f.start := by
    refine (hperm.pairwise_iff fun hne => Ne.symm hne).mpr (hascending.imp fun hlt => ?_)
    exact Nat.ne_of_lt hlt
  have hstrict : Ascending edits'.reverse := by
    rw [Ascending, List.pairwise_reverse]
    refine (hdescending.and hplaces).imp fun ⟨hle, hne⟩ => ?_
    omega
  rw [← eq_of_ascending hstrict hascending fun e => by rw [List.mem_reverse, hperm.mem_iff],
    List.reverse_reverse]

/-- **Edits in descending order**, carried out one after the other, replace the chunks that they
are edits of. -/
theorem foldlM_replace? {cs : List Chunk} {edits : List Edit} (hascending : Ascending (editsOf 0 cs))
    (hperm : edits.Perm (editsOf 0 cs))
    (hdescending : edits.Pairwise fun e f => f.start ≤ e.start) :
    edits.foldlM Text.replace? (oldText cs) = some (newText cs) := by
  have hmore := foldlM_reverse_editsOf cs []
  rw [List.append_nil, List.append_nil] at hmore
  rw [eq_reverse_of_descending hascending hperm hdescending, hmore]

end Twinfold
