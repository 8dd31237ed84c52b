import Twinfold.Detection.Search

/-!
# Which members of a group can share a body

The first function of a group is its canonical one.  Another member can become an
adapter if its body equals the canonical body or differs from it in one expression,
a **slot**, whose value the adapter then passes as an argument.  `Obstacle`
lists what stands in the way: of the whole group (`groupObstacle?`), or of one member
(`assess`).
-/

namespace Twinfold

/-- Why a member of a group keeps its own body. -/
inductive Obstacle
  /-- The member is connected to the canonical function through others only. -/
  | unlikeCanonical
  /-- The difference is not one expression that an argument can stand for. -/
  | otherDifference
  /-- The member needs a slot that overlaps the slot of another member. -/
  | slotOverlap
  /-- A parameter is a pattern and cannot be passed on. -/
  | patternParameter
  /-- Asynchronous functions and generators cannot pass on their result by a call. -/
  | notPlain
  /-- The canonical body looks at its receiver or at its list of arguments. -/
  | readsReceiver
  /-- The member stands in another block than the canonical function. -/
  | otherScope
  /-- The canonical function has no name to be called by. -/
  | namelessCanonical
deriving DecidableEq, Repr

/-- The wording of a reason. -/
def Obstacle.message : Obstacle → String
  | .unlikeCanonical => "not a near-duplicate of the canonical function"
  | .otherDifference => "differing line is not a substitutable expression"
  | .slotOverlap => "differing expression overlaps another member's"
  | .patternParameter => "destructured parameters cannot be forwarded"
  | .notPlain => "async or generator function"
  | .readsReceiver => "body uses `this` or `arguments`"
  | .otherScope => "declared in a different scope than the canonical function"
  | .namelessCanonical => "canonical function is anonymous"

/-- A member of a group that keeps its own body. -/
structure Kept where
  index : Nat
  /-- The canonical function of the group. -/
  canonical : Nat
  reason : Obstacle
deriving DecidableEq, Repr

/-- An expression of the canonical body that is passed as an argument. -/
structure Slot where
  /-- The number of the line it is in. -/
  line : Nat
  /-- Its bytes in that line. -/
  span : Span
  text : Text
deriving DecidableEq, Repr

namespace Slot

/-- Whether two slots are in one place. -/
def samePlace (s t : Slot) : Bool := s.line = t.line && s.span = t.span

/-- Whether two slots in different places have bytes in common. -/
def overlaps (s t : Slot) : Bool :=
  s.line = t.line && s.span ≠ t.span && s.span.start < t.span.stop && t.span.start < s.span.stop

/-- The order of slots in the body. -/
def before (s t : Slot) : Bool :=
  s.line < t.line || s.line = t.line && s.span.start < t.span.start

end Slot

/-- A member that becomes an adapter. -/
structure Member where
  index : Nat
  declaration : Declaration
  /-- The slot in which the member differs, and what it has there. -/
  difference : Option (Slot × Text)
deriving DecidableEq, Repr

/-- The arguments that pass the parameters on; patterns cannot be. -/
def Declaration.passedParams? (d : Declaration) : Option (List Text) :=
  d.params.mapM fun param =>
    if Param.isPattern param then none
    else (Param.name? param).map fun name =>
      if Param.isRest param then "...".toList ++ name else name

/-- What keeps all members from sharing the canonical body. -/
def groupObstacle? (canonical : FunctionForm) : Option Obstacle :=
  let d := canonical.declaration
  if d.flavor ≠ .plain then some .notPlain
  else if canonical.readsReceiver then some .readsReceiver
  else if d.passedParams?.isNone then some .patternParameter
  else if d.name = "default".toList then some .namelessCanonical
  else none

/-- In which slot a member differs from the canonical function, if in any; or why it
cannot share the body. -/
def assess (canonical member : FunctionForm) : Except Obstacle (Option (Slot × Text)) :=
  if member.declaration.scope ≠ canonical.declaration.scope then .error .otherScope
  else if member.declaration.passedParams?.isNone then .error .patternParameter
  else
    match canonical.compare member with
    | .identical => .ok none
    | .nearDuplicate (.substituted line) (.expression e) =>
      .ok (some (⟨line, e.left, e.leftText⟩, e.rightText))
    | .nearDuplicate _ _ => .error .otherDifference
    | .notSimilar _ => .error .unlikeCanonical

/-- A group while its members are assessed. -/
structure Sharing where
  /-- The slots found so far. -/
  slots : List Slot := []
  members : List Member := []
  kept : List Kept := []
deriving DecidableEq, Repr

namespace Sharing

/-- Enters a slot unless it is there already; it must not overlap another one. -/
def addSlot (slots : List Slot) (slot : Slot) : Except Obstacle (List Slot) :=
  if slots.any slot.samePlace then .ok slots
  else if slots.any slot.overlaps then .error .slotOverlap
  else .ok (slots ++ [slot])

/-- Assesses one more member. -/
def add (canonicalIndex : Nat) (canonical : FunctionForm) (s : Sharing) (index : Nat)
    (member : FunctionForm) : Sharing :=
  let assessed := do
    let difference ← assess canonical member
    let slots ← match difference with
      | some (slot, _) => addSlot s.slots slot
      | none => .ok s.slots
    .ok (slots, difference)
  match assessed with
  | .ok (slots, difference) =>
    { s with slots, members := s.members ++ [⟨index, member.declaration, difference⟩] }
  | .error reason => { s with kept := s.kept ++ [⟨index, canonicalIndex, reason⟩] }

end Sharing

end Twinfold
