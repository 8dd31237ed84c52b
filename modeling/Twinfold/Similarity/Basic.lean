import Twinfold.Declaration.Basic

/-!
# Verdicts

The comparison of two functions ends in a `Verdict`: the bodies are identical, or
near-duplicates that differ in one line, or not similar.  Of a near-duplicate the
verdict tells which line changed and what the difference touches; a difference in one
expression comes with the `ExprPair` of the two expressions.

Every verdict can be seen from the other side: `flip` exchanges left and right.
-/

namespace Twinfold

/-- The place of the one line in which two bodies differ.  An inserted line is
counted in the right body and a deleted one in the left body. -/
inductive LineEdit
  | substituted (index : Nat)
  | inserted (index : Nat)
  | deleted (index : Nat)
deriving DecidableEq, Repr

namespace LineEdit

/-- The number of the line. -/
def index : LineEdit → Nat
  | .substituted i | .inserted i | .deleted i => i

/-- The edit seen from the other side. -/
def flip : LineEdit → LineEdit
  | .substituted i => .substituted i
  | .inserted i => .deleted i
  | .deleted i => .inserted i

end LineEdit

/-- The bytes from `start` up to `stop`. -/
structure Span where
  start : Nat
  stop : Nat
deriving DecidableEq, Repr

/-- The expression in which two lines differ: its bytes in either line and its text. -/
structure ExprPair where
  left : Span
  leftText : Text
  right : Span
  rightText : Text
deriving DecidableEq, Repr

/-- The pair seen from the other side. -/
def ExprPair.flip (pair : ExprPair) : ExprPair :=
  ⟨pair.right, pair.rightText, pair.left, pair.leftText⟩

/-- What a difference between two lines touches. -/
inductive Difference
  /-- One literal or one free callee, which an argument can stand for. -/
  | expression (pair : ExprPair)
  /-- The difference introduces or renames a local binding. -/
  | binding
  /-- Anything else. -/
  | statement
deriving DecidableEq, Repr

namespace Difference

/-- Whether an argument can stand for the difference. -/
def isExpression : Difference → Bool
  | .expression _ => true
  | .binding | .statement => false

/-- The difference seen from the other side. -/
def flip : Difference → Difference
  | .expression pair => .expression pair.flip
  | .binding => .binding
  | .statement => .statement

end Difference

/-- Why two functions are not similar. -/
inductive Mismatch
  /-- The flavours or the parameters differ; the bodies are not looked at. -/
  | signature
  /-- The numbers of lines differ by more than one. -/
  | lineCount
  /-- More than one line differs. -/
  | lines
deriving DecidableEq, Repr

/-- The outcome of a comparison. -/
inductive Verdict
  | identical
  | nearDuplicate (edit : LineEdit) (difference : Difference)
  | notSimilar (why : Mismatch)
deriving DecidableEq, Repr

namespace Verdict

/-- Whether the functions differ in at most one line. -/
def isSimilar : Verdict → Bool
  | .identical | .nearDuplicate _ _ => true
  | .notSimilar _ => false

/-- The line in which similar functions differ. -/
def changedLine : Verdict → Option Nat
  | .nearDuplicate edit _ => some edit.index
  | .identical | .notSimilar _ => none

/-- The verdict seen from the other side. -/
def flip : Verdict → Verdict
  | .identical => .identical
  | .nearDuplicate edit difference => .nearDuplicate edit.flip difference.flip
  | .notSimilar why => .notSimilar why

end Verdict

end Twinfold
