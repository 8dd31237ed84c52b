import Twinfold.Similarity.Basic
import Twinfold.Similarity.LineForm
import Twinfold.Text.CharClass

/-!
# Comparing two functions

Two functions are compared only if their signatures agree.  A signature holds the
flavour and the parameters, joined to one text by a separator.  Where parameters
are compared by position, the names do not count but their number and their
**shapes** do: the default values, the rest marks and the patterns.

A `FunctionForm` is a declaration made ready for comparison: its signature, the forms
of its lines, and the names that are bound in it.  It also answers whether a token of
a line can be replaced by a parameter that holds its value (`isReplaceable`): numbers
can, and strings that are no directives, templates without substitutions and without
a tag, the constants, and callees that are free.

Two functions are near-duplicates when their signatures agree and their bodies
differ in at most one line, which may be substituted, inserted or deleted.  The
bodies are aligned once, at the first line in which they differ (`lineEdit`); that the
rest then has to agree decides the matter, so a comparison is linear.

For a substituted line `substitution` looks at the tokens between the common front and
the common end of the two lines.  If that is one token on either side, and both can be
replaced by a parameter, the lines differ in one expression.
-/

namespace Twinfold

/-! ### Parameters and signatures -/

/-- Whether a parameter collects the rest of the arguments. -/
def Param.isRest (param : Text) : Bool := "...".toList.isPrefixOf param

/-- Whether a parameter is a destructuring pattern. -/
def Param.isPattern (param : Text) : Bool :=
  match param with
  | c :: _ => c = '{' || c = '['
  | [] => false

/-- The name at the beginning of a parameter, behind the rest mark if there is one. -/
def Param.name? (param : Text) : Option Text :=
  let bare := if Param.isRest param then param.drop 3 else param
  let name := (Text.trimStart bare).takeWhile Text.isWordChar
  if name.isEmpty then none else some name

/-- What counts of a parameter that is compared by position. -/
def Param.shape (param : Text) : Text :=
  if Param.isRest param then "...".toList
  else if Param.isPattern param then param
  else
    match Text.splitOnce '=' param with
    | some (_, value) => '=' :: Text.trim value
    | none => []

/-- What has to agree before bodies are compared. -/
structure Signature where
  flavor : Flavor
  /-- The number of parameters, where only shapes are compared. -/
  arity : Option Nat
  /-- The parameters or their shapes, joined by the null character. -/
  params : Text
deriving DecidableEq, Repr

/-- The signature of a declaration. -/
def Declaration.signature (rules : LineRules) (d : Declaration) : Signature :=
  if rules.ignoreParamNames then
    ⟨d.flavor, some d.params.length, Text.join ['\x00'] (d.params.map Param.shape)⟩
  else ⟨d.flavor, none, Text.join ['\x00'] d.params⟩

/-! ### What is compared of a function -/

/-- The words that are no names of variables. -/
def keywords : List String :=
  ["arguments", "async", "await", "break", "case", "catch", "class", "const", "continue",
   "debugger", "default", "delete", "do", "else", "export", "extends", "false", "finally", "for",
   "function", "if", "import", "in", "instanceof", "let", "new", "null", "of", "return", "static",
   "super", "switch", "this", "throw", "true", "try", "typeof", "var", "void", "while", "with",
   "yield"]

/-- Callees that mean something else when they are not called by their own name. -/
def calleesByName : List String := ["eval", "require"]

/-- The operators that assign to what stands before or behind them. -/
def assignOps : List String :=
  ["=", "+=", "-=", "*=", "/=", "%=", "**=", "<<=", ">>=", ">>>=", "&=", "|=", "^=", "&&=", "||=",
   "??=", "++", "--"]

/-- The words for constant values. -/
def constantWords : List String := ["true", "false", "null"]

/-- A function made ready for comparison. -/
structure FunctionForm where
  declaration : Declaration
  signature : Signature
  lines : List LineForm
  /-- The names bound by the parameters and in the body. -/
  bound : List Text
deriving DecidableEq, Repr

namespace FunctionForm

/-- Makes a declaration ready for comparison.  A parameter without a name keeps its
position and matches no word. -/
def of (rules : LineRules) (d : Declaration) : FunctionForm :=
  let names := d.params.map fun param => (Param.name? param).getD []
  let lines := d.lines.map fun line => LineForm.of rules names line.text
  { declaration := d
    signature := d.signature rules
    lines
    bound := names.filter (fun name => !name.isEmpty) ++
      nestedNames [] (lines.flatMap LineForm.lexed) ++ lines.flatMap LineForm.declaredNames }

/-- The keys of the lines. -/
def keys (f : FunctionForm) : List Text := f.lines.map LineForm.key

/-- Whether the body looks at its receiver or at its list of arguments. -/
def readsReceiver (f : FunctionForm) : Bool :=
  f.lines.any fun line =>
    line.lexed.any fun t => t.kind = .ident && t.isAnyOf ["this", "arguments"]

/-- Whether a template behind the token `before` is tagged by it. -/
def tagsTemplate (before : Token) : Bool :=
  match before.kind with
  | .ident => !before.isAnyOf keywords
  | .template => true
  | .punct => before.isAnyOf [")", "]"]
  | .number | .string | .regex => false

/-- Whether a template holds a substitution. -/
def hasSubstitution (text : Text) : Bool := (Text.find? ['$', '{'] text).isSome

/-- Whether an argument with its value could stand for the token `t` between its
neighbours in a line. -/
def isReplaceable (f : FunctionForm) (before : Option Token) (t : FormToken)
    (after : Option Token) : Bool :=
  if before.any (fun b => b.isAnyOf [".", "?.", "++", "--"]) ||
      after.any (fun a => a.isAnyOf assignOps) ||
      after.any (fun a => a.text = [':']) && before.all (fun b => b.isAnyOf ["\x7b", ","]) then
    false
  else
    match t.token.kind with
    | .number => true
    -- A string that is a statement of its own is a directive.
    | .string => !(before.isNone && after.all fun a => a.text = [';'])
    | .template => !before.any tagsTemplate && !hasSubstitution t.token.text
    | .ident =>
      t.token.isAnyOf constantWords ||
        (after.any (fun a => a.text = ['(']) && t.param.isNone &&
          !t.token.isAnyOf keywords && !t.token.isAnyOf calleesByName &&
          !f.bound.contains t.token.text && !before.any fun b => b.text = "function".toList)
    | .regex | .punct => false

/-- Whether an argument could stand for the token number `i` of a line. -/
def isReplaceableAt (f : FunctionForm) (line : LineForm) (i : Nat) : Bool :=
  line.tokens[i]?.any fun t =>
    f.isReplaceable (if i = 0 then none else line.lexed[i - 1]?) t line.lexed[i + 1]?

end FunctionForm

/-! ### Verdicts -/

/-- How many elements at the front of two lists are the same. -/
def agreement {α : Type} (same : α → α → Bool) : List α → List α → Nat
  | a :: as, b :: bs => if same a b then agreement same as bs + 1 else 0
  | _, _ => 0

/-- The one place in which two lists of lines differ, if they do; or that they differ
in more than one. -/
def lineEdit (left right : List Text) : Except Mismatch (Option LineEdit) :=
  let front := agreement (fun a b => a = b) left right
  if left.length = right.length then
    if front = left.length then .ok none
    else if left.drop (front + 1) = right.drop (front + 1) then .ok (some (.substituted front))
    else .error .lines
  else if left.length + 1 = right.length then
    if left.drop front = right.drop (front + 1) then .ok (some (.inserted front))
    else .error .lines
  else if right.length + 1 = left.length then
    if left.drop (front + 1) = right.drop front then .ok (some (.deleted front))
    else .error .lines
  else .error .lineCount

/-- The bytes of a token in its line. -/
def FormToken.span (t : FormToken) : Span := ⟨t.token.start, t.token.stop⟩

/-- What a substituted line touches: `l` in the body of `left` against `r` in the body
of `right`. -/
def substitution (left : FunctionForm) (l : LineForm) (right : FunctionForm)
    (r : LineForm) : Difference :=
  if l.tokens.isEmpty || r.tokens.isEmpty then .statement
  else
    let front := agreement FormToken.same l.tokens r.tokens
    let back := agreement FormToken.same (l.tokens.drop front).reverse (r.tokens.drop front).reverse
    let leftCount := l.tokens.length - back - front
    let rightCount := r.tokens.length - back - front
    match l.tokens[front]?, r.tokens[front]?,
      leftCount = 1 && rightCount = 1 && left.isReplaceableAt l front &&
        right.isReplaceableAt r front with
    | some t, some u, true => .expression ⟨t.span, t.token.text, u.span, u.token.text⟩
    | _, _, _ =>
      if ((l.marks.drop front).take leftCount).any id ||
          ((r.marks.drop front).take rightCount).any id then .binding
      else .statement

/-- What an additional line touches. -/
def extraLine (line : Option LineForm) : Difference :=
  if line.any LineForm.declares then .binding else .statement

/-- Compares two functions that are made ready by the same rules. -/
def FunctionForm.compare (left right : FunctionForm) : Verdict :=
  if left.signature = right.signature then
    match lineEdit left.keys right.keys with
    | .error why => .notSimilar why
    | .ok none => .identical
    | .ok (some (.substituted i)) =>
      match left.lines[i]?, right.lines[i]? with
      | some l, some r => .nearDuplicate (.substituted i) (substitution left l right r)
      | _, _ => .notSimilar .lines
    | .ok (some (.inserted i)) => .nearDuplicate (.inserted i) (extraLine right.lines[i]?)
    | .ok (some (.deleted i)) => .nearDuplicate (.deleted i) (extraLine left.lines[i]?)
  else .notSimilar .signature

/-- Compares two declarations. -/
def Declaration.compare (rules : LineRules) (left right : Declaration) : Verdict :=
  (FunctionForm.of rules left).compare (.of rules right)

end Twinfold
