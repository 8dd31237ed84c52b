import Twinfold.Declaration.Extractor
import Twinfold.Detection.Buckets

/-!
# Detecting similar functions

`searchEdges` runs the search of `Twinfold.Detection.Buckets` and merges what the
three kinds of pairs yield: edges ascend by their ends, and a pair occurs once.
`Detection.of` makes functions ready, leaves out those with too few lines, searches for
edges and forms groups; `detect` does so for the declarations of a source text.

A `Detection` also counts the work done, and `Detection.log` tells about it.  What a run
has to tell is collected as a list of `LogRecord`s, in order.  Whoever carries out the
run decides which levels are shown.
-/

namespace Twinfold

/-! ### Log records -/

/-- How important a record is. -/
inductive LogLevel
  | debug
  | info
  | warn
deriving DecidableEq, Repr

/-- The name of a level. -/
def LogLevel.label : LogLevel → String
  | .debug => "DEBUG"
  | .info => "INFO"
  | .warn => "WARN"

/-- Whether a record of a level is shown, where `least` is the least important one shown. -/
def LogLevel.shownFrom (least level : LogLevel) : Bool :=
  match least, level with
  | .debug, _ | .info, .info | .info, .warn | .warn, .warn => true
  | _, _ => false

/-- One message of a run. -/
structure LogRecord where
  level : LogLevel
  message : String
deriving DecidableEq, Repr

namespace LogRecord

/-- A message about details of the work. -/
def debug (message : String) : LogRecord := ⟨.debug, message⟩

/-- A message about the result. -/
def info (message : String) : LogRecord := ⟨.info, message⟩

/-- A message about something that may not be intended. -/
def warn (message : String) : LogRecord := ⟨.warn, message⟩

/-- The record as one line, without the line end. -/
def render (r : LogRecord) : String := r.level.label ++ ": " ++ r.message

end LogRecord

/-! ### The search -/

namespace Edge

/-- The order of edges: by their ends, and edges without a changed line first. -/
def before (e f : Edge) : Bool :=
  e.a < f.a || e.a = f.a && (e.b < f.b || e.b = f.b &&
    match e.changedLine, f.changedLine with
    | none, some _ => true
    | some i, some j => i < j
    | _, none => false)

/-- Whether two edges join the same functions. -/
def samePair (e f : Edge) : Bool := e.a = f.a && e.b = f.b

/-- Keeps the first of neighbouring edges that join the same functions. -/
def dropRepeats : Option Edge → List Edge → List Edge
  | _, [] => []
  | last, e :: es =>
    if last.any e.samePair then dropRepeats last es else e :: dropRepeats (some e) es

/-- The edges in order, one for each pair. -/
def merge (edges : List Edge) : List Edge := dropRepeats none (sortList before edges)

end Edge

/-- The work and the yield of a detection in numbers. -/
structure Tally where
  functions : Nat := 0
  comparedFunctions : Nat := 0
  fingerprintBuckets : Nat := 0
  candidatePairs : Nat := 0
  comparisons : Nat := 0
  identicalEdges : Nat := 0
  nearDuplicateEdges : Nat := 0
  groups : Nat := 0
deriving DecidableEq, Repr

/-- What a search finds. -/
structure Findings where
  edges : List Edge
  distinctBodies : Nat
  fingerprintBuckets : Nat
  candidatePairs : Nat
  comparisons : Nat
  identicalEdges : Nat
deriving DecidableEq, Repr

/-- The representatives of all shape buckets, by position. -/
def Confirmed.sorted (found : Confirmed) : List Candidate :=
  sortList (fun c d => c.index < d.index) found.representatives

/-- Brings together what `shapes` and `masked` buckets and the deletion pairs yield. -/
def searchBuckets (shapes masked : List (List Candidate)) : Findings :=
  let confirmed := confirmAll shapes
  let linked := linkAll masked
  let pairs := deletionPairs confirmed.sorted
  { edges := Edge.merge
      (confirmed.edges ++ linked.edges ++ pairs.filterMap fun (c, d) => c.edge? d)
    distinctBodies := confirmed.representatives.length
    fingerprintBuckets := shapes.length
    candidatePairs := linked.comparisons + pairs.length
    comparisons := confirmed.comparisons + linked.comparisons + pairs.length
    identicalEdges := confirmed.edges.length }

/-- Finds the edges between candidates. -/
def searchEdges (cs : List Candidate) : Findings :=
  let shapes := shapeBuckets cs
  searchBuckets shapes (maskedBuckets (confirmAll shapes).sorted)

/-- The groups of similar functions in a list of declarations. -/
structure Detection where
  rules : LineRules
  declarations : List Declaration
  edges : List Edge
  /-- All groups, singletons included. -/
  groups : List Group
  distinctBodies : Nat
  tally : Tally
deriving DecidableEq, Repr

namespace Detection

/-- The groups with more than one member. -/
def duplicates (d : Detection) : List Group := d.groups.filter fun g => !g.isSingleton

/-- The names of the members of a group. -/
def memberNames (d : Detection) (g : Group) : List Text :=
  g.members.filterMap fun i => d.declarations[i]?.map Declaration.name

/-- What there is to tell about a detection. -/
def log (d : Detection) : List LogRecord :=
  let t := d.tally
  [.debug s!"comparing {t.comparedFunctions} of {t.functions} functions",
   .debug (s!"{t.fingerprintBuckets} fingerprint buckets, {d.distinctBodies} distinct bodies, " ++
    s!"{t.identicalEdges} identical edges"),
   .debug (s!"{t.candidatePairs} candidate pairs, {t.comparisons} comparisons, " ++
    s!"{t.nearDuplicateEdges} near-duplicate edges"),
   .debug s!"{t.groups} similarity groups"]

end Detection

/-- The candidates among the declarations: those with enough lines. -/
def candidates (options : Options) (ds : List Declaration) : List Candidate :=
  (ds.zipIdx.filter fun (d, _) => options.minLines ≤ d.lines.length).map fun (d, i) =>
    .of i (.of options.rules d)

/-- Groups declarations by similarity. -/
def Detection.of (options : Options) (ds : List Declaration) : Detection :=
  let cs := candidates options ds
  let found := searchEdges cs
  let groups := Group.ofEdges ds.length found.edges
  { rules := options.rules
    declarations := ds
    edges := found.edges
    groups
    distinctBodies := found.distinctBodies
    tally :=
      { functions := ds.length
        comparedFunctions := cs.length
        fingerprintBuckets := found.fingerprintBuckets
        candidatePairs := found.candidatePairs
        comparisons := found.comparisons
        identicalEdges := found.identicalEdges
        nearDuplicateEdges := found.edges.countP fun e => e.changedLine.isSome
        groups := groups.countP fun g => !g.isSingleton } }

/-- Groups the declarations of a source text by similarity. -/
def detect (source : Text) (options : Options) : Except ParseError Detection :=
  (declarations source options).map (.of options)

end Twinfold
