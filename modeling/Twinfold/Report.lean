import Twinfold.Detection.Search
import Twinfold.Text.Json
import Twinfold.SymbolMap

/-!
# Reports on groups of similar functions

The groups with more than one member can be reported in three formats: as nested
lists of names, as a listing to be read, and as a document with all details.  With a
symbol map, the lists of names hold the names that the short names stand for; the
other two formats show them beside the short names.
-/

namespace Twinfold

/-- A function as it is reported. -/
structure ReportedFunction where
  index : Nat
  name : Text
  fullName : Option Text
  line : Nat
  params : List Text
  lineCount : Nat
deriving DecidableEq, Repr

/-- A group as it is reported. -/
structure ReportedGroup where
  canonical : Nat
  members : List ReportedFunction
deriving DecidableEq, Repr

/-- What is reported of a detection. -/
structure Report where
  functions : Nat
  groups : List ReportedGroup
  tally : Option Tally
deriving DecidableEq, Repr

/-- What is reported of a function. -/
def ReportedFunction.of (symbols : Option SymbolMap) (d : Declaration) : ReportedFunction where
  index := d.index
  name := d.name
  fullName := symbols.bind fun m => m.get? d.name
  line := d.line
  params := d.params
  lineCount := d.lines.length

namespace Report

/-- The report on a detection. -/
def of (symbols : Option SymbolMap) (tally : Option Tally) (d : Detection) : Report where
  functions := d.declarations.length
  groups := d.duplicates.map fun g =>
    { canonical := g.canonical
      members := g.members.filterMap fun i => d.declarations[i]?.map (.of symbols) }
  tally

/-! ### Names -/

/-- The names of the members of all groups. -/
def nameGroups (d : Detection) : List (List Text) := d.duplicates.map d.memberNames

/-- The names that groups of short names stand for. -/
def expandGroups (m : SymbolMap) (groups : List (List Text)) : List (List Text) :=
  groups.map fun names => names.map m.expand

/-- A warning for every name that a symbol map lacks. -/
def unknownNames (m : SymbolMap) (groups : List (List Text)) : List LogRecord :=
  groups.flatten.filterMap fun name =>
    match m.get? name with
    | some _ => none
    | none => some (.warn s!"no symbol map entry for {String.ofList name}")

/-- Groups of names as a document. -/
def namesJson (groups : List (List Text)) : Json :=
  .arr (groups.map fun names => .arr (names.map .str))

/-! ### Details -/

/-- A function as a document. -/
def functionJson (f : ReportedFunction) : Json :=
  .obj ([("index".toList, .num f.index), ("name".toList, .str f.name)] ++
    (f.fullName.toList.map fun name => ("originalName".toList, .str name)) ++
    [("line".toList, .num f.line), ("params".toList, .arr (f.params.map .str)),
     ("lineCount".toList, .num f.lineCount)])

/-- A group as a document. -/
def groupJson (g : ReportedGroup) : Json :=
  .obj [("canonical".toList, .num g.canonical), ("members".toList, .arr (g.members.map functionJson))]

/-- The numbers of a detection as a document. -/
def tallyJson (t : Tally) : Json :=
  .obj
    [("functions".toList, .num t.functions),
     ("comparedFunctions".toList, .num t.comparedFunctions),
     ("fingerprintBuckets".toList, .num t.fingerprintBuckets),
     ("candidatePairs".toList, .num t.candidatePairs),
     ("comparisons".toList, .num t.comparisons),
     ("identicalEdges".toList, .num t.identicalEdges),
     ("nearDuplicateEdges".toList, .num t.nearDuplicateEdges),
     ("groups".toList, .num t.groups)]

/-- The report as a document. -/
def document (r : Report) : Json :=
  .obj ([("functions".toList, .num r.functions), ("groups".toList, .arr (r.groups.map groupJson))] ++
    r.tally.toList.map fun t => ("stats".toList, tallyJson t))

/-! ### Listings -/

/-- The line of a member, which is marked by a star if it is the canonical one. -/
def memberLine (canonical : Nat) (f : ReportedFunction) : Text :=
  (if f.index = canonical then ['*', ' '] else ['-', ' ']) ++ f.name ++
    (f.fullName.elim [] fun name => " (".toList ++ name ++ [')']) ++
    " line ".toList ++ Text.ofNat f.line ++
    " params=[".toList ++ Text.join [',', ' '] f.params ++
    "] lines=".toList ++ Text.ofNat f.lineCount ++ ['\n']

/-- The lines of a group. -/
def groupText (g : ReportedGroup) : Text :=
  "\nmembers=".toList ++ Text.ofNat g.members.length ++ ['\n'] ++
    g.members.flatMap (memberLine g.canonical)

/-- The report as a listing. -/
def toText (r : Report) : Text :=
  "similar function groups: ".toList ++ Text.ofNat r.groups.length ++
    " (of ".toList ++ Text.ofNat r.functions ++ " functions)\n".toList ++
    r.groups.flatMap groupText ++ ['\n']

end Report

/-- The numbers of a detection as a block of lines. -/
def Tally.toText (t : Tally) : Text :=
  String.toList <|
    "== detect stats ==\n" ++
    s!"functions={t.functions} compared={t.comparedFunctions} buckets={t.fingerprintBuckets}\n" ++
    s!"candidate_pairs={t.candidatePairs} comparisons={t.comparisons}\n" ++
    s!"edges: identical={t.identicalEdges} near_duplicate={t.nearDuplicateEdges}\n" ++
    s!"groups={t.groups}\n"

end Twinfold
