import Twinfold.Coalesce.Generated

/-!
# Coalescing the groups of a source text

A `Plan` says for every group of similar functions which members become adapters,
whether a helper is needed, and which edits of the source this comes to.  A helper is
needed when there are slots, when the canonical function cannot be called by its name
because another function of its scope has the same, or when a parameter of a member
hides that name.

`coalesce` carries the plan out.  The new text is extracted again, and it has to
declare as many functions as the source does, plus the helpers.
-/

namespace Twinfold

/-- A group that shares one body. -/
structure SharedBody where
  canonical : Nat
  /-- The members that become adapters, ascending. -/
  adapters : List Nat
  /-- The name of the helper, if one is needed. -/
  helper : Option Text
  /-- The number of slots. -/
  slots : Nat
deriving DecidableEq, Repr

/-- What is to be done to a source text. -/
structure Plan where
  shared : List SharedBody := []
  kept : List Kept := []
  edits : List Edit := []

/-- The names that a source text holds: its identifiers and the words in templates,
where code may stand. -/
def takenNames (ts : List Token) : List Text :=
  ts.flatMap fun t =>
    match t.kind with
    | .ident => [t.text]
    | .template => t.text.words Text.isWordChar
    | .number | .string | .regex | .punct => []

/-- Assesses the members of a group behind the canonical one. -/
def shareGroup (d : Detection) (canonical : FunctionForm) (group : Group) : Sharing :=
  group.others.foldl (fun s i =>
    match d.declarations[i]? with
    | some member => s.add group.canonical canonical i (.of d.rules member)
    | none => s) {}

/-- Whether the canonical function cannot be called by its own name. -/
def needsHelper (ds : List Declaration) (canonical : Declaration) (s : Sharing) : Bool :=
  !s.slots.isEmpty ||
  (ds.countP fun d => d.scope = canonical.scope && d.name = canonical.name) ≠ 1 ||
  s.members.any fun m => m.declaration.params.any fun p => Param.name? p = some canonical.name

/-- The arguments a member passes for the slots. -/
def Member.values (m : Member) (slots : List Slot) : List Text :=
  slots.map fun slot =>
    match m.difference with
    | some (own, value) => if own.samePlace slot then value else slot.text
    | none => slot.text

/-- Replaces a whole declaration. -/
def Declaration.replaceBy (d : Declaration) (text : Text) : Edit := ⟨d.start, d.stop, text⟩

namespace Plan

/-- Adds a group with members that share the canonical body. -/
def addShared (layout : Layout) (ds : List Declaration) (canonicalIndex : Nat)
    (canonical : Declaration) (s : Sharing) (p : Plan) (names : NameSupply) :
    Plan × NameSupply :=
  let slots := sortList Slot.before s.slots
  let adapters := s.members.map Member.index
  if needsHelper ds canonical s then
    let (helper, names) := names.fresh
    let (params, names) := names.freshList slots.length
    let text := layout.adapter canonical helper (slots.map Slot.text) ++ layout.lineEnd ++
      layout.helper canonical helper (slots.zip params)
    let edits := canonical.replaceBy text :: s.members.map fun m =>
      m.declaration.replaceBy (layout.adapter m.declaration helper (m.values slots))
    ({ p with
        shared := p.shared ++ [⟨canonicalIndex, adapters, some helper, slots.length⟩]
        edits := p.edits ++ edits }, names)
  else
    let edits := s.members.map fun m =>
      m.declaration.replaceBy (layout.adapter m.declaration canonical.name [])
    ({ p with
        shared := p.shared ++ [⟨canonicalIndex, adapters, none, slots.length⟩]
        edits := p.edits ++ edits }, names)

/-- Adds a group. -/
def addGroup (layout : Layout) (d : Detection) (canonical : Declaration) (group : Group)
    (p : Plan) (names : NameSupply) : Plan × NameSupply :=
  let form := FunctionForm.of d.rules canonical
  match groupObstacle? form with
  | some reason =>
    ({ p with kept := p.kept ++ group.others.map fun i => ⟨i, group.canonical, reason⟩ }, names)
  | none =>
    let s := shareGroup d form group
    let p := { p with kept := p.kept ++ s.kept }
    if s.members.isEmpty then (p, names)
    else p.addShared layout d.declarations group.canonical canonical s names

/-- Plans for groups in turn. -/
def addGroups (layout : Layout) (d : Detection) :
    List Group → Plan → NameSupply → Plan
  | [], p, _ => p
  | group :: rest, p, names =>
    match d.declarations[group.canonical]? with
    | none => addGroups layout d rest p names
    | some canonical =>
      let (p, names) := p.addGroup layout d canonical group names
      addGroups layout d rest p names

/-- The number of helpers. -/
def helpers (p : Plan) : Nat := p.shared.countP fun g => g.helper.isSome

/-- What there is to tell about the members that keep their bodies. -/
def log (d : Detection) (p : Plan) : List LogRecord :=
  p.kept.filterMap fun k =>
    d.declarations[k.index]?.map fun f =>
      .warn s!"{String.ofList f.name} (line {f.line}) kept: {k.reason.message}"

end Plan

/-- The plan for a source text in which similar functions were detected. -/
def plan (source : Text) (d : Detection) (layout : Layout) : Except ParseError Plan :=
  (tokenize source).map fun ts =>
    Plan.addGroups layout d d.duplicates {} (.avoiding (takenNames ts))

/-! ### Carrying out a plan -/

/-- Why a source text cannot be coalesced. -/
inductive CoalesceError
  /-- The source or the new text cannot be read. -/
  | parse (error : ParseError)
  /-- The new text declares another number of functions than intended. -/
  | count (expected found : Nat)
deriving DecidableEq, Repr

/-- The wording of the error. -/
def CoalesceError.message : CoalesceError → String
  | .parse error => "parse error: " ++ error.message
  | .count expected found =>
    s!"rewritten source declares {found} functions, expected {expected}"

/-- A source text with shared bodies. -/
structure Coalesced where
  text : Text
  shared : List SharedBody
  kept : List Kept
deriving DecidableEq, Repr

namespace Coalesced

/-- The number of adapters. -/
def countAdapters (c : Coalesced) : Nat :=
  c.shared.foldr (fun g count => g.adapters.length + count) 0

/-- The number of helpers. -/
def countHelpers (c : Coalesced) : Nat := c.shared.countP fun g => g.helper.isSome

/-- The result in one sentence. -/
def summary (c : Coalesced) : String :=
  s!"coalesced {c.shared.length} groups: {c.countAdapters} adapters, {c.countHelpers} helpers, " ++
    s!"{c.kept.length} members kept"

/-- What there is to tell about the result. -/
def log (c : Coalesced) : List LogRecord :=
  [.debug (s!"coalesced {c.shared.length} groups into {c.countAdapters} adapters, " ++
    s!"{c.kept.length} members kept")]

end Coalesced

/-- How many functions a text declares. -/
def countDeclarations (source : Text) : Except CoalesceError Nat :=
  match declarations source {} with
  | .error e => .error (.parse e)
  | .ok ds => .ok ds.length

/-- The text after the edits of a plan. -/
def Plan.apply (p : Plan) (source : Text) : Text :=
  Text.splice 0 (sortList (fun e f => e.start < f.start) p.edits) source

/-- Carries out a plan. -/
def Plan.carryOut (p : Plan) (source : Text) : Except CoalesceError Coalesced := do
  let text := p.apply source
  let declared ← countDeclarations source
  let expected := declared + p.helpers
  let found ← countDeclarations text
  if found = expected then .ok ⟨text, p.shared, p.kept⟩ else .error (.count expected found)

/-- Lets similar functions share their bodies. -/
def coalesce (source : Text) (d : Detection) (layout : Layout) : Except CoalesceError Coalesced :=
  match plan source d layout with
  | .error e => .error (.parse e)
  | .ok p => p.carryOut source

end Twinfold
