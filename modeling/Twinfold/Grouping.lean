/-!
# Groups of similar functions

An `Edge` joins the positions of two similar functions.  The **groups** are the
connected components of the graph on the positions below `n`; an edge with an end
outside of that range joins nothing.

While edges are added, the components are the trees of a `Forest`: every position has a
parent, and a position that is its own parent is a root.  `find` goes on to parents until
it is at the root, and hangs whatever it came by directly under the root.  Two trees are
united by hanging the root of one under the root of the other; which one is decided by
their ranks, so that trees stay flat.

In the end a `Roll` calls the positions one after another.  Each joins the group of its
root, or begins it.  That leaves members ascending, and groups in the order of their first
members, whatever the roots are.
-/

namespace Twinfold

/-- Two similar functions, with the line in which they differ. -/
structure Edge where
  a : Nat
  b : Nat
  changedLine : Option Nat
deriving DecidableEq, Repr

/-- A component: its smallest member, which is the canonical one, and the others. -/
structure Group where
  canonical : Nat
  others : List Nat
deriving DecidableEq, Repr

namespace Group

/-- The members in ascending order. -/
def members (g : Group) : List Nat := g.canonical :: g.others

/-- Whether the group has a single member. -/
def isSingleton (g : Group) : Bool := g.others.isEmpty

/-- The group with one more member. -/
def add (g : Group) (i : Nat) : Group := { g with others := g.others ++ [i] }

end Group

/-! ### Forests -/

/-- Trees of positions.  Every position has a parent, and a rank that counts for roots. -/
structure Forest where
  parents : Array Nat
  ranks : Array Nat
deriving DecidableEq, Repr

namespace Forest

/-- Every position below `n` is a tree of its own. -/
def singletons (n : Nat) : Forest := ⟨Array.range n, Array.replicate n 0⟩

/-- The number of positions. -/
def size (f : Forest) : Nat := f.parents.size

/-- The parent of a position.  Out of range every position is its own. -/
def parent (f : Forest) (i : Nat) : Nat := f.parents[i]?.getD i

def rank (f : Forest) (i : Nat) : Nat := f.ranks[i]?.getD 0

/-- Makes `p` the parent of `i`. -/
def hang (f : Forest) (i p : Nat) : Forest :=
  { f with parents := f.parents.setIfInBounds i p }

/-- Goes on to parents from `i`, for so many steps at most, until a position is its own parent. -/
def climb (f : Forest) (steps i : Nat) : Nat :=
  match steps with
  | 0 => i
  | steps + 1 => if f.parent i = i then i else f.climb steps (f.parent i)

/-- The root of the tree that `i` is in.  No way to a root is longer than there are positions. -/
def root (f : Forest) (i : Nat) : Nat := f.climb f.size i

/-- Goes on to parents from `i` as long as they are not `r`, for so many steps at most, and hangs
each position on the way under `r`. -/
def compress (f : Forest) (r steps i : Nat) : Forest :=
  match steps with
  | 0 => f
  | steps + 1 => if f.parent i = r then f else (f.hang i r).compress r steps (f.parent i)

/-- The root of a position, and the forest with a shorter way to it. -/
def find (f : Forest) (i : Nat) : Nat × Forest :=
  (f.root i, f.compress (f.root i) f.size i)

/-- Adds one to the rank of a position.  Ranks stay below 256. -/
def raise (f : Forest) (i : Nat) : Forest :=
  { f with ranks := f.ranks.modify i fun rank => min (rank + 1) 255 }

/-- Makes one tree of the trees with roots `p` and `q`.  The root of smaller rank goes under the
other one; of two equal ranks the second root goes under the first, whose rank is raised. -/
def link (f : Forest) (p q : Nat) : Forest :=
  if p = q then f
  else
    match compare (f.rank p) (f.rank q) with
    | .lt => f.hang p q
    | .gt => f.hang q p
    | .eq => (f.hang q p).raise p

/-- Unites the trees of two positions. -/
def unite (f : Forest) (a b : Nat) : Forest :=
  let (p, f) := f.find a
  let (q, f) := f.find b
  f.link p q

/-- Unites the trees of the ends of an edge, unless one of them is out of range. -/
def join (f : Forest) (e : Edge) : Forest :=
  if e.a < f.size && e.b < f.size then f.unite e.a e.b else f

/-- The forest of the positions below `n` under a list of edges. -/
def ofEdges (n : Nat) (edges : List Edge) : Forest := edges.foldl join (singletons n)

end Forest

/-! ### Groups -/

/-- Positions are called in ascending order and put into groups. -/
structure Roll where
  forest : Forest
  /-- For the roots of trees with a group, its number. -/
  numbers : Array (Option Nat)
  groups : Array Group

namespace Roll

/-- Nobody has been called. -/
def start (f : Forest) : Roll := ⟨f, Array.replicate f.size none, #[]⟩

/-- The number of the group of the tree with root `r`. -/
def number? (roll : Roll) (r : Nat) : Option Nat := roll.numbers[r]?.join

/-- Puts a position into the group of its tree.  The first one of a tree begins its group. -/
def call (roll : Roll) (i : Nat) : Roll :=
  let (r, forest) := roll.forest.find i
  match roll.number? r with
  | some k => { roll with forest, groups := roll.groups.modify k (·.add i) }
  | none =>
    { forest
      numbers := roll.numbers.setIfInBounds r (some roll.groups.size)
      groups := roll.groups.push ⟨i, []⟩ }

end Roll

/-- The connected components of the positions below `n`. -/
def Group.ofEdges (n : Nat) (edges : List Edge) : List Group :=
  ((List.range n).foldl Roll.call (.start (.ofEdges n edges))).groups.toList

end Twinfold
