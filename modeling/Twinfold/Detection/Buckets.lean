import Twinfold.Digest
import Twinfold.Grouping
import Twinfold.Similarity.Comparison

/-!
# Candidate pairs

Comparing every function with every other is avoided by sorting them into buckets.

1. Functions with one signature and one fingerprint share a **shape bucket**.
   `confirmBucket` compares each member with the distinct bodies found so far; it
   keeps one representative of every body and joins the copies to it.
2. Representatives that have one hash with the same line masked share a **masked
   bucket**.  `linkBucket` compares the first member, the hub, with the others, and
   goes on with those that do not fit it.
3. Two representatives of which one hashes like the other with a line deleted are
   a **deletion pair** and are compared.

Hashes only nominate pairs: every edge stands for a comparison that was made.
-/

namespace Twinfold

/-- A function that takes part in the search, with its digests. -/
structure Candidate where
  /-- The position of the function among all functions. -/
  index : Nat
  form : FunctionForm
  fingerprint : Fingerprint
  hood : Neighbourhood
deriving DecidableEq, Repr

namespace Candidate

/-- The candidate for a function at a position. -/
def of (index : Nat) (form : FunctionForm) : Candidate where
  index
  form
  fingerprint := .ofLines form.keys form.declaration.tokenCount
  hood := neighbourhood (form.keys.map fun key => fnv1a (Text.utf8 key))

/-- The edge between two candidates, if they are similar. -/
def edge? (c d : Candidate) : Option Edge :=
  let verdict := c.form.compare d.form
  if verdict.isSimilar then
    some ⟨min c.index d.index, max c.index d.index, verdict.changedLine⟩
  else none

/-- Whether two candidates belong into one shape bucket. -/
def sameShape (c d : Candidate) : Bool :=
  c.fingerprint = d.fingerprint && c.form.signature = d.form.signature

end Candidate

/-! ### Buckets -/

/-- Puts an element in front of the bucket it belongs to, or into a new bucket. -/
def putInBucket {α : Type} (same : α → α → Bool) (a : α) : List (List α) → List (List α)
  | [] => [[a]]
  | [] :: rest => putInBucket same a rest
  | (b :: bs) :: rest =>
    if same a b then (a :: b :: bs) :: rest else (b :: bs) :: putInBucket same a rest

/-- Sorts elements into buckets; in a bucket they keep their order. -/
def buckets {α : Type} (same : α → α → Bool) (as : List α) : List (List α) :=
  as.foldr (putInBucket same) []

/-- The shape buckets of the candidates. -/
def shapeBuckets (cs : List Candidate) : List (List Candidate) := buckets Candidate.sameShape cs

/-- A candidate with one of its lines masked. -/
structure Masking where
  hash : UInt64
  position : Nat
  candidate : Candidate

/-- Whether two candidates with masked lines belong into one masked bucket. -/
def Masking.same (m n : Masking) : Bool :=
  m.hash = n.hash && m.position = n.position &&
    m.candidate.hood.masked.length = n.candidate.hood.masked.length &&
    m.candidate.form.signature = n.candidate.form.signature

/-- A candidate with each of its lines masked in turn. -/
def Candidate.maskings (c : Candidate) : List Masking :=
  c.hood.masked.zipIdx.map fun (hash, position) => ⟨hash, position, c⟩

/-- The masked buckets with more than one member. -/
def maskedBuckets (cs : List Candidate) : List (List Candidate) :=
  ((buckets Masking.same (cs.flatMap Candidate.maskings)).map
    fun bucket => bucket.map Masking.candidate).filter fun bucket => 1 < bucket.length

/-! ### What a bucket yields -/

/-- The distinct bodies of shape buckets, the edges from them to their copies, and the
number of comparisons it took. -/
structure Confirmed where
  representatives : List Candidate := []
  edges : List Edge := []
  comparisons : Nat := 0
deriving DecidableEq, Repr

namespace Confirmed

/-- Adds a candidate, comparing it with the representatives up to the one it equals. -/
def add (found : Confirmed) (c : Candidate) : Confirmed :=
  let position := found.representatives.findIdx fun r => r.form.compare c.form = .identical
  match found.representatives[position]? with
  | some r =>
    { found with
      edges := found.edges ++ [⟨r.index, c.index, none⟩]
      comparisons := found.comparisons + position + 1 }
  | none =>
    { found with
      representatives := found.representatives ++ [c]
      comparisons := found.comparisons + position }

/-- The findings of two groups of buckets together. -/
def append (x y : Confirmed) : Confirmed :=
  ⟨x.representatives ++ y.representatives, x.edges ++ y.edges, x.comparisons + y.comparisons⟩

end Confirmed

/-- Finds the distinct bodies in a shape bucket. -/
def confirmBucket (bucket : List Candidate) : Confirmed := bucket.foldl Confirmed.add {}

/-- Finds the distinct bodies in all shape buckets. -/
def confirmAll (bs : List (List Candidate)) : Confirmed :=
  bs.foldr (fun bucket found => (confirmBucket bucket).append found) {}

/-- The edges found in masked buckets, and the number of comparisons it took. -/
structure Linked where
  edges : List Edge := []
  comparisons : Nat := 0
deriving DecidableEq, Repr

/-- The candidates that are not similar to a hub. -/
def Candidate.unlike (hub : Candidate) (cs : List Candidate) : List Candidate :=
  cs.filter fun c => (hub.edge? c).isNone

/-- Links the members of a masked bucket to hubs. -/
def linkBucket : List Candidate → Linked
  | [] => {}
  | hub :: rest =>
    let more := linkBucket (hub.unlike rest)
    ⟨rest.filterMap hub.edge? ++ more.edges, rest.length + more.comparisons⟩
termination_by bucket => bucket.length
decreasing_by exact Nat.lt_succ_of_le (List.length_filter_le _ _)

/-- Links the members of all masked buckets. -/
def linkAll (bs : List (List Candidate)) : Linked :=
  bs.foldr (fun bucket more =>
    let here := linkBucket bucket
    ⟨here.edges ++ more.edges, here.comparisons + more.comparisons⟩) {}

/-- Whether `c` hashes like `d` with a line deleted. -/
def Candidate.deletionOf (c d : Candidate) : Bool :=
  c.hood.masked.length + 1 = d.hood.masked.length && d.hood.deleted.contains c.hood.whole &&
    c.form.signature = d.form.signature

/-- The pairs of candidates of which one hashes like the other with a line deleted. -/
def deletionPairs : List Candidate → List (Candidate × Candidate)
  | [] => []
  | c :: cs =>
    (cs.filter fun d => c.deletionOf d || d.deletionOf c).map (fun d => (c, d)) ++
      deletionPairs cs

end Twinfold
