import Quell.Region.Classify
import Quell.Line

/-!
# Region/Forest — all regions of a file

Regions are numbered by their opening braces, so a region comes before everything inside it.  The
forest stores the link to the parent only; children, ancestors and the innermost region at a token
are read off it.
-/

namespace Quell

/-- The regions of a file, in the order of their opening braces. -/
structure Forest where
  regions : Array Region
  deriving DecidableEq

namespace Forest

/-! ## Growing a forest -/

/-- A forest under construction: the regions so far, and the ids of the open ones, innermost
first. -/
structure Growth where
  regions : Array Region := #[]
  pending : List Nat := []
  deriving DecidableEq

/-- Takes the token at index `i` in: a brace opens or closes a region. -/
def Growth.step (code : Code) (pairing : Pairing) (g : Growth) (i : Nat) (t : Token) : Growth :=
  if t.opening? == some .curly then
    let parent := g.pending.head?
    let closing := (pairing.partner i).getD i
    let region : Region := {
      id := g.regions.size
      kind := Region.classify code pairing g.regions
        (parent.bind fun p => g.regions[p]?.map (·.kind)) i
      opening := i
      closing
      start := t.start
      stop := (code[closing]?.getD t).stop
      parent }
    ⟨g.regions.push region, g.regions.size :: g.pending⟩
  else if t.closing? == some .curly then { g with pending := g.pending.tail }
  else g

/-- Takes in the tokens from index `i` on. -/
def growFrom (code : Code) (pairing : Pairing) : (i : Nat) → Growth → List Token → Growth
  | _, g, [] => g
  | i, g, t :: rest => growFrom code pairing (i + 1) (g.step code pairing i t) rest

/-- **The forest of a file** whose brackets are paired. -/
def ofCode (code : Code) (pairing : Pairing) : Forest :=
  ⟨(growFrom code pairing 0 {} code.toList).regions⟩

/-! ## Looking around -/

/-- The region with an id. -/
def get? (f : Forest) (id : Nat) : Option Region := f.regions[id]?

/-- Number of regions. -/
def size (f : Forest) : Nat := f.regions.size

/-- All regions, in order. -/
def toList (f : Forest) : List Region := f.regions.toList

/-- The regions directly inside a region, or at file scope, in order. -/
def childrenOf (f : Forest) (parent : Option Nat) : List Region :=
  f.toList.filter (·.parent == parent)

/-- The region whose opening brace is the code token at an index. -/
def atOpening? (f : Forest) (i : Nat) : Option Region := f.regions.find? (·.opening == i)

/-- Climbs from a region through its parents. -/
def climb (f : Forest) : (fuel : Nat) → Option Nat → List Region
  | 0, _ => []
  | _, none => []
  | fuel + 1, some id =>
    match f.get? id with
    | none => []
    | some r => r :: climb f fuel r.parent

/-- The region itself and all around it, innermost first.  A parent has a smaller id, so the id
bounds the climb. -/
def ancestors (f : Forest) (id : Nat) : List Region := f.climb (id + 1) (some id)

/-- Descends to the innermost region at a token, level by level: on each level only the last region
that opens before the token can hold it. -/
def descend (f : Forest) (i : Nat) : (fuel : Nat) → (level : Option Nat) → Option Region
  | 0, _ => none
  | fuel + 1, level =>
    match ((f.childrenOf level).takeWhile (·.opening < i)).getLast? with
    | none => none
    | some r => if r.contains i then some ((descend f i fuel (some r.id)).getD r) else none

/-- **The innermost region around a code token.** -/
def innermost? (f : Forest) (i : Nat) : Option Region := f.descend i (f.size + 1) none

/-- The names of the enclosing namespaces and classes, the region itself included, outermost
first. -/
def scopePath (f : Forest) : Option Nat → List String
  | none => []
  | some id => ((f.ancestors id).filterMap (·.kind.scopeName?)).reverse

/-! ## Listing -/

/-- One line of the listing: two spaces per level. -/
def describeRegion (f : Forest) (source : Bytes) (r : Region) : String :=
  String.ofList (List.replicate (2 * ((f.ancestors r.id).length - 1)) ' ')
    ++ s!"#{r.id} {r.kind.tag}{r.kind.detail} [{r.start}..{r.stop}) "
    ++ s!"line {Line.number source r.start}\n"

/-- One line per region.  The order of ids is the order of a listing: parents before children. -/
def describe (f : Forest) (source : Bytes) : String :=
  String.join (f.toList.map (f.describeRegion source))

end Forest

end Quell
