import Quell.Parameter
import Quell.Declaration.Local

/-!
# Parameter/Usage — which parameters a function never mentions

A parameter is used where its name stands as an identifier that is no member: between parameter list
and body, in the body, or in a `catch` block of the function — unless a local declaration of the
same name is in scope there.  Function, enum and class bodies inside are passed over.

`collect` goes through the tokens of a body once.  A `Scope` holds what is declared so far;
declarations in the parentheses of a statement scope over the block or the statement that follows.
-/

namespace Quell.Usage

/-- One open parenthesis group. -/
structure Paren where
  closing : Nat
  opening : Nat
  /-- What may be declared inside, if anything. -/
  site : Option Site
  /-- The names declared inside so far. -/
  declared : List String
  deriving DecidableEq

/-- What is declared at one place of a walk. -/
structure Scope where
  /-- Code token that closes the region. -/
  stop : Nat
  /-- First code token of the region. -/
  floor : Nat
  /-- The names that declarations in this region or around it hide. -/
  shadowed : List String
  /-- The open parentheses of this region, innermost first. -/
  parens : List Paren
  /-- The names declared in the last closed parentheses that declare: they scope over the block
  that follows, or over a statement up to its `;`. -/
  pending : List String
  deriving DecidableEq

namespace Scope

/-- The scope at the start of a region. -/
def ofRegion (r : Region) (shadowed : List String) : Scope :=
  ⟨r.closing, r.opening + 1, shadowed, [], []⟩

/-- The names declared in open parentheses. -/
def inParens (s : Scope) : List String := s.parens.flatMap (·.declared)

/-- The scope at the start of a region inside. -/
def enter (s : Scope) (r : Region) : Scope :=
  ofRegion r (s.shadowed ++ s.pending ++ s.inParens)

/-- Opens the parentheses at token `i`. -/
def openParen (o : Outline) (s : Scope) (i : Nat) : Scope :=
  { s with parens :=
      ⟨(o.pairing.partner i).getD s.stop, i, Declaration.siteAt? o.code i, []⟩ :: s.parens }

/-- Closes parentheses.  What a handler or lambda declares there belongs to the body that follows;
what a control statement declares too, unless it stands in parentheses itself. -/
def closeParen (s : Scope) (i : Nat) : Scope :=
  match s.parens with
  | [] => s
  | paren :: outer =>
    if paren.closing ≠ i then s
    else match paren.site, outer with
      | some .parameter, _ | some _, [] => { s with parens := outer, pending := paren.declared }
      | _, next :: outer =>
        { s with parens := { next with declared := next.declared ++ paren.declared } :: outer }
      | none, [] => { s with parens := [] }

/-- Adds a declared name: to the open parentheses, or to the region. -/
def declare (s : Scope) (name : String) : Scope :=
  match s.parens with
  | [] => { s with shadowed := name :: s.shadowed }
  | paren :: outer =>
    { s with parens := { paren with declared := paren.declared ++ [name] } :: outer }

/-- A name is hidden by a local declaration. -/
def hides (s : Scope) (name : String) : Bool :=
  s.shadowed.contains name || s.pending.contains name || s.inParens.contains name

/-- Where the name at a token would be declared: site and first token of the scope. -/
def place (s : Scope) : Option Site × Nat :=
  match s.parens with
  | [] => (some .statement, s.floor)
  | paren :: _ => (paren.site, paren.opening + 1)

end Scope

/-- The name at token `i` is declared there.  `x * y;` declares nothing when `x` is a visible
parameter. -/
def declares (o : Outline) (names : List String) (s : Scope) (i : Nat) : Bool :=
  let (site, floor) := s.place
  match site.bind (Declaration.declarationAt? o.code o.pairing i floor) with
  | none => false
  | some d =>
    !(Slice.mk d.start i).indices.any fun k =>
      o.code.nameAt k && names.contains (o.code.name k) && !s.shadowed.contains (o.code.name k)

/-- The name at a token is that of a member. -/
def isMember (code : Code) (i : Nat) : Bool := code.hasBefore i (·.isMarkIn [".", "->", "::"])

/-- Takes one token in: the scope after it, and whether the token uses one of the names. -/
def step (o : Outline) (names : List String) (s : Scope) (i : Nat) : Scope × Bool :=
  if o.code.mark i "(" then (s.openParen o i, false)
  else if o.code.mark i ")" then (s.closeParen i, false)
  else if o.code.mark i ";" && s.parens.isEmpty then ({ s with pending := [] }, false)
  else if o.code.nameAt i && names.contains (o.code.name i) then
    if declares o names s i then (s.declare (o.code.name i), false)
    else (s, !s.hides (o.code.name i) && !isMember o.code i)
  else (s, false)

/-- Regions whose tokens say nothing about the parameters of the function around them. -/
def isClosed : RegionKind → Bool
  | .functionBody _ | .enumBody _ | .classBody _ => true
  | _ => false

/-! ## The names that are used -/

/-- Names without repetitions. -/
def distinct (names : List String) : List String := names.foldr List.insert []

/-- All names are used, so there is nothing left to look for. -/
def allUsed (names used : List String) : Bool := used.length == (distinct names).length

/-- **The names used in a region from token `i` on**, together with those used so far, each once.
No region is entered once all names are used.  Every step moves on by a token, so the number of
tokens bounds the walk. -/
def collect (o : Outline) (names : List String) :
    (fuel : Nat) → Scope → (i : Nat) → (used : List String) → List String
  | 0, _, _, used => used
  | fuel + 1, s, i, used =>
    if s.stop ≤ i then used
    else match (if o.code.mark i "\x7b" then o.forest.atOpening? i else none) with
      | some r =>
        let inside :=
          if isClosed r.kind || allUsed names used then used
          else collect o names fuel (s.enter r) (r.opening + 1) used
        collect o names fuel { s with pending := [] } (r.closing + 1) inside
      | none =>
        let (next, uses) := step o names s i
        collect o names fuel next (i + 1)
          (if uses then used.insert (o.code.name i) else used)

/-- The names used in a whole region, together with those used so far. -/
def collectRegion (o : Outline) (names used : List String) (r : Region) : List String :=
  if allUsed names used then used
  else collect o names (o.code.size + 1) (Scope.ofRegion r []) (r.opening + 1) used

/-- The uses of names between parameter list and body. -/
def inTrailer (o : Outline) (names : List String) (head : FunctionHead) (body : Region) :
    List Nat :=
  (Slice.mk (head.params.closing + 1) body.opening).indices.filter fun i =>
    o.code.nameAt i && names.contains (o.code.name i) && !isMember o.code i

/-- **The parameter names that a function uses**, each once: before its body, in it, and in its
handlers. -/
def usedNames (o : Outline) (body : Region) (head : FunctionHead) (params : List Parameter) :
    List String :=
  let names := params.filterMap (·.name)
  let before := (inTrailer o names head body).foldl
    (fun used i => used.insert (o.code.name i)) []
  (body :: o.handlersOf body.id).foldl (collectRegion o names) before

end Usage

/-- The unused parameters of one function. -/
structure UnusedParams where
  /-- The function's name as written. -/
  function : String
  /-- The region of its body. -/
  region : Nat
  /-- Names and their code tokens, in order of declaration. -/
  params : List (String × Nat)
  deriving DecidableEq

namespace UnusedParams

/-- The names alone. -/
def names (u : UnusedParams) : List String := u.params.map (·.1)

/-- Adds a parameter unless its name is listed already. -/
def add (listed : List (String × Nat)) (p : String × Nat) : List (String × Nat) :=
  if listed.any (·.1 == p.1) then listed else listed ++ [p]

/-- The candidates among parameters, with the tokens of their names. -/
def candidates (params : List Parameter) : List (String × Nat) :=
  params.filterMap fun p =>
    match p.name, p.token with
    | some name, some token => if p.isCandidate then some (name, token) else none
    | _, _ => none

/-- The unused parameters of the function with a body and head, if there are any. -/
def ofFunction? (o : Outline) (body : Region) (head : FunctionHead) : Option UnusedParams :=
  let params := o.parameters head
  let used := Usage.usedNames o body head params
  let unused := (candidates params).filter fun p => !used.contains p.1
  match unused.foldl add [] with
  | [] => none
  | found => some ⟨head.name, body.id, found⟩

end UnusedParams

/-- **The unused parameters of every function** that has any. -/
def Outline.unusedParams (o : Outline) : List UnusedParams :=
  o.functions.filterMap fun (body, head) => UnusedParams.ofFunction? o body head

end Quell
