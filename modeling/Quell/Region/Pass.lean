import Quell.Region.Forest

/-!
# Region/Pass — brackets and regions in one pass

The pass takes the code tokens one after the other.  It pairs brackets as it goes and enters a
region into a tree at every opening brace: with the kind that the tokens, partners and regions so
far decide, among the children of the innermost open region, and without an end yet.  The closing
brace gives the region its end, and a `typedef enum` its name.
-/

namespace Quell

namespace Region

/-- The kind of a region between two braces: an enum without a name is called what
`typedef enum { .. } Name;` says. -/
def calledBehind (code : Code) (opening closing : Nat) : RegionKind → RegionKind
  | .enumBody ⟨none, isScoped⟩ =>
    .enumBody ⟨(enumKeyword? code opening).bind (typedefName? code · closing), isScoped⟩
  | kind => kind

/-- Ends a region at the closing brace at index `i`. -/
def close (code : Code) (i : Nat) (t : Token) (r : Region) : Region :=
  { r with
    kind := calledBehind code r.opening i r.kind
    closing := i
    stop := t.stop }

end Region

/-- A region in a tree, with the ids of the regions directly inside, in order. -/
structure Branch where
  region : Region
  children : List Nat
  deriving DecidableEq

/-- Takes a region in as the last child. -/
def Branch.adopt (id : Nat) (b : Branch) : Branch := { b with children := b.children ++ [id] }

/-- Ends the region of a branch. -/
def Branch.close (code : Code) (i : Nat) (t : Token) (b : Branch) : Branch :=
  { b with region := b.region.close code i t }

/-- **The brackets and regions of a file**: partners, regions with their children, and the regions
at file scope. -/
@[ext] structure Indexed where
  pairing : Pairing
  branches : Array Branch
  roots : List Nat
  deriving DecidableEq

/-- What the pass holds between two tokens. -/
structure Pass extends Indexed where
  /-- The open brackets, innermost first. -/
  brackets : List (Nat × Token)
  /-- The ids of the open regions, innermost first. -/
  pending : List Nat
  deriving DecidableEq

namespace Pass

/-- Before the first of so many tokens. -/
def start (size : Nat) : Pass := ⟨⟨Pairing.unpaired size, #[], []⟩, [], []⟩

/-- The region that opens at the brace at index `i`, as far as it is known there. -/
def opened (code : Code) (p : Pass) (i : Nat) (t : Token) : Region where
  id := p.branches.size
  kind := Region.classify code p.pairing (p.branches.map (·.region))
    (p.pending.head?.bind fun q => p.branches[q]?.map (·.region.kind)) i
  opening := i
  closing := i
  start := t.start
  stop := t.stop
  parent := p.pending.head?

/-- Opens a region inside the innermost open one, or at file scope. -/
def enter (code : Code) (p : Pass) (i : Nat) (t : Token) : Pass :=
  let id := p.branches.size
  let p' := { p with
    branches := p.branches.push ⟨p.opened code i t, []⟩
    pending := id :: p.pending }
  match p.pending with
  | [] => { p' with roots := p.roots ++ [id] }
  | parent :: _ => { p' with branches := p'.branches.modify parent (·.adopt id) }

/-- Closes the innermost open region. -/
def leave (code : Code) (p : Pass) (i : Nat) (t : Token) : Pass :=
  match p.pending with
  | [] => p
  | id :: outer =>
    { p with branches := p.branches.modify id (·.close code i t), pending := outer }

/-- Takes the token at index `i` in. -/
def step (code : Code) (p : Pass) (i : Nat) (t : Token) : Except PairingFault Pass :=
  match t.opening?, t.closing? with
  | some shape, _ =>
    let p := { p with brackets := (i, t) :: p.brackets }
    .ok (if shape = .curly then p.enter code i t else p)
  | none, none => .ok p
  | none, some shape =>
    match p.brackets with
    | [] => .error (.unmatched t)
    | (j, opener) :: brackets =>
      if opener.opening? == some shape then
        let p := { p with pairing := p.pairing.pair j i, brackets }
        .ok (if shape = .curly then p.leave code i t else p)
      else .error (.mismatched t opener)

/-- Takes in the tokens from index `i` on; at the end no bracket may be open. -/
def run (code : Code) : (i : Nat) → Pass → List Token → Except PairingFault Pass
  | _, p, [] =>
    match p.brackets with
    | [] => .ok p
    | (_, opener) :: _ => .error (.unclosed opener)
  | i, p, t :: rest => (p.step code i t).bind fun p => run code (i + 1) p rest

end Pass

/-- **The brackets and regions of a file**, or the first bracket that has no partner. -/
def Indexed.ofCode (code : Code) : Except PairingFault Indexed :=
  (Pass.run code 0 (.start code.size) code.toList).map (·.toIndexed)

end Quell
