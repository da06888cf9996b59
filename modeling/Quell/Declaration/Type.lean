import Quell.Declaration.Word

/-!
# Declaration/Type — what the words before a declared name say about its type
-/

namespace Quell

/-- What a declaration says about the type of its name. -/
inductive DeclaredType where
  /-- A user type, qualified as written. -/
  | named (name : String)
  /-- An arithmetic type of the language. -/
  | builtin
  /-- A pointer to something. -/
  | pointer
  /-- `auto`. -/
  | auto
  | unknown
  deriving DecidableEq

namespace Declaration

/-- State of the scan for the type: nesting in template arguments, last word that names a type,
and whether a `*` followed it. -/
structure TypeScan where
  angle : Nat := 0
  last : Option Nat := none
  pointer : Bool := false
  deriving DecidableEq

/-- One token of the scan.  Template arguments are passed over. -/
def TypeScan.step (code : Code) (s : TypeScan) (i : Nat) : TypeScan :=
  if 0 < s.angle then
    if code.mark i "<" then { s with angle := s.angle + 1 }
    else if code.mark i ">" then { s with angle := s.angle - 1 }
    else s
  else if code.mark i "<" then { s with angle := 1 }
  else if code.has i fun t => t.isName || isTypeWord t then
    { s with last := some i, pointer := false }
  else if code.mark i "*" && s.last.isSome then { s with pointer := true }
  else s

/-- The words of a chain with its leading `::`, if it has one. -/
def chain (code : Code) (floor last : Nat) : Slice :=
  let start := chainStart code floor last
  ⟨if floor < start && code.markBefore start "::" then start - 1 else start, last + 1⟩

/-- **The type that a run of declaration tokens names**: its last name or type keyword outside
template arguments, a pointer if a `*` follows. -/
def typeOf (code : Code) (s : Slice) : DeclaredType :=
  let scan := s.indices.foldl (TypeScan.step code) {}
  match scan.last with
  | none => .unknown
  | some i =>
    if scan.pointer then .pointer
    else if code.has i (·.kind == .keyword) then
      if code.has i (·.spells "auto") then .auto
      else if code.has i (·.spells "decltype") then .unknown
      else .builtin
    else .named (code.joined (chain code s.start i))

end Declaration

end Quell
