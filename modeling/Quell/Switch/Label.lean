import Quell.Outline

/-!
# Switch/Label — the labels of a switch

Labels directly in the body of a switch, and in the plain blocks inside it, belong to the switch;
those of the switches inside are their own.
-/

namespace Quell

/-- One label of a switch. -/
inductive Label where
  /-- `case`: the enumerator it names, if it names one, and the tokens of keyword and colon. -/
  | case (name : Option String) (keyword colon : Nat)
  /-- `default`, with its token. -/
  | default (keyword : Nat)
  deriving DecidableEq

/-- The token of a label's keyword. -/
def Label.keyword : Label → Nat
  | case _ keyword _ => keyword
  | default keyword => keyword

namespace Label

/-- Index of the `:` that ends a label, from token `i` on: bracketed groups are passed over, and the
colons of conditional expressions are theirs. -/
def colonFrom? (code : Code) (pairing : Pairing) (limit : Nat) :
    (fuel i ternary : Nat) → Option Nat
  | 0, _, _ => none
  | fuel + 1, i, ternary =>
    if limit ≤ i then none
    else if code.has i (·.opening?.isSome) then
      (pairing.partner i).bind fun closing =>
        colonFrom? code pairing limit fuel (closing + 1) ternary
    else if code.mark i "?" then colonFrom? code pairing limit fuel (i + 1) (ternary + 1)
    else if code.mark i ":" then
      if ternary = 0 then some i else colonFrom? code pairing limit fuel (i + 1) (ternary - 1)
    else if code.mark i ";" then none
    else colonFrom? code pairing limit fuel (i + 1) ternary

/-- The `:` of the label whose `case` stands at `keyword`, before `limit`. -/
def colon? (code : Code) (pairing : Pairing) (keyword limit : Nat) : Option Nat :=
  colonFrom? code pairing limit (limit - keyword) (keyword + 1) 0

/-- Takes away the parentheses around a whole run. -/
def stripParens (code : Code) (pairing : Pairing) : (fuel : Nat) → Slice → Slice
  | 0, s => s
  | fuel + 1, s =>
    if 2 ≤ s.size && code.mark s.start "(" && pairing.partner s.start == some (s.stop - 1) then
      stripParens code pairing fuel ⟨s.start + 1, s.stop - 1⟩
    else s

/-- Names separated by `::`, read from the last one back; a leading `::` is allowed. -/
def readsBack : List Token → Bool
  | [] => true
  | [t] => t.isName
  | t :: sep :: rest => t.isName && sep.isMark "::" && readsBack rest

/-- **The enumerator that a label's expression names**: the last name of `Red`, `Color::Red` or
`::Red`, parentheses aside. -/
def name? (code : Code) (pairing : Pairing) (s : Slice) : Option String :=
  let tokens := (code.slice (stripParens code pairing s.size s)).reverse
  match tokens with
  | [] => none
  | last :: _ => if readsBack tokens then some last.name else none

/-- The labels in a region from token `i` up to `stop`, given the regions inside that are still
ahead.  Plain blocks are entered; other regions are passed over. -/
def collect (o : Outline) : (fuel : Nat) → (ahead : List Region) → (stop i : Nat) → List Label
  | 0, _, _, _ => []
  | fuel + 1, ahead, stop, i =>
    if stop ≤ i then []
    else match ahead.head?.filter (·.opening == i) with
      | some r =>
        (if r.kind == .plain then
            collect o fuel (o.forest.childrenOf (some r.id)) r.closing (r.opening + 1)
          else [])
          ++ collect o fuel ahead.tail stop (r.closing + 1)
      | none =>
        if o.code.has i (·.isKeyword "case") then
          match colon? o.code o.pairing i stop with
          | some colon =>
            .case (name? o.code o.pairing ⟨i + 1, colon⟩) i colon
              :: collect o fuel ahead stop (colon + 1)
          | none => collect o fuel ahead stop (i + 1)
        else if o.code.has i (·.isKeyword "default") && o.code.mark (i + 1) ":" then
          .default i :: collect o fuel ahead stop (i + 1)
        else collect o fuel ahead stop (i + 1)

end Label

/-- A switch with its labels. -/
structure Switch where
  /-- The region of the body. -/
  region : Nat
  /-- The group of the controlling expression. -/
  condition : Group
  /-- All labels, in order. -/
  labels : List Label
  deriving DecidableEq

namespace Switch

/-- The `case` labels: name, keyword, colon. -/
def cases (s : Switch) : List (Option String × Nat × Nat) :=
  s.labels.filterMap fun
    | .case name keyword colon => some (name, keyword, colon)
    | .default _ => none

/-- The enumerators that labels name. -/
def labelNames (s : Switch) : List String := s.cases.filterMap (·.1)

/-- There is a `default` label. -/
def hasDefault (s : Switch) : Bool :=
  s.labels.any fun
    | .default _ => true
    | .case .. => false

/-- The keyword of the last label. -/
def lastLabel (s : Switch) : Option Nat := s.labels.getLast?.map (·.keyword)

/-- There are `case` labels, and none of them names an enumerator. -/
def onlyLiterals (s : Switch) : Bool := !s.cases.isEmpty && s.labelNames.isEmpty

/-- The switch with a body and a condition. -/
def ofRegion (o : Outline) (r : Region) (condition : Group) : Switch :=
  ⟨r.id, condition,
    Label.collect o (o.code.size + 1) (o.forest.childrenOf (some r.id)) r.closing (r.opening + 1)⟩

end Switch

/-- **The switches of a file with their labels**, in order. -/
def Outline.labelledSwitches (o : Outline) : List Switch :=
  o.switches.map fun (r, condition) => Switch.ofRegion o r condition

end Quell
