import Quell.Switch.Operand
import Quell.Enumeration.Registry

/-!
# Switch/Coverage — which enumerators a switch leaves out

Each switch gets one `Verdict`.  A switch with a `default`, or over a builtin type, is settled; one
whose enum is known misses the enumerators that no label names; any other is skipped, and that is
reported unless all its labels are literals.
-/

namespace Quell

/-- What is known about one switch. -/
inductive Verdict where
  /-- Nothing to do. -/
  | settled
  /-- Left alone, since its enum is not known. -/
  | skipped (cause : OperandFault)
  /-- A switch over an enum: the type as written, the enum, and what no label names. -/
  | over (written : String) (e : Enumeration) (missing : List String)
  deriving DecidableEq

/-- A switch that misses enumerators and has no `default`. -/
structure Omission where
  /-- The region of the switch's body. -/
  region : Nat
  /-- The qualified name of the enum. -/
  enumName : String
  /-- The operand's type as written. -/
  written : String
  isScoped : Bool
  /-- The enumerators without a label, in order of declaration. -/
  missing : List String
  /-- The keyword of the last label. -/
  lastLabel : Option Nat
  deriving DecidableEq

namespace Omission

/-- The spelling of an enumerator in a label: qualified by the type if the enum is scoped, else as
the type itself is qualified. -/
def spelling (written : String) (isScoped : Bool) (enumerator : String) : String :=
  if isScoped then written ++ "::" ++ enumerator
  else match Text.splitLast written with
    | some (qualifier, _) => qualifier ++ "::" ++ enumerator
    | none => enumerator

/-- The spelling of an enumerator at this switch. -/
def caseLabel (m : Omission) (enumerator : String) : String :=
  spelling m.written m.isScoped enumerator

end Omission

namespace Coverage

/-- The scope path seen from a region.  Inside a method defined out of its class, the qualifiers of
its name stand between the scopes around and inside the function. -/
def useScope (o : Outline) (region : Nat) : List String :=
  let scope := Enumeration.flatten (o.forest.scopePath (some region))
  let function := (o.forest.ancestors region).findSome? fun r =>
    match r.kind with
    | .functionBody head => some (r.parent, head)
    | _ => none
  match function with
  | none => scope
  | some (parent, head) =>
    let outer := (Enumeration.flatten (o.forest.scopePath parent)).length
    scope.take outer ++ head.qualifier ++ scope.drop outer

/-- The verdict on a switch without `default` whose operand has a named type. -/
def overNamed (o : Outline) (enums : List Enumeration) (s : Switch) (written : String) : Verdict :=
  match Registry.resolve enums written (useScope o s.region) with
  | .found e => .over written e (e.enumerators.filter (!s.labelNames.contains ·))
  | .notFound => .skipped (.notEnum written)
  | .ambiguous names => .skipped (.several written names)

/-- **The verdict on a switch.** -/
def judge (o : Outline) (enums : List Enumeration) (s : Switch) : Verdict :=
  if s.hasDefault then .settled
  else match Operand.typeOf o s.condition with
    | .ok (.named written) => overNamed o enums s written
    | .ok .builtin => .settled
    | .ok .auto => .skipped .deduced
    | .ok _ => .skipped .unnamed
    | .error cause => .skipped cause

/-- The omission that a verdict finds. -/
def omission? (s : Switch) : Verdict → Option Omission
  | .over written e missing =>
    if missing.isEmpty then none
    else some ⟨s.region, e.qualifiedName, written, e.isScoped, missing, s.lastLabel⟩
  | _ => none

/-- The warning that a verdict calls for. -/
def warning? (o : Outline) (s : Switch) : Verdict → Option Fault
  | .skipped cause =>
    if s.onlyLiterals then none
    else some (.ambiguousType (o.code.offset (s.condition.opening - 1)) cause.message)
  | _ => none

/-- The enum a verdict settles on, and how many of its enumerators are missing. -/
def resolved? : Verdict → Option (String × Nat)
  | .over _ e missing => some (e.qualifiedName, missing.length)
  | _ => none

end Coverage

/-- The switches of a file, each with its verdict. -/
structure Coverage where
  verdicts : List (Switch × Verdict)
  deriving DecidableEq

/-- **The verdicts on all switches of a file.** -/
def Outline.coverage (o : Outline) (enums : List Enumeration) : Coverage :=
  ⟨o.labelledSwitches.map fun s => (s, Coverage.judge o enums s)⟩

namespace Coverage

/-- The omissions, in order. -/
def omissions (c : Coverage) : List Omission := c.verdicts.filterMap fun (s, v) => omission? s v

/-- The warnings, in order. -/
def warnings (c : Coverage) (o : Outline) : List Fault :=
  c.verdicts.filterMap fun (s, v) => warning? o s v

/-- The enums that switches were resolved to, with the number of enumerators missing. -/
def resolved (c : Coverage) : List (String × Nat) := c.verdicts.filterMap fun (_, v) => resolved? v

end Coverage

end Quell
