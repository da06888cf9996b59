import Quell.Settings
import Quell.Toml.Document

/-!
# Settings/Reader — settings from a TOML document

Sections and keys that are not known are ignored; those that are missing keep their defaults.  A
section is a table, or an array that lists the values in order; a choice is named by a string, or by
the only key of a table whose value is empty.
-/

namespace Quell

/-- Why a document gives no settings. -/
inductive ReadFault where
  /-- It is no TOML, or a value has the wrong type. -/
  | malformed
  /-- A value is refused. -/
  | refused (fault : SettingsFault)
  deriving DecidableEq

/-- The wording of each cause. -/
def ReadFault.message : ReadFault → String
  | malformed => "Invalid cppfix.toml"
  | refused fault => "Invalid cppfix.toml: " ++ fault.fault.describe

namespace Settings

/-! ## Values of a type -/

/-- A truth value. -/
def boolean? : Toml → Option Bool
  | .boolean b => some b
  | _ => none

/-- A string. -/
def text? : Toml → Option String
  | .text s => some s
  | _ => none

/-- A number that is not negative. -/
def natural? : Toml → Option Nat
  | .integer n => if 0 ≤ n then some n.toNat else none
  | _ => none

/-- The name of a choice. -/
def choiceName? : Toml → Option String
  | .text s => some s
  | .table _ [(key, .array [])] => some key
  | .table _ [(key, .table _ [])] => some key
  | _ => none

/-- A way to discard. -/
def style? (v : Toml) : Option DiscardStyle :=
  match choiceName? v with
  | some "void-cast" => some .voidCast
  | some "static-cast" => some .staticCast
  | _ => none

/-- A policy for switches. -/
def policy? (v : Toml) : Option SwitchPolicy :=
  match choiceName? v with
  | some "default" => some .byDefault
  | some "missing-cases" => some .missingCases
  | _ => none

/-! ## Sections -/

/-- The values of a section: by key, or by position in an array.  A moment has none. -/
def member? (key : String) (position : Nat) : Toml → Option (Option Toml)
  | .table _ entries => some (Toml.find? entries key)
  | .array items => some items[position]?
  | .tables items => some (items[position]?.map (.table .header))
  | .moment => some none
  | _ => none

/-- A value of a section, or its default; nothing if it has the wrong type. -/
def setting? {α : Type} (read : Toml → Option α) (default : α) (key : String) (position : Nat)
    (values : Option Toml) : Option α :=
  match values with
  | none => some default
  | some v =>
    match member? key position v with
    | none => none
    | some none => some default
    | some (some v) => read v

/-- The settings of a document, not checked. -/
def ofEntries? (entries : Toml.Entries) : Option Settings := do
  let params := Toml.find? entries "params"
  let switches := Toml.find? entries "switches"
  let format := Toml.find? entries "format"
  let defaults : Settings := {}
  return {
    params := {
      enabled := ← setting? boolean? defaults.params.enabled "enabled" 0 params
      style := ← setting? style? defaults.params.style "style" 1 params }
    switches := {
      enabled := ← setting? boolean? defaults.switches.enabled "enabled" 0 switches
      policy := ← setting? policy? defaults.switches.policy "policy" 1 switches
      comment := ← setting? (fun v => (text? v).map some) defaults.switches.comment "comment" 2
        switches }
    format := {
      indentWidth := ← setting? natural? defaults.format.indentWidth "indent_width" 0 format } }

/-- **The settings that a document gives**, checked. -/
def ofToml (text : String) : Except ReadFault Settings :=
  match (Toml.parse? text).bind ofEntries? with
  | none => .error .malformed
  | some settings =>
    match settings.check with
    | .error fault => .error (.refused fault)
    | .ok _ => .ok settings

end Settings

end Quell
