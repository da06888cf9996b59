import Quell.Bytes
import Quell.Fault

/-!
# Settings — what to fix, and how the inserted text looks

Every setting has a default.  `check` refuses the two values that would produce malformed
insertions: an indentation width out of range, and a comment that could not be closed.
-/

namespace Quell

/-- How an unused parameter is discarded. -/
inductive DiscardStyle where
  /-- `(void) x;` -/
  | voidCast
  /-- `static_cast<void>(x);` -/
  | staticCast
  deriving DecidableEq

/-- The statement that discards a name; the name keeps its bytes. -/
def DiscardStyle.statement : DiscardStyle → Bytes → Bytes
  | .voidCast, name => utf8 "(void) " ++ name ++ utf8 ";"
  | .staticCast, name => utf8 "static_cast<void>(" ++ name ++ utf8 ");"

/-- What an incomplete switch receives. -/
inductive SwitchPolicy where
  /-- One `default` label. -/
  | byDefault
  /-- One `case` label per missing enumerator. -/
  | missingCases
  deriving DecidableEq

/-- Settings for unused parameters. -/
structure ParamSettings where
  enabled : Bool := true
  style : DiscardStyle := .voidCast
  deriving DecidableEq

/-- Settings for incomplete switches. -/
structure SwitchSettings where
  enabled : Bool := true
  policy : SwitchPolicy := .byDefault
  /-- Text of a comment after the inserted `break;`. -/
  comment : Option String := none
  deriving DecidableEq

/-- Settings for inserted text. -/
structure FormatSettings where
  /-- Spaces per level where the file does not show it. -/
  indentWidth : Nat := 4
  deriving DecidableEq

/-- All settings. -/
structure Settings where
  params : ParamSettings := {}
  switches : SwitchSettings := {}
  format : FormatSettings := {}
  deriving DecidableEq

/-- Why settings are refused. -/
inductive SettingsFault where
  | indentWidth (width : Nat)
  | comment
  deriving DecidableEq

/-- The wording of each cause. -/
def SettingsFault.message : SettingsFault → String
  | indentWidth width => s!"format.indent_width must be between 1 and 16, got {width}"
  | comment => "switches.comment must not contain `*/` or a newline"

/-- The reportable form. -/
def SettingsFault.fault (f : SettingsFault) : Fault := .settings f.message

namespace Settings

/-- The text holds `*/`, which would end a comment. -/
def endsComment : List Char → Bool
  | '*' :: '/' :: _ => true
  | _ :: rest => endsComment rest
  | [] => false

/-- **The settings can be used**; the indentation width is looked at first. -/
def check (s : Settings) : Except SettingsFault Unit :=
  if s.format.indentWidth < 1 || 16 < s.format.indentWidth then
    .error (.indentWidth s.format.indentWidth)
  else match s.switches.comment with
    | none => .ok ()
    | some text =>
      if endsComment text.toList || text.toList.contains '\n' then .error .comment else .ok ()

/-- The comment after an inserted `break;`, with the space before it. -/
def commentMarker (s : Settings) : String :=
  match s.switches.comment with
  | none => ""
  | some text => if text.isEmpty then "" else " /* " ++ text ++ " */"

end Settings

end Quell
