import Quell.Region

/-!
# Region/Classify — the kind of a region, from the tokens before its opening brace

The shapes are tried in a fixed order: switch, enum, function, `catch` block of a function, then the
blocks.  Nothing after the brace is looked at, except the name of `typedef enum { .. } Name;`.
-/

namespace Quell.Region

/-! ## Enums -/

/-- Keywords that may stand between `enum` and the brace. -/
def enumWords : List String := [
  "class", "struct", "unsigned", "signed", "int", "char", "short", "long", "bool", "wchar_t",
  "char8_t", "char16_t", "char32_t"]

/-- A token that may stand between `enum` and the brace. -/
def isEnumWord (t : Token) : Bool :=
  t.isName || t.isMark "::" || t.isMark ":" || t.isKeywordIn enumWords

/-- Looks for the keyword `enum` before `k`, not below `limit`. -/
def enumFrom? (code : Code) (limit : Nat) : (k : Nat) → Option Nat
  | 0 => none
  | k + 1 =>
    if k + 1 ≤ limit then none
    else if code.has k (·.isKeyword "enum") then some k
    else if code.has k isEnumWord then enumFrom? code limit k
    else none

/-- The keyword `enum` that heads a brace: at most sixteen tokens before it. -/
def enumKeyword? (code : Code) (brace : Nat) : Option Nat := enumFrom? code (brace - 16) brace

/-- Names joined by `::`. -/
def isChain : List Token → Bool
  | [] => false
  | [t] => t.isName
  | t :: sep :: rest => t.isName && sep.isMark "::" && isChain rest

/-- The name after the closing brace of `typedef enum { .. } Name;`. -/
def typedefName? (code : Code) (keyword closing : Nat) : Option String :=
  if code.keywordBefore keyword "typedef" && code.nameAt (closing + 1)
      && code.has (closing + 2) fun t => t.isMark ";" || t.isMark "," then
    some (code.name (closing + 1))
  else none

/-- **The enum whose body opens at a brace.**  Between the keyword and the brace or the `:` of the
underlying type stands nothing or a qualified name; anything else is no enum. -/
def enumHead? (code : Code) (pairing : Pairing) (brace : Nat) : Option EnumHead :=
  (enumKeyword? code brace).bind fun keyword =>
    let isScoped := code.has (keyword + 1) fun t => t.isKeyword "class" || t.isKeyword "struct"
    let first := if isScoped then keyword + 2 else keyword + 1
    let words := (code.slice ⟨first, brace⟩).takeWhile (!·.isMark ":")
    if words.isEmpty then
      some ⟨(pairing.partner brace).bind (typedefName? code keyword), isScoped⟩
    else if isChain words then some ⟨some (String.join (words.map (·.name))), isScoped⟩
    else none

/-! ## Blocks -/

/-- Start of the statement that a brace at `s` belongs to, groups passed over. -/
def statementStart (code : Code) (pairing : Pairing) : (fuel s : Nat) → Nat
  | 0, s => s
  | fuel + 1, s =>
    if s = 0 || code.hasBefore s Declaration.endsStatement then s
    else if code.hasBefore s fun t => t.isMark ")" || t.isMark "]" then
      match pairing.partner (s - 1) with
      | some opening => statementStart code pairing fuel opening
      | none => s
    else statementStart code pairing fuel (s - 1)

/-- The words after the first class key of a statement, if the statement can head a class: no `=`
and no `(` outside template brackets. -/
def classTail? : (angle : Int) → (tail : Option (List Token)) → List Token → Option (List Token)
  | _, tail, [] => tail
  | angle, tail, t :: rest =>
    if t.isMark "<" then classTail? (angle + 1) tail rest
    else if t.isMark ">" then classTail? (angle - 1) tail rest
    else if angle = 0 && (t.isMark "=" || t.isMark "(") then none
    else if angle = 0 && tail.isNone && t.isKeywordIn ["class", "struct", "union"] then
      classTail? angle (some rest) rest
    else classTail? angle tail rest

/-- A macro between class key and name, such as `DLL_EXPORT`. -/
def isExportMacro (t : Token) : Bool :=
  1 < t.text.length && !t.text.any Byte.isLower && t.text.contains Byte.underscore

/-- The name of a class: the last one before the base clause. -/
def className? : (angle : Int) → (name : Option String) → List Token → Option String
  | _, name, [] => name
  | angle, name, t :: rest =>
    if t.isMark "<" then className? (angle + 1) name rest
    else if t.isMark ">" then className? (angle - 1) name rest
    else if angle = 0 && t.isMark ":" then name
    else if angle = 0 && t.isName && !t.spells "final" && !isExportMacro t then
      className? angle (some t.name) rest
    else className? angle name rest

/-- The name of a namespace, if it has one. -/
def namespaceName? (words : List Token) : Option String :=
  let name := String.join (words.map (·.name))
  if name.isEmpty then none else some name

/-- The class that a statement heads; a plain block if it heads none. -/
def classOrPlain (statement : List Token) : RegionKind :=
  match classTail? 0 none statement with
  | some tail => .classBody (className? 0 none tail)
  | none => .plain

/-- A namespace, linkage block, class or plain block, from the statement before the brace. -/
def blockKind (statement : List Token) : RegionKind :=
  match statement with
  | first :: second :: rest =>
    if first.isKeyword "inline" && second.isKeyword "namespace" then
      .namespaceBody (namespaceName? rest)
    else if first.isKeyword "namespace" then .namespaceBody (namespaceName? (second :: rest))
    else if first.isKeyword "extern" && second.kind == .literal && rest.isEmpty then .linkage
    else classOrPlain statement
  | [first] => if first.isKeyword "namespace" then .namespaceBody none else classOrPlain statement
  | [] => .plain

/-! ## Functions and their handlers -/

/-- The function that a `catch` after the closing brace at an index belongs to. -/
def tryOwner? (pairing : Pairing) (regions : Array Region) (closing : Nat) : Option Nat :=
  (pairing.partner closing).bind fun opening =>
    (regions.find? (·.opening == opening)).bind fun r =>
      match r.kind with
      | .functionBody head => if head.isTry then some r.id else none
      | .handler function => some function
      | _ => none

/-- The function body that opens at a brace, where its parent admits one. -/
def functionKind? (code : Code) (pairing : Pairing) (parent : Option RegionKind) (brace : Nat) :
    Option RegionKind :=
  let inClass := match parent with
    | some (.classBody _) => true
    | _ => false
  if parent.all (·.admitsDefinitions) then
    (Declaration.functionHead? code pairing brace inClass).map .functionBody
  else none

/-- The `catch` block of a function that opens at a brace after the group opening at `opening`. -/
def handlerKind? (code : Code) (pairing : Pairing) (regions : Array Region) (opening : Nat) :
    Option RegionKind :=
  if code.keywordBefore opening "catch" && code.markBefore (opening - 1) "\x7d" then
    (tryOwner? pairing regions (opening - 2)).map .handler
  else none

/-- **The kind of the region that opens at a brace**, given the regions before it. -/
def classify (code : Code) (pairing : Pairing) (regions : Array Region)
    (parent : Option RegionKind) (brace : Nat) : RegionKind :=
  let group := if code.markBefore brace ")" then pairing.partner (brace - 1) else none
  match group.filter (code.keywordBefore · "switch") with
  | some opening => .switchBody ⟨opening, brace - 1⟩
  | none =>
    match enumHead? code pairing brace with
    | some head => .enumBody head
    | none =>
      match functionKind? code pairing parent brace with
      | some kind => kind
      | none =>
        match group.bind (handlerKind? code pairing regions) with
        | some kind => kind
        | none =>
          blockKind (code.slice ⟨statementStart code pairing brace brace, brace⟩)

end Quell.Region
