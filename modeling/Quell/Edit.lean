import Quell.Outline

/-!
# Edit — insertions, applied and taken back

Every fix is a pure insertion: `apply` copies the buffer and puts each text before the byte at its
offset, `revert` takes the texts out again.  `check` orders a set of edits and refuses one that
leaves the buffer, splits a token, or inserts twice at one place for one purpose.
-/

namespace Quell

/-- What an edit is for. -/
inductive Category where
  | unusedParamDiscard
  | missingCase
  | missingDefault
  deriving DecidableEq

namespace Category

/-- The order of categories at one offset. -/
def rank : Category → Nat
  | unusedParamDiscard => 0
  | missingCase => 1
  | missingDefault => 2

/-- The word for a category. -/
def word : Category → String
  | unusedParamDiscard => "unused-param-discard"
  | missingCase => "missing-case"
  | missingDefault => "missing-default"

end Category

/-- One insertion. -/
structure Edit where
  /-- The text goes before the byte at this offset. -/
  offset : Nat
  text : Bytes
  category : Category
  /-- The parameters or enumerators that the edit is about. -/
  subjects : List String
  deriving DecidableEq

/-- Why a set of edits is refused. -/
inductive EditCause where
  | pastEnd (category : Category) (size : Nat)
  | splitsToken (category : Category)
  | repeated (category : Category)
  | disordered
  deriving DecidableEq

/-- The wording of each cause. -/
def EditCause.message : EditCause → String
  | pastEnd category size => s!"{category.word} edit past end of input ({size} bytes)"
  | splitsToken category => s!"{category.word} edit would split a token"
  | repeated category => s!"two {category.word} edits at one offset"
  | disordered => "edits out of order"

/-- A refused edit and its offset. -/
structure EditFault where
  offset : Nat
  cause : EditCause
  deriving DecidableEq

/-- The reportable form. -/
def EditFault.fault (f : EditFault) : Fault := .overlappingEdit f.offset f.cause.message

namespace Edit

/-! ## Applying and taking back -/

/-- Copies `rest`, the buffer from byte `cursor` on, with the edits put in. -/
def spliceFrom (cursor : Nat) (rest : Bytes) : List Edit → Except EditFault Bytes
  | [] => .ok rest
  | e :: edits =>
    if e.offset < cursor || cursor + rest.length < e.offset then .error ⟨e.offset, .disordered⟩
    else
      (spliceFrom e.offset (rest.drop (e.offset - cursor)) edits).map fun out =>
        rest.take (e.offset - cursor) ++ e.text ++ out

/-- **Puts edits into a buffer.**  Their offsets must not decrease. -/
def apply (source : Bytes) (edits : List Edit) : Except EditFault Bytes :=
  spliceFrom 0 source edits

/-- The bytes between two offsets, if both lie in the buffer and in this order. -/
def stretch? (bytes : Bytes) (start stop : Nat) : Option Bytes :=
  if start ≤ stop && stop ≤ bytes.length then some (bytes.extract start stop) else none

/-- Copies the output from byte `cursor` on, with the edits taken out.  Each text stands `shift`
bytes behind its offset: so many bytes were put in before it. -/
def revertFrom (output : Bytes) : (cursor shift : Nat) → List Edit → Option Bytes
  | cursor, _, [] => stretch? output cursor output.length
  | cursor, shift, e :: edits =>
    let place := e.offset + shift
    let stop := place + e.text.length
    (stretch? output cursor place).bind fun kept =>
      (stretch? output place stop).bind fun found =>
        if found == e.text then
          (revertFrom output stop (shift + e.text.length) edits).map (kept ++ ·)
        else none

/-- **Takes edits out of a buffer they were put into**; nothing if their texts are not there. -/
def revert (output : Bytes) (edits : List Edit) : Option Bytes := revertFrom output 0 0 edits

/-! ## Checking -/

/-- The order of edits: by offset, then by category. -/
def before (a b : Edit) : Bool :=
  a.offset < b.offset || (a.offset == b.offset && a.category.rank ≤ b.category.rank)

/-- Edits in order; equal ones keep theirs. -/
def sort (edits : List Edit) : List Edit := edits.mergeSort before

/-- What is wrong with the place of an edit. -/
def misplaced? (o : Outline) (e : Edit) : Option EditFault :=
  if o.source.length < e.offset then some ⟨e.offset, .pastEnd e.category o.source.length⟩
  else if o.splitsToken e.offset then some ⟨e.offset, .splitsToken e.category⟩
  else none

/-- The first edit that repeats the one before it. -/
def repeated? : List Edit → Option EditFault
  | a :: b :: rest =>
    if a.offset == b.offset && a.category == b.category then
      some ⟨b.offset, .repeated b.category⟩
    else repeated? (b :: rest)
  | _ => none

/-- **Edits in order, with what is wrong with them**: the first that is misplaced, or if none is,
the first that repeats the one before it. -/
def arrange (o : Outline) (edits : List Edit) : List Edit × Option EditFault :=
  (sort edits, (sort edits).findSome? (misplaced? o) <|> repeated? (sort edits))

/-- **Edits in order, if all of them can be applied.** -/
def check (o : Outline) (edits : List Edit) : Except EditFault (List Edit) :=
  match arrange o edits with
  | (_, some fault) => .error fault
  | (sorted, none) => .ok sorted

end Edit

end Quell
