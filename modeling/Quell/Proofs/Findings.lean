import Mathlib.Tactic.Common
import Quell.Proofs.Bare
import Quell.Proofs.Chunk
import Quell.Proofs.Layout
import Quell.Proofs.Usage
import Quell.Switch.Coverage

/-!
# Proofs/Findings — findings depend on the code tokens alone

The `bare` form of an outline keeps the classes and bytes of its code tokens, its bracket pairs and
its regions, and forgets every byte offset, all blanks and all trivia.  Each analysis gives the same
answer on it (`enumerations_bare`, `unusedParams_bare`, `coverage_bare`), and two buffers that read
the same have the same bare outline (`Outline.bare_eq`).  So nothing between the code tokens of a
buffer can change what is found in it.
-/

namespace Quell

namespace Forest

variable (f : Forest)

/-! ## Looking around -/

@[simp] theorem get?_bare (id : Nat) : f.bare.get? id = (f.get? id).map Region.bare :=
  Array.getElem?_map

@[simp] theorem size_bare : f.bare.size = f.size := Array.size_map

@[simp] theorem toList_bare : f.bare.toList = f.toList.map Region.bare := Array.toList_map

@[simp] theorem childrenOf_bare (parent : Option Nat) :
    f.bare.childrenOf parent = (f.childrenOf parent).map Region.bare := by
  rw [childrenOf, childrenOf, toList_bare, List.filter_map]
  rfl

@[simp] theorem atOpening?_bare (i : Nat) :
    f.bare.atOpening? i = (f.atOpening? i).map Region.bare := by
  rw [atOpening?, atOpening?, bare, Array.find?_map]
  rfl

/-- The climb to the outermost region is the climb in the bare forest. -/
theorem climb_bare (fuel : Nat) (id : Option Nat) :
    f.bare.climb fuel id = (f.climb fuel id).map Region.bare := by
  induction fuel generalizing id with
  | zero => rfl
  | succ fuel ih =>
    cases id with
    | none => rfl
    | some id =>
      rw [climb, climb, get?_bare]
      cases f.get? id with
      | none => rfl
      | some r => exact congrArg (r.bare :: ·) (ih r.parent)

@[simp] theorem ancestors_bare (id : Nat) :
    f.bare.ancestors id = (f.ancestors id).map Region.bare := climb_bare ..

theorem descend_bare (i fuel : Nat) (level : Option Nat) :
    f.bare.descend i fuel level = (f.descend i fuel level).map Region.bare := by
  induction fuel generalizing level with
  | zero => rfl
  | succ fuel ih =>
    rw [descend, descend, childrenOf_bare, List.takeWhile_map, List.getLast?_map]
    have htest : ((fun r : Region => decide (r.opening < i)) ∘ Region.bare)
        = fun r => decide (r.opening < i) := rfl
    rw [htest]
    cases ((f.childrenOf level).takeWhile (·.opening < i)).getLast? with
    | none => rfl
    | some r =>
      have hcontains : r.bare.contains i = r.contains i := rfl
      have hid : r.bare.id = r.id := rfl
      simp only [Option.map_some, hcontains, hid, ih]
      split
      · cases f.descend i fuel (some r.id) <;> rfl
      · rfl

@[simp] theorem innermost?_bare (i : Nat) :
    f.bare.innermost? i = (f.innermost? i).map Region.bare := by
  rw [innermost?, innermost?, size_bare, descend_bare]

@[simp] theorem scopePath_bare (scope : Option Nat) :
    f.bare.scopePath scope = f.scopePath scope := by
  cases scope with
  | none => rfl
  | some id =>
    rw [scopePath, scopePath, ancestors_bare, List.filterMap_map]
    rfl

end Forest

namespace Outline

/-- **The outline without places**: what is left of the buffer are its code tokens. -/
def bare (o : Outline) : Outline where
  source := []
  tokens := []
  code := o.code.bare
  pairing := o.pairing
  forest := o.forest.bare

variable (o : Outline)

@[simp] theorem code_bare : o.bare.code = o.code.bare := rfl

@[simp] theorem pairing_bare : o.bare.pairing = o.pairing := rfl

@[simp] theorem forest_bare : o.bare.forest = o.forest.bare := rfl

@[simp] theorem floor_bare (scope : Option Nat) : o.bare.floor scope = o.floor scope := by
  cases scope with
  | none => rfl
  | some id =>
    rw [floor, floor, forest_bare, Forest.get?_bare, Option.map_map]
    rfl

theorem gapsFrom_bare (stop start : Nat) (regions : List Region) :
    gapsFrom stop start (regions.map Region.bare) = gapsFrom stop start regions := by
  induction regions generalizing start with
  | nil => rfl
  | cons r regions ih =>
    simp only [List.map_cons, gapsFrom, ih]
    rfl

/-- A scope has the same direct tokens. -/
@[simp] theorem directTokens_bare (scope : Option Nat) :
    o.bare.directTokens scope = o.directTokens scope := by
  have hdirect : o.bare.direct scope = o.direct scope := by
    cases scope with
    | none =>
      simp only [direct, forest_bare, Forest.childrenOf_bare, gapsFrom_bare, code_bare,
        Code.size_bare]
    | some id =>
      simp only [direct, forest_bare, Forest.childrenOf_bare, gapsFrom_bare, Forest.get?_bare,
        Option.map_map]
      rfl
  rw [directTokens, directTokens, hdirect]

end Outline

/-! ## Enums -/

/-- **The enumerations are read from the tokens alone.** -/
@[simp] theorem Outline.enumerations_bare (o : Outline) : o.bare.enumerations = o.enumerations := by
  have hname : Enumeration.enumerator? o.bare = Enumeration.enumerator? o := by
    funext s
    simp only [Enumeration.enumerator?, code_bare, pairing_bare, Code.size_bare,
      Declaration.skipAttributes_bare, Code.nameAt_bare, Code.name_bare]
  have hregion : ∀ r, Enumeration.ofRegion? o.bare r.bare = Enumeration.ofRegion? o r := by
    intro r
    simp only [Enumeration.ofRegion?, Enumeration.enumeratorsIn, hname, code_bare, forest_bare,
      Declaration.pieces_bare, Forest.scopePath_bare]
    rfl
  rw [enumerations, enumerations, forest_bare, Forest.toList_bare, List.filterMap_map]
  exact congrArg (o.forest.toList.filterMap ·) (funext hregion)

/-! ## Parameters -/

/-- The parameter without its byte offset. -/
def Parameter.bare (p : Parameter) : Parameter := { p with offset := 0 }

@[simp] theorem Outline.map_bare_parameters (o : Outline) (head : FunctionHead) :
    (o.bare.parameters head).map Parameter.bare = (o.parameters head).map Parameter.bare := by
  have hpiece : ∀ s, (Parameter.ofPiece o.bare s).bare = (Parameter.ofPiece o s).bare := by
    intro s
    simp only [Parameter.ofPiece, Parameter.bare, code_bare, pairing_bare,
      Declaration.parameter_bare, Code.spaced_bare]
    rw [show o.code.bare.name = o.code.name from funext o.code.name_bare]
  rw [parameters, parameters, code_bare, Declaration.pieces_bare, List.map_map, List.map_map]
  exact congrArg (List.map · _) (funext hpiece)

/-! ## Uses of parameters -/

namespace Usage

variable (o : Outline) (names : List String)

/-- A step of the search for uses asks about tokens alone. -/
@[simp] theorem step_bare (s : Scope) (i : Nat) : step o.bare names s i = step o names s i := by
  have hopen : s.openParen o.bare i = s.openParen o i := by
    simp only [Scope.openParen, Outline.pairing_bare, Outline.code_bare, Declaration.siteAt?_bare]
  have hat : Declaration.declarationAt? o.code.bare o.pairing
      = Declaration.declarationAt? o.code o.pairing := by
    funext name floor site
    exact Declaration.declarationAt?_bare ..
  have hdeclares : declares o.bare names s i = declares o names s i := by
    simp only [declares, Outline.code_bare, Outline.pairing_bare, hat, Code.nameAt_bare,
      Code.name_bare]
  have hmember : isMember o.code.bare i = isMember o.code i := by
    simp only [isMember, Code.hasBefore_bare]
    rfl
  simp only [step, Outline.code_bare, Code.mark_bare, Code.nameAt_bare, Code.name_bare, hopen,
    hdeclares, hmember]

theorem walk_bare (fuel : Nat) (s : Scope) (i : Nat) :
    walk o.bare names fuel s i = walk o names fuel s i := by
  induction fuel generalizing s i with
  | zero => rfl
  | succ fuel ih =>
    have hopening : (if o.code.mark i "\x7b" then o.bare.forest.atOpening? i else none)
        = (if o.code.mark i "\x7b" then o.forest.atOpening? i else none).map Region.bare := by
      split
      · exact Forest.atOpening?_bare ..
      · rfl
    simp only [walk, Outline.code_bare, Code.mark_bare, hopening, step_bare, ih]
    split
    · rfl
    · cases (if o.code.mark i "\x7b" then o.forest.atOpening? i else none) <;> rfl

theorem inRegion_bare (r : Region) : inRegion o.bare names r.bare = inRegion o names r := by
  rw [inRegion, inRegion, walk_bare, Outline.code_bare, Code.size_bare]
  rfl

theorem uses_bare (body : Region) (head : FunctionHead) {params params' : List Parameter}
    (h : params'.map Parameter.bare = params.map Parameter.bare) :
    uses o.bare body.bare head params' = uses o body head params := by
  have hnames : params'.filterMap (·.name) = params.filterMap (·.name) := by
    have := congrArg (·.filterMap Parameter.name) h
    rwa [List.filterMap_map, List.filterMap_map] at this
  have hhandlers : o.bare.handlersOf body.bare.id = (o.handlersOf body.id).map Region.bare := by
    rw [Outline.handlersOf, Outline.handlersOf, Outline.forest_bare, Forest.toList_bare,
      List.filter_map]
    rfl
  simp only [uses, hnames, inRegion_bare, hhandlers, List.flatMap_map, inTrailer,
    Outline.code_bare, Code.nameAt_bare, Code.name_bare, isMember, Code.hasBefore_bare]
  rfl

end Usage

/-- **The unused parameters are the same without the places of the tokens.** -/
@[simp] theorem Outline.unusedParams_bare (o : Outline) : o.bare.unusedParams = o.unusedParams := by
  have hfunctions : o.bare.functions = o.functions.map (Prod.map Region.bare id) := by
    rw [functions, functions, forest_bare, Forest.toList_bare, List.filterMap_map,
      List.map_filterMap]
    congr 1
    funext r
    obtain ⟨id, kind, opening, closing, start, stop, parent⟩ := r
    cases kind <;> rfl
  have hfunction : ∀ body head, UnusedParams.ofFunction? o.bare body.bare head
      = UnusedParams.ofFunction? o body head := by
    intro body head
    have hparams := o.map_bare_parameters head
    have hcandidates : UnusedParams.candidates (o.bare.parameters head)
        = UnusedParams.candidates (o.parameters head) := by
      have := congrArg UnusedParams.candidates hparams
      rwa [UnusedParams.candidates, UnusedParams.candidates, List.filterMap_map,
        List.filterMap_map] at this
    simp only [UnusedParams.ofFunction?, Usage.contains_usedNames,
      Usage.uses_bare o body head hparams, hcandidates, code_bare]
    rw [show o.code.bare.name = o.code.name from funext o.code.name_bare]
    rfl
  rw [unusedParams, unusedParams, hfunctions, List.filterMap_map]
  exact congrArg (List.filterMap · _) (funext fun f => hfunction f.1 f.2)

/-! ## Labels -/

namespace Label

variable (code : Code) (pairing : Pairing)

@[simp] theorem colon?_bare (keyword limit : Nat) :
    colon? code.bare pairing keyword limit = colon? code pairing keyword limit := by
  have hfrom : ∀ fuel i ternary, colonFrom? code.bare pairing limit fuel i ternary
      = colonFrom? code pairing limit fuel i ternary := by
    intro fuel
    induction fuel with
    | zero => exact fun _ _ => rfl
    | succ fuel ih =>
      intro i ternary
      simp only [colonFrom?, Code.has_bare, Code.mark_bare, ih]
      rfl
  exact hfrom ..

@[simp] theorem stripParens_bare (fuel : Nat) (s : Slice) :
    stripParens code.bare pairing fuel s = stripParens code pairing fuel s := by
  induction fuel generalizing s with
  | zero => rfl
  | succ fuel ih => simp only [stripParens, Code.mark_bare, ih]

theorem readsBack_bare (tokens : List Token) :
    readsBack (tokens.map Token.bare) = readsBack tokens := by
  fun_induction readsBack tokens with
  | case1 => rfl
  | case2 t => rfl
  | case3 t sep rest ih =>
    simp only [List.map_cons, readsBack, ih]
    rfl

@[simp] theorem name?_bare (s : Slice) :
    name? code.bare pairing s = name? code pairing s := by
  simp only [name?, stripParens_bare, Code.slice_bare, ← List.map_reverse]
  cases (code.slice (stripParens code pairing s.size s)).reverse with
  | nil => rfl
  | cons last rest =>
    have := readsBack_bare (last :: rest)
    simp only [List.map_cons] at this ⊢
    rw [this]
    rfl

theorem collect_bare (o : Outline) (fuel : Nat) (ahead : List Region) (stop i : Nat) :
    collect o.bare fuel (ahead.map Region.bare) stop i = collect o fuel ahead stop i := by
  induction fuel generalizing ahead stop i with
  | zero => rfl
  | succ fuel ih =>
    have hhead : (ahead.map Region.bare).head?.filter (·.opening == i)
        = (ahead.head?.filter (·.opening == i)).map Region.bare := by
      rw [List.head?_map, Option.filter_map]
      rfl
    simp only [collect, hhead, ← List.map_tail, Outline.forest_bare, Outline.code_bare,
      Outline.pairing_bare, Forest.childrenOf_bare, Code.has_bare, Code.mark_bare, colon?_bare,
      name?_bare, ih]
    split
    · rfl
    · cases ahead.head?.filter (·.opening == i) <;> rfl

end Label

/-- **The labels are the same without the places of the tokens.** -/
@[simp] theorem Outline.labelledSwitches_bare (o : Outline) :
    o.bare.labelledSwitches = o.labelledSwitches := by
  have hswitches : o.bare.switches = o.switches.map (Prod.map Region.bare id) := by
    rw [switches, switches, forest_bare, Forest.toList_bare, List.filterMap_map,
      List.map_filterMap]
    congr 1
    funext r
    obtain ⟨id, kind, opening, closing, start, stop, parent⟩ := r
    cases kind <;> rfl
  have hregion : ∀ r condition,
      Switch.ofRegion o.bare r.bare condition = Switch.ofRegion o r condition := by
    intro r condition
    simp only [Switch.ofRegion, code_bare, Code.size_bare, forest_bare, Forest.childrenOf_bare,
      Label.collect_bare]
    rfl
  rw [labelledSwitches, labelledSwitches, hswitches, List.map_map]
  exact congrArg (List.map · _) (funext fun s => hregion s.1 s.2)

/-! ## Operands -/

namespace Operand

variable (o : Outline)

/-- A declaration before a token is found from the tokens alone. -/
theorem declaredFrom_bare (floor : Nat) (name : String) (depth : Int) (tokens : List Nat) :
    declaredFrom o.bare floor name depth tokens = declaredFrom o floor name depth tokens := by
  induction tokens generalizing depth with
  | nil => rfl
  | cons i tokens ih =>
    simp only [declaredFrom, Outline.code_bare, Outline.pairing_bare, Code.has_bare,
      Declaration.declarationAt?_bare, ih]
    rfl

@[simp] theorem lastBefore?_bare (scope : Option Nat) (name : String) (limit : Nat) :
    lastBefore? o.bare scope name limit = lastBefore? o scope name limit := by
  rw [lastBefore?, lastBefore?, Outline.floor_bare, Outline.directTokens_bare, declaredFrom_bare]

@[simp] theorem memberOf?_bare (cls : Nat) (name : String) :
    memberOf? o.bare cls name = memberOf? o cls name := by
  rw [memberOf?, memberOf?, Outline.floor_bare, Outline.directTokens_bare, declaredFrom_bare]

@[simp] theorem inParens?_bare (name : String) : inParens? o.bare name = inParens? o name := by
  funext opening
  simp only [inParens?, Outline.code_bare, Outline.pairing_bare, Declaration.siteAt?_bare,
    Code.has_bare, Declaration.declarationAt?_bare]
  rfl

@[simp] theorem inClasses?_bare (cls name : String) :
    inClasses? o.bare cls name = inClasses? o cls name := by
  rw [inClasses?, inClasses?, Outline.forest_bare, Forest.toList_bare, List.filter_map,
    List.findSome?_map]
  simp only [Function.comp_def, memberOf?_bare]
  rfl

/-- The regions around a name are searched from the inside out, with or without byte offsets. -/
theorem lookUp?_bare (name : String) (limit : Nat) (regions : List Region) :
    lookUp? o.bare name limit (regions.map Region.bare) = lookUp? o name limit regions := by
  induction regions generalizing limit with
  | nil => exact lastBefore?_bare ..
  | cons r regions ih =>
    have hregion : inRegion? o.bare name limit r.bare = inRegion? o name limit r := by
      simp only [inRegion?, memberOf?_bare, lastBefore?_bare]
      rfl
    have hhead : inHead? o.bare name r.bare = inHead? o name r := by
      simp only [inHead?, Outline.code_bare, Outline.pairing_bare, Code.markBefore_bare,
        inParens?_bare]
      rfl
    have hparameter : ∀ params : List Parameter,
        ((params.map Parameter.bare).find? (·.name == some name)).map (·.type)
          = (params.find? (·.name == some name)).map (·.type) := by
      intro params
      rw [List.find?_map, Option.map_map]
      rfl
    have hfind : ∀ head, ((o.bare.parameters head).find? (·.name == some name)).map (·.type)
        = ((o.parameters head).find? (·.name == some name)).map (·.type) := by
      intro head
      rw [← hparameter, Outline.map_bare_parameters, hparameter]
    have hfunction : inFunction? o.bare name r.bare = inFunction? o name r := by
      simp only [inFunction?, hfind, inClasses?_bare]
      rfl
    rw [List.map_cons, lookUp?, lookUp?, hregion, hhead, hfunction, ih]
    rfl

theorem around_bare (i : Nat) : around o.bare i = (around o i).map Region.bare := by
  rw [around, around, Outline.forest_bare, Forest.innermost?_bare]
  cases o.forest.innermost? i with
  | none => rfl
  | some r => exact Forest.ancestors_bare ..

@[simp] theorem varType?_bare (i : Nat) : varType? o.bare i = varType? o i := by
  rw [varType?, varType?, around_bare, lookUp?_bare, Outline.code_bare, Code.name_bare]

theorem lookUpMember?_bare (name : String) (regions : List Region) :
    lookUpMember? o.bare name (regions.map Region.bare) = lookUpMember? o name regions := by
  induction regions with
  | nil => rfl
  | cons r regions ih =>
    simp only [List.map_cons, lookUpMember?, memberOf?_bare, inClasses?_bare, ih]
    rfl

@[simp] theorem memberType?_bare (i : Nat) : memberType? o.bare i = memberType? o i := by
  rw [memberType?, memberType?, around_bare, lookUpMember?_bare, Outline.code_bare,
    Code.name_bare]

theorem angleClosing?_bare (code : Code) (pairing : Pairing) (limit fuel i depth : Nat) :
    angleClosing? code.bare pairing limit fuel i depth
      = angleClosing? code pairing limit fuel i depth := by
  induction fuel generalizing i depth with
  | zero => rfl
  | succ fuel ih => simp only [angleClosing?, Code.mark_bare, ih]

@[simp] theorem staticCast?_bare (s : Slice) : staticCast? o.bare s = staticCast? o s := by
  simp only [staticCast?, Outline.code_bare, Outline.pairing_bare, Code.has_bare, Code.mark_bare,
    angleClosing?_bare, Declaration.typeOf_bare]
  rfl

@[simp] theorem plainCast?_bare (s : Slice) : plainCast? o.bare s = plainCast? o s := by
  simp only [plainCast?, Outline.code_bare, Outline.pairing_bare, Code.mark_bare, Code.slice_bare,
    List.all_map, Declaration.typeOf_bare]
  rfl

/-- **The type of a condition is read from the tokens alone.** -/
@[simp] theorem typeOf_bare (condition : Group) : typeOf o.bare condition = typeOf o condition := by
  simp only [typeOf, Outline.code_bare, Outline.pairing_bare, Label.stripParens_bare,
    Code.spaced_bare, Code.nameAt_bare, Code.has_bare, Code.mark_bare, varType?_bare,
    memberType?_bare, staticCast?_bare, plainCast?_bare]
  rfl

end Operand

/-! ## Coverage -/

namespace Coverage

variable (o : Outline)

@[simp] theorem useScope_bare (region : Nat) : useScope o.bare region = useScope o region := by
  simp only [useScope, Outline.forest_bare, Forest.scopePath_bare, Forest.ancestors_bare,
    List.findSome?_map]
  rfl

/-- **The verdict on a switch is the same without the places of the tokens.** -/
@[simp] theorem judge_bare (enums : List Enumeration) (s : Switch) :
    judge o.bare enums s = judge o enums s := by
  simp only [judge, Operand.typeOf_bare, overNamed, useScope_bare]

end Coverage

@[simp] theorem Outline.coverage_bare (o : Outline) (enums : List Enumeration) :
    o.bare.coverage enums = o.coverage enums := by
  simp only [coverage, labelledSwitches_bare, Coverage.judge_bare]

/-- The fault without its place. -/
def Fault.bare : Fault → Fault
  | lexical _ message => lexical 0 message
  | structural _ message => structural 0 message
  | ambiguousType _ message => ambiguousType 0 message
  | overlappingEdit _ message => overlappingEdit 0 message
  | settings message => settings message

/-- Of the outline, warnings take their places alone. -/
theorem Coverage.map_bare_warnings (c : Coverage) (o o' : Outline) :
    (c.warnings o).map Fault.bare = (c.warnings o').map Fault.bare := by
  have hwarning : ∀ s v, (warning? o s v).map Fault.bare = (warning? o' s v).map Fault.bare := by
    intro s v
    rcases v with _ | cause | _
    · rfl
    · simp only [warning?]
      split <;> rfl
    · rfl
  rw [warnings, warnings, List.map_filterMap, List.map_filterMap]
  exact congrArg (List.filterMap · _) (funext fun sv => hwarning sv.1 sv.2)

/-! ## Two buffers with the same code -/

open Lexer

/-- The bare code, from what the tokens read. -/
theorem Code.bare_ofTokens (tokens : List Token) :
    (Code.ofTokens tokens).bare = ((reads tokens).map fun s => ⟨s.1, s.2, 0⟩).toArray := by
  rw [Code.ofTokens, Code.bare, reads, List.map_map, List.map_toArray]
  rfl

/-- **Buffers that read the same have the same bare outline.** -/
theorem Outline.bare_eq {o o' : Outline} (h : o.Valid) (h' : o'.Valid)
    (hreads : reads o.tokens = reads o'.tokens) : o.bare = o'.bare := by
  have hcode : o.code.bare = o'.code.bare := by
    rw [h.code_eq, h'.code_eq, Code.bare_ofTokens, Code.bare_ofTokens, hreads]
  have hpairing : o.pairing = o'.pairing := by
    have hsome := Pairing.ofCode_bare o.code
    rw [hcode, Pairing.ofCode_bare, h.paired, h'.paired] at hsome
    exact (Option.some.inj hsome).symm
  have hforest : o.forest.bare = o'.forest.bare := by
    rw [h.forest_eq, h'.forest_eq, ← Forest.ofCode_bare, hcode, hpairing, Forest.ofCode_bare]
  rw [bare, bare, hcode, hpairing, hforest]

/-- **Findings depend only on the code tokens.**  If two buffers have outlines and the same code
tokens by class and bytes, whatever stands between these, then they have the same bracket pairs, the
same regions up to byte offsets and the same findings, with the same warnings up to byte offsets. -/
theorem findings_eq_of_reads_eq {source source' : Bytes} {o o' : Outline}
    (h : Outline.ofSource source = .ok o) (h' : Outline.ofSource source' = .ok o')
    (hreads : reads o.tokens = reads o'.tokens) :
    o.pairing = o'.pairing ∧ o.forest.bare = o'.forest.bare ∧
      o.enumerations = o'.enumerations ∧ o.unusedParams = o'.unusedParams ∧
      ∀ enums, o.coverage enums = o'.coverage enums ∧
        ((o.coverage enums).warnings o).map Fault.bare
          = ((o'.coverage enums).warnings o').map Fault.bare := by
  obtain ⟨-, hvalid⟩ := Outline.ofSource_eq_ok_iff_valid.mp h
  obtain ⟨-, hvalid'⟩ := Outline.ofSource_eq_ok_iff_valid.mp h'
  have hbare := Outline.bare_eq hvalid hvalid' hreads
  have hcoverage : ∀ enums, o.coverage enums = o'.coverage enums := by
    intro enums
    rw [← o.coverage_bare, hbare, o'.coverage_bare]
  refine ⟨(congrArg Outline.pairing hbare :), (congrArg Outline.forest hbare :), ?_, ?_,
    fun enums => ⟨hcoverage enums, ?_⟩⟩
  · rw [← o.enumerations_bare, hbare, o'.enumerations_bare]
  · rw [← o.unusedParams_bare, hbare, o'.unusedParams_bare]
  · rw [hcoverage enums]
    exact Coverage.map_bare_warnings ..

/-- A directive and a comment with brackets of their own leave the unused parameter to be found. -/
theorem findings_eq_of_layout :
    ∃ o o', Outline.ofSource (utf8 "int f(int q)\x7b\x7d") = .ok o ∧
      Outline.ofSource (utf8 "#a (\nint f(int//\x7b\n q) \x7b\x7d") = .ok o' ∧
      reads o.tokens = reads o'.tokens ∧ o.unusedParams = [⟨"f", 0, [("q", 4)]⟩] ∧
      o.pairing = o'.pairing ∧ o.unusedParams = o'.unusedParams := by
  have hok : ∀ {α : Type} {x : Except Fault Outline} {f : Outline → α} {a : α},
      x.toOption.map f = some a → ∃ o, x = .ok o ∧ f o = a := by
    intro α x f a h
    cases x with
    | error fault => cases h
    | ok o => exact ⟨o, rfl, Option.some.inj h⟩
  obtain ⟨o, h, hfound⟩ := @hok _ (Outline.ofSource (utf8 "int f(int q)\x7b\x7d"))
    (fun o => (reads o.tokens, o.unusedParams))
    ([(.keyword, utf8 "int"), (.identifier, utf8 "f"), (.punctuation, utf8 "("),
      (.keyword, utf8 "int"), (.identifier, utf8 "q"), (.punctuation, utf8 ")"),
      (.punctuation, utf8 "\x7b"), (.punctuation, utf8 "\x7d")], [⟨"f", 0, [("q", 4)]⟩])
    (by decide +kernel)
  obtain ⟨o', h', hreads'⟩ := @hok _
    (Outline.ofSource (utf8 "#a (\nint f(int//\x7b\n q) \x7b\x7d")) (reads ·.tokens)
    [(.keyword, utf8 "int"), (.identifier, utf8 "f"), (.punctuation, utf8 "("),
      (.keyword, utf8 "int"), (.identifier, utf8 "q"), (.punctuation, utf8 ")"),
      (.punctuation, utf8 "\x7b"), (.punctuation, utf8 "\x7d")] (by decide +kernel)
  obtain ⟨hreads, hunused⟩ := Prod.mk.inj hfound
  have hsame := hreads.trans hreads'.symm
  obtain ⟨hpairing, -, -, hparams, -⟩ := findings_eq_of_reads_eq h h' hsame
  exact ⟨o, o', h, h', hsame, hunused, hpairing, hparams⟩

end Quell
