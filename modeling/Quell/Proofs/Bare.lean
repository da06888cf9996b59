import Mathlib.Data.Nat.Init
import Mathlib.Tactic.Common
import Quell.Region.Forest
import Quell.Declaration.Local
import Quell.Declaration.Pieces

/-!
# Proofs/Bare — code without places

The `bare` form of a token forgets where it stands.  Every recognizer gives the same answer on bare
code: a test of a token asks for its class and its bytes, and everything else is built from tests.
So each recognizer has one equation, `f code.bare = f code`, from which the forest of bare code is
the bare forest (`Forest.ofCode_bare`).
-/

namespace Quell

/-- The token as if it stood at the start of the buffer. -/
def Token.bare (t : Token) : Token := { t with start := 0 }

namespace Code

/-- The code without places. -/
def bare (code : Code) : Code := code.map Token.bare

variable (code : Code)

/-! ## Tests and runs -/

@[simp] theorem size_bare : code.bare.size = code.size := Array.size_map

@[simp] theorem getElem?_bare (i : Nat) : code.bare[i]? = code[i]?.map Token.bare :=
  Array.getElem?_map

@[simp] theorem toList_bare : code.bare.toList = code.toList.map Token.bare := Array.toList_map

/-- A test of a bare token.  All tests of the recognizers give the same answer with and without
`bare`, by computation. -/
theorem has_bare (i : Nat) (test : Token → Bool) :
    code.bare.has i test = code.has i fun t => test t.bare := by
  rw [has, has, getElem?_bare, Option.any_map]

theorem hasBefore_bare (i : Nat) (test : Token → Bool) :
    code.bare.hasBefore i test = code.hasBefore i fun t => test t.bare := by
  cases i with
  | zero => rfl
  | succ i => exact code.has_bare i test

@[simp] theorem mark_bare (i : Nat) (word : String) : code.bare.mark i word = code.mark i word :=
  code.has_bare i _

@[simp] theorem markBefore_bare (i : Nat) (word : String) :
    code.bare.markBefore i word = code.markBefore i word :=
  code.hasBefore_bare i _

@[simp] theorem keywordBefore_bare (i : Nat) (word : String) :
    code.bare.keywordBefore i word = code.keywordBefore i word :=
  code.hasBefore_bare i _

@[simp] theorem nameAt_bare (i : Nat) : code.bare.nameAt i = code.nameAt i :=
  code.has_bare i _

@[simp] theorem nameBefore_bare (i : Nat) : code.bare.nameBefore i = code.nameBefore i :=
  code.hasBefore_bare i _

@[simp] theorem name_bare (i : Nat) : code.bare.name i = code.name i := by
  rw [name, name, getElem?_bare, Option.map_map]
  rfl

@[simp] theorem slice_bare (s : Slice) : code.bare.slice s = (code.slice s).map Token.bare := by
  simp [slice, bare]

theorem runStart_bare (limit : Nat) (test : Token → Bool) (k : Nat) :
    code.bare.runStart limit test k = code.runStart limit (fun t => test t.bare) k := by
  induction k with
  | zero => rfl
  | succ k ih => simp only [runStart, code.has_bare, ih]

theorem map_name_bare (tokens : List Token) :
    (tokens.map Token.bare).map Token.name = tokens.map Token.name := by
  rw [List.map_map]
  rfl

@[simp] theorem joined_bare (s : Slice) : code.bare.joined s = code.joined s := by
  rw [joined, joined, slice_bare, map_name_bare]

@[simp] theorem spaced_bare (s : Slice) : code.bare.spaced s = code.spaced s := by
  rw [spaced, spaced, slice_bare, map_name_bare]

end Code

namespace Declaration

variable (code : Code) (pairing : Pairing)

/-! ## Words and types -/

@[simp] theorem angleFrom?_bare (floor i : Nat) (depth : Int) :
    angleFrom? code.bare floor i depth = angleFrom? code floor i depth := by
  induction i generalizing depth with
  | zero => rfl
  | succ i ih =>
    simp only [angleFrom?, Code.mark_bare, Code.has_bare, ih]
    rfl

@[simp] theorem angleOpening?_bare (gt : Nat) :
    angleOpening? code.bare gt = angleOpening? code gt := angleFrom?_bare ..

@[simp] theorem chainStart_bare (floor s : Nat) :
    chainStart code.bare floor s = chainStart code floor s := by
  induction s using Nat.twoStepInduction with
  | zero => rfl
  | one => rfl
  | more s ih _ => simp only [chainStart, Code.mark_bare, Code.nameAt_bare, ih]

@[simp] theorem TypeScan.step_bare : TypeScan.step code.bare = TypeScan.step code := by
  funext s i
  simp only [TypeScan.step, Code.mark_bare, Code.has_bare]
  rfl

@[simp] theorem typeOf_bare (s : Slice) : typeOf code.bare s = typeOf code s := by
  simp only [typeOf, TypeScan.step_bare, Code.has_bare,
    Code.joined_bare, chain, chainStart_bare, Code.markBefore_bare]
  rfl

/-! ## Pieces -/

theorem piecesFrom_bare (angles : Bool) (stop : Nat) (c : Cut) (i : Nat) (tokens : List Token) :
    piecesFrom angles stop c i (tokens.map Token.bare) = piecesFrom angles stop c i tokens := by
  induction tokens generalizing c i with
  | nil => rfl
  | cons t tokens ih =>
    simp only [List.map_cons, piecesFrom, ih]
    rfl

@[simp] theorem pieces_bare (angles : Bool) (s : Slice) :
    pieces code.bare angles s = pieces code angles s := by
  rw [pieces, pieces, Code.slice_bare, piecesFrom_bare]

@[simp] theorem skipAttributes_bare (stop fuel a : Nat) :
    skipAttributes code.bare pairing stop fuel a = skipAttributes code pairing stop fuel a := by
  induction fuel generalizing a with
  | zero => rfl
  | succ fuel ih => simp only [skipAttributes, Code.mark_bare, ih]

theorem defaultFrom_bare (stop : Nat) (depth : Int) (i : Nat) (tokens : List Token) :
    defaultFrom stop depth i (tokens.map Token.bare) = defaultFrom stop depth i tokens := by
  induction tokens generalizing depth i with
  | nil => rfl
  | cons t tokens ih =>
    simp only [List.map_cons, defaultFrom, ih]
    rfl

@[simp] theorem dropBounds_bare (a fuel e : Nat) :
    dropBounds code.bare pairing a fuel e = dropBounds code pairing a fuel e := by
  induction fuel generalizing e with
  | zero => rfl
  | succ fuel ih => simp only [dropBounds, Code.markBefore_bare, ih]

theorem marksUnused_bare (tokens : List Token) :
    marksUnused (tokens.map Token.bare) = marksUnused tokens := by
  simp only [marksUnused, List.any_map]
  rfl

@[simp] theorem parameter_bare (s : Slice) :
    parameter code.bare pairing s = parameter code pairing s := by
  simp only [parameter, groupName?, Code.slice_bare,
    marksUnused_bare, Code.size_bare, skipAttributes_bare, defaultFrom_bare, dropBounds_bare,
    Code.mark_bare, Code.has_bare, Code.nameAt_bare, Code.markBefore_bare, List.any_map,
    typeOf_bare]
  rfl

/-! ## Local declarations -/

@[simp] theorem siteAt?_bare (opening : Nat) :
    siteAt? code.bare opening = siteAt? code opening := by
  simp only [siteAt?, Code.hasBefore_bare]
  rfl

@[simp] theorem typeStartFrom?_bare (limit k angle : Nat) :
    typeStartFrom? code.bare limit k angle = typeStartFrom? code limit k angle := by
  induction k generalizing angle with
  | zero => rfl
  | succ k ih =>
    simp only [typeStartFrom?, Code.mark_bare, Code.has_bare, ih]
    rfl

@[simp] theorem typeStart?_bare (floor name : Nat) :
    typeStart? code.bare floor name = typeStart? code floor name := typeStartFrom?_bare ..

@[simp] theorem isType_bare (s : Slice) : isType code.bare s = isType code s := by
  simp only [isType, Code.slice_bare, List.any_map,
    Code.markBefore_bare]
  rfl

@[simp] theorem statementStart?_bare (floor fuel k : Nat) :
    statementStart? code.bare pairing floor fuel k = statementStart? code pairing floor fuel k := by
  induction fuel generalizing k with
  | zero => rfl
  | succ fuel ih =>
    unfold statementStart?
    simp only [Code.hasBefore_bare, ih]
    rfl

@[simp] theorem firstDeclarator?_bare (floor start stop : Nat) :
    firstDeclarator? code.bare floor start stop = firstDeclarator? code floor start stop := by
  simp only [firstDeclarator?, Code.nameAt_bare, Code.has_bare,
    typeStart?_bare, isType_bare]
  rfl

@[simp] theorem laterDeclarator?_bare (floor name : Nat) :
    laterDeclarator? code.bare pairing floor name = laterDeclarator? code pairing floor name := by
  simp only [laterDeclarator?, Code.runStart_bare,
    Code.markBefore_bare, statementStart?_bare, firstDeclarator?_bare, typeOf_bare]
  rfl

@[simp] theorem declarationAt?_bare (name floor : Nat) (site : Site) :
    declarationAt? code.bare pairing name floor site
      = declarationAt? code pairing name floor site := by
  simp only [declarationAt?, atBoundary, Code.nameAt_bare,
    Code.hasBefore_bare, Code.has_bare, typeStart?_bare, isType_bare, typeOf_bare,
    laterDeclarator?_bare]
  rfl

/-! ## Heads -/

@[simp] theorem initializerColon?_bare (fuel k : Nat) :
    initializerColon? code.bare pairing fuel k = initializerColon? code pairing fuel k := by
  induction fuel generalizing k with
  | zero => rfl
  | succ fuel ih =>
    simp only [initializerColon?, Code.hasBefore_bare,
      Code.markBefore_bare, angleOpening?_bare, Code.nameBefore_bare, chainStart_bare, ih]
    rfl

@[simp] theorem skipReturnType_bare (stop : Nat) :
    skipReturnType code.bare stop = skipReturnType code stop := by
  simp only [skipReturnType, Code.runStart_bare,
    Code.markBefore_bare]
  rfl

@[simp] theorem specifierStart?_bare (j : Nat) :
    specifierStart? code.bare pairing j = specifierStart? code pairing j := by
  simp only [specifierStart?, Code.markBefore_bare,
    Code.hasBefore_bare, Code.mark_bare]
  rfl

@[simp] theorem skipQualifiers_bare (fuel j : Nat) :
    skipQualifiers code.bare pairing fuel j = skipQualifiers code pairing fuel j := by
  induction fuel generalizing j with
  | zero => rfl
  | succ fuel ih =>
    simp only [skipQualifiers, Code.hasBefore_bare,
      Code.markBefore_bare, specifierStart?_bare, ih]
    rfl

@[simp] theorem qualifierStart?_bare (start : Nat) :
    qualifierStart? code.bare start = qualifierStart? code start := by
  simp only [qualifierStart?, Code.markBefore_bare, Code.nameAt_bare, Code.mark_bare,
    angleOpening?_bare, Code.nameBefore_bare]

@[simp] theorem qualifiedStart_bare (fuel start : Nat) (qualified : Bool) :
    qualifiedStart code.bare fuel start qualified = qualifiedStart code fuel start qualified := by
  induction fuel generalizing start qualified with
  | zero => rfl
  | succ fuel ih => simp only [qualifiedStart, qualifierStart?_bare, Code.markBefore_bare, ih]

@[simp] theorem baseName?_bare (opening : Nat) :
    baseName? code.bare opening = baseName? code opening := by
  simp only [baseName?, operator?, Code.has_bare,
    Code.markBefore_bare, angleOpening?_bare, Code.nameBefore_bare]
  rfl

@[simp] theorem declaratorName?_bare (opening : Nat) (inClass : Bool) :
    declaratorName? code.bare opening inClass = declaratorName? code opening inClass := by
  simp only [declaratorName?, baseName?_bare, qualifiedStart_bare,
    Code.hasBefore_bare]
  rfl

@[simp] theorem headBefore?_bare (inClass isTry : Bool) (stop : Nat) :
    headBefore? code.bare pairing inClass isTry stop
      = headBefore? code pairing inClass isTry stop := by
  simp only [headBefore?, skipTrailer, Code.size_bare, skipReturnType_bare, skipQualifiers_bare,
    Code.markBefore_bare, declaratorName?_bare, Code.joined_bare]
  rfl

@[simp] theorem functionHead?_bare (brace : Nat) (inClass : Bool) :
    functionHead? code.bare pairing brace inClass = functionHead? code pairing brace inClass := by
  have hhead : headBefore? code.bare pairing = headBefore? code pairing := by
    funext inClass isTry stop
    exact headBefore?_bare ..
  simp only [functionHead?, Code.keywordBefore_bare, Code.size_bare, initializerColon?_bare, hhead]

end Declaration

/-! ## Brackets -/

namespace Pairing

/-- The pass over bare tokens succeeds with the same table. -/
theorem pairFrom_bare (i : Nat) (pending : List (Nat × Token)) (table : Pairing)
    (tokens : List Token) :
    (pairFrom i (pending.map (Prod.map id Token.bare)) table (tokens.map Token.bare)).toOption
      = (pairFrom i pending table tokens).toOption := by
  induction tokens generalizing i pending table with
  | nil => cases pending <;> rfl
  | cons t tokens ih =>
    have hopening : t.bare.opening? = t.opening? := rfl
    have hclosing : t.bare.closing? = t.closing? := rfl
    rw [List.map_cons, pairFrom, pairFrom, hopening, hclosing]
    split
    · exact ih (i + 1) ((i, t) :: pending) table
    · cases t.closing? with
      | none => exact ih (i + 1) pending table
      | some shape =>
        cases pending with
        | nil => rfl
        | cons top pending =>
          have htop : top.2.bare.opening? = top.2.opening? := rfl
          simp only [List.map_cons, Prod.map, id_eq, htop]
          split
          · exact ih (i + 1) pending _
          · rfl

theorem ofCode_bare (code : Code) :
    (ofCode code.bare).toOption = (ofCode code).toOption := by
  rw [ofCode, ofCode, Code.toList_bare, Code.size_bare]
  exact pairFrom_bare 0 [] _ _

/-- Bare code is paired as the code is. -/
theorem ofCode_bare_eq_ok {code : Code} {p : Pairing} (h : ofCode code = .ok p) :
    ofCode code.bare = .ok p := by
  have hsome := ofCode_bare code
  rw [h] at hsome
  cases hbare : ofCode code.bare with
  | error fault =>
    rw [hbare] at hsome
    cases hsome
  | ok q =>
    rw [hbare] at hsome
    cases hsome
    rfl

end Pairing

/-! ## Regions -/

namespace Region

/-- The region without its byte offsets. -/
def bare (r : Region) : Region := { r with start := 0, stop := 0 }

variable (code : Code) (pairing : Pairing)

@[simp] theorem enumFrom?_bare (limit k : Nat) :
    enumFrom? code.bare limit k = enumFrom? code limit k := by
  induction k with
  | zero => rfl
  | succ k ih =>
    simp only [enumFrom?, Code.has_bare, ih]
    rfl

theorem isChain_bare (tokens : List Token) :
    isChain (tokens.map Token.bare) = isChain tokens := by
  fun_induction isChain tokens with
  | case1 => rfl
  | case2 t => rfl
  | case3 t sep rest ih => simp only [List.map_cons, isChain, ih]; rfl

@[simp] theorem typedefName?_bare (keyword closing : Nat) :
    typedefName? code.bare keyword closing = typedefName? code keyword closing := by
  simp only [typedefName?, Code.keywordBefore_bare, Code.nameAt_bare, Code.has_bare,
    Code.name_bare]
  rfl

@[simp] theorem enumHead?_bare (brace : Nat) :
    enumHead? code.bare pairing brace = enumHead? code pairing brace := by
  have hname : typedefName? code.bare = typedefName? code := by
    funext keyword closing
    exact typedefName?_bare ..
  have hwords : ∀ s : Slice, (code.bare.slice s).takeWhile (!·.isMark ":")
      = ((code.slice s).takeWhile (!·.isMark ":")).map Token.bare := by
    intro s
    rw [Code.slice_bare, List.takeWhile_map]
    rfl
  simp only [enumHead?, enumKeyword?, enumFrom?_bare, Code.has_bare, hname, hwords, isChain_bare,
    Code.map_name_bare, List.isEmpty_map]
  rfl

@[simp] theorem statementStart_bare (fuel s : Nat) :
    statementStart code.bare pairing fuel s = statementStart code pairing fuel s := by
  induction fuel generalizing s with
  | zero => rfl
  | succ fuel ih =>
    simp only [statementStart, Code.hasBefore_bare, ih]
    rfl

theorem classTail?_bare (angle : Int) (tail : Option (List Token)) (tokens : List Token) :
    classTail? angle (tail.map (List.map Token.bare)) (tokens.map Token.bare)
      = (classTail? angle tail tokens).map (List.map Token.bare) := by
  induction tokens generalizing angle tail with
  | nil => rfl
  | cons t tokens ih =>
    have hstart := ih angle (some tokens)
    rw [Option.map_some] at hstart
    simp only [List.map_cons, classTail?, ih, hstart, Option.isNone_map,
      apply_ite (Option.map (List.map Token.bare)), Option.map_none]
    rfl

theorem className?_bare (angle : Int) (name : Option String) (tokens : List Token) :
    className? angle name (tokens.map Token.bare) = className? angle name tokens := by
  induction tokens generalizing angle name with
  | nil => rfl
  | cons t tokens ih =>
    simp only [List.map_cons, className?, ih]
    rfl

theorem classOrPlain_bare (statement : List Token) :
    classOrPlain (statement.map Token.bare) = classOrPlain statement := by
  have htail := classTail?_bare 0 none statement
  rw [Option.map_none] at htail
  rw [classOrPlain, classOrPlain, htail]
  cases classTail? 0 none statement with
  | none => rfl
  | some tail => exact congrArg RegionKind.classBody (className?_bare 0 none tail)

theorem namespaceName?_bare (words : List Token) :
    namespaceName? (words.map Token.bare) = namespaceName? words := by
  rw [namespaceName?, namespaceName?, Code.map_name_bare]

theorem blockKind_bare (statement : List Token) :
    blockKind (statement.map Token.bare) = blockKind statement := by
  match statement with
  | [] => rfl
  | [first] =>
    have := classOrPlain_bare [first]
    simp only [List.map_cons, List.map_nil, blockKind] at this ⊢
    rw [this]
    rfl
  | first :: second :: rest =>
    have hclass := classOrPlain_bare (first :: second :: rest)
    have hname := namespaceName?_bare (second :: rest)
    simp only [List.map_cons, blockKind, namespaceName?_bare] at hclass hname ⊢
    rw [hclass, hname, List.isEmpty_map]
    rfl

theorem tryOwner?_bare (regions : Array Region) (closing : Nat) :
    tryOwner? pairing (regions.map bare) closing = tryOwner? pairing regions closing := by
  simp only [tryOwner?, Array.find?_map, Option.bind_map]
  rfl

/-- **The kind of a region asks for no place**, neither of tokens nor of the regions before it. -/
theorem classify_bare {regions regions' : Array Region}
    (h : regions'.map bare = regions.map bare) (parent : Option RegionKind) (brace : Nat) :
    classify code.bare pairing regions' parent brace
      = classify code pairing regions parent brace := by
  have howner : tryOwner? pairing regions' = tryOwner? pairing regions := by
    funext closing
    rw [← tryOwner?_bare, h, tryOwner?_bare]
  have hhandler : handlerKind? code.bare pairing regions' = handlerKind? code pairing regions := by
    funext opening
    simp only [handlerKind?, Code.keywordBefore_bare, Code.markBefore_bare, howner]
  simp only [classify, functionKind?, Code.markBefore_bare, Code.keywordBefore_bare,
    enumHead?_bare, Declaration.functionHead?_bare, hhandler, statementStart_bare, Code.slice_bare,
    blockKind_bare]

end Region

namespace Forest

/-- The forest without byte offsets. -/
def bare (f : Forest) : Forest := ⟨f.regions.map Region.bare⟩

/-- A forest under construction, without byte offsets. -/
def Growth.bare (g : Growth) : Growth := ⟨g.regions.map Region.bare, g.pending⟩

/-- **One token adds the same region, up to its byte offsets.** -/
theorem Growth.step_bare {code : Code} {pairing : Pairing} {g g' : Growth} (h : g'.bare = g.bare)
    (i : Nat) (t : Token) :
    (g'.step code.bare pairing i t.bare).bare = (g.step code pairing i t).bare := by
  obtain ⟨regions, pending⟩ := g
  obtain ⟨regions', pending'⟩ := g'
  obtain ⟨hregions, rfl⟩ : regions'.map Region.bare = regions.map Region.bare ∧
      pending' = pending := by
    simpa [Growth.bare] using h
  have hsize : regions'.size = regions.size := by simpa using congrArg Array.size hregions
  have hkind : ∀ p : Nat, regions'[p]?.map (·.kind) = regions[p]?.map (·.kind) := by
    intro p
    have := congrArg (·[p]?.map Region.kind) hregions
    simpa [Function.comp_def, Region.bare] using this
  have hopening : t.bare.opening? = t.opening? := rfl
  have hclosing : t.bare.closing? = t.closing? := rfl
  simp only [Growth.step, hopening, hclosing, hsize, hkind,
    Region.classify_bare code pairing hregions]
  split_ifs
  · simp only [Growth.bare, Array.map_push, hregions]
    rfl
  · simp only [Growth.bare, hregions]
  · simp only [Growth.bare, hregions]

theorem growFrom_bare {code : Code} {pairing : Pairing} {g g' : Growth} (h : g'.bare = g.bare)
    (i : Nat) (tokens : List Token) :
    (growFrom code.bare pairing i g' (tokens.map Token.bare)).bare
      = (growFrom code pairing i g tokens).bare := by
  induction tokens generalizing i g g' with
  | nil => exact h
  | cons t tokens ih => exact ih (Growth.step_bare h i t) (i + 1)

theorem ofCode_bare (code : Code) (pairing : Pairing) :
    (ofCode code.bare pairing).bare = (ofCode code pairing).bare := by
  have := @growFrom_bare code pairing {} {} rfl 0 code.toList
  rw [← Code.toList_bare] at this
  exact congrArg Forest.mk (congrArg Growth.regions this)

end Forest

end Quell
