import Mathlib.Data.List.Forall2
import Quell.Proofs.Findings
import Quell.Proofs.Placement

/-!
# Proofs/Foresight — the kind of a region is settled at its brace

The recognizers get the whole code, the whole table of partners and the regions so far.  They read
tokens before the brace only, and partners of brackets that close before it.  So two codes that
agree on their first `n` tokens (`Agree`) give the same answers up to there, one equation per
recognizer, and grow the same regions (`Region.Alike`).  The one exception is the name of a
`typedef enum`, which stands after its closing brace.
-/

namespace Quell

open Declaration

/-! ## Codes that agree so far -/

/-- **Two codes agree on their first `n` tokens**, and the second table on the brackets that close
there.  That table need not be finished. -/
structure Agree (n : Nat) (code code' : Code) (pairing pairing' : Pairing) : Prop where
  paired : Pairing.ofCode code = .ok pairing
  take_eq : code.toList.take n = code'.toList.take n
  settled : ∀ i j, Matched (code'.toList.take n) i j → pairing'.partner j = some i

namespace Agree

variable {n : Nat} {code code' : Code} {pairing pairing' : Pairing}

/-- Codes with paired brackets that begin alike agree. -/
theorem of_paired (hpaired : Pairing.ofCode code = .ok pairing)
    (hpaired' : Pairing.ofCode code' = .ok pairing')
    (htake : code.toList.take n = code'.toList.take n) : Agree n code code' pairing pairing' := by
  refine ⟨hpaired, htake, fun i j hmatch => ?_⟩
  have hwhole := hmatch.append (code'.toList.drop n)
  rw [List.take_append_drop] at hwhole
  exact (Pairing.partner_eq_some_iff hpaired').mpr (.inr hwhole)

variable (h : Agree n code code' pairing pairing') {i k : Nat}

include h

/-- Both codes have the same tokens before the bound. -/
theorem getElem?_eq (hi : i < n) : code[i]? = code'[i]? := by
  have hget := congrArg (·[i]?) h.take_eq
  rwa [List.getElem?_take_of_lt hi, List.getElem?_take_of_lt hi, Array.getElem?_toList,
    Array.getElem?_toList] at hget

theorem has_eq (hi : i < n) (test : Token → Bool) : code.has i test = code'.has i test := by
  rw [Code.has, Code.has, h.getElem?_eq hi]

theorem mark_eq (hi : i < n) (word : String) : code.mark i word = code'.mark i word :=
  h.has_eq hi _

theorem nameAt_eq (hi : i < n) : code.nameAt i = code'.nameAt i := h.has_eq hi _

theorem hasBefore_eq (hk : k ≤ n) (test : Token → Bool) :
    code.hasBefore k test = code'.hasBefore k test := by
  cases k with
  | zero => rfl
  | succ k => exact h.has_eq hk test

theorem markBefore_eq (hk : k ≤ n) (word : String) :
    code.markBefore k word = code'.markBefore k word := h.hasBefore_eq hk _

theorem keywordBefore_eq (hk : k ≤ n) (word : String) :
    code.keywordBefore k word = code'.keywordBefore k word := h.hasBefore_eq hk _

theorem nameBefore_eq (hk : k ≤ n) : code.nameBefore k = code'.nameBefore k :=
  h.hasBefore_eq hk _

theorem slice_eq {s : Slice} (hs : s.stop ≤ n) : code.slice s = code'.slice s := by
  have key : ∀ tokens : List Token, (tokens.drop s.start).take (s.stop - s.start) =
      ((tokens.take n).drop s.start).take (s.stop - s.start) := by
    intro tokens
    rw [List.drop_take, List.take_take, Nat.min_eq_left (by omega)]
  rw [Code.slice, Code.slice, Array.toList_extract, Array.toList_extract,
    List.extract_eq_take_drop, List.extract_eq_take_drop, key, h.take_eq, ← key]

theorem joined_eq {s : Slice} (hs : s.stop ≤ n) : code.joined s = code'.joined s := by
  rw [Code.joined, Code.joined, h.slice_eq hs]

/-- A run of tokens that ends at the bound starts at the same one. -/
theorem runStart_eq (hk : k ≤ n) (limit : Nat) (test : Token → Bool) :
    code.runStart limit test k = code'.runStart limit test k := by
  induction k with
  | zero => rfl
  | succ k ih => rw [Code.runStart, Code.runStart, h.has_eq hk, ih (by omega)]

/-- **A bracket that closes has the same partner**, which stands before it. -/
theorem exists_partner (shape : Bracket) (hk : k ≤ n)
    (hclose : code.markBefore k shape.closer = true) :
    ∃ j, pairing.partner (k - 1) = some j ∧ pairing'.partner (k - 1) = some j ∧ j + 1 < k := by
  obtain ⟨hpos, hclose⟩ := Code.hasBefore_iff.mp hclose
  obtain ⟨j, hpartner, hlt, -⟩ := Pairing.exists_opening h.paired shape hclose
  refine ⟨j, hpartner, ?_, by omega⟩
  rcases (Pairing.partner_eq_some_iff h.paired).mp hpartner with hmatch | hmatch
  · exact absurd hmatch.1 (by omega)
  · have hlength := hmatch.lt_length
    rw [← List.take_append_drop n code.toList] at hmatch
    have hprefix := hmatch.of_append (by rw [List.length_take]; omega)
    rw [h.take_eq] at hprefix
    exact h.settled j (k - 1) hprefix

/-! ## The head of a function -/

/-- The search back for an open angle bracket reads tokens before the bound alone. -/
theorem angleFrom?_eq (hk : k ≤ n) (floor : Nat) (depth : Int) :
    angleFrom? code floor k depth = angleFrom? code' floor k depth := by
  induction k generalizing depth with
  | zero => rfl
  | succ k ih =>
    simp only [angleFrom?, h.mark_eq hk, h.has_eq hk, ih (by omega : k ≤ n)]

theorem angleStart?_eq (hk : k ≤ n) : angleStart? code k = angleStart? code' k := by
  rw [angleStart?, angleStart?, ← h.markBefore_eq hk]
  split_ifs with hgt
  · obtain ⟨hpos, -⟩ := Code.hasBefore_iff.mp hgt
    exact h.angleFrom?_eq (by omega) _ _
  · rfl

theorem chainStart_eq {last : Nat} (hlast : last < n) (floor : Nat) :
    chainStart code floor last = chainStart code' floor last := by
  fun_induction chainStart code floor last with
  | case1 s hchain ih =>
    rw [h.mark_eq (by omega), h.nameAt_eq (by omega)] at hchain
    rw [chainStart, if_pos hchain, ih (by omega)]
  | case2 s hchain =>
    rw [h.mark_eq (by omega), h.nameAt_eq (by omega)] at hchain
    rw [chainStart, if_neg hchain]
  | case3 s hs =>
    rw [chainStart.eq_2 code' floor s hs]

/-- The search back for a constructor's initializers reads tokens before the bound alone. -/
theorem initializerStart?_eq (hk : k ≤ n) :
    initializerStart? code pairing k = initializerStart? code' pairing' k := by
  rw [initializerStart?, initializerStart?, ← h.hasBefore_eq hk]
  split_ifs with hclose
  · obtain ⟨shape, hshape⟩ := exists_argumentCloser hclose
    obtain ⟨opening, hpartner, hpartner', hlt⟩ := h.exists_partner shape hk hshape
    rw [hpartner, hpartner', Option.bind_some, Option.bind_some, h.angleStart?_eq (by omega)]
    refine Option.bind_congr fun m hm => ?_
    have hle := (unbroken_of_angleStart? hm).1
    rw [← h.nameBefore_eq (by omega)]
    split_ifs with hname
    · obtain ⟨hpos, -⟩ := Code.hasBefore_iff.mp hname
      rw [h.chainStart_eq (by omega)]
    · rfl
  · rfl

/-- The `:` of the initializers, whatever the fuel. -/
theorem initializerColon?_eq {fuel fuel' : Nat} (hk : k ≤ n) (hfuel : k < fuel)
    (hfuel' : k < fuel') :
    initializerColon? code pairing fuel k = initializerColon? code' pairing' fuel' k := by
  induction fuel generalizing k fuel' with
  | zero => exact absurd hfuel (Nat.not_lt_zero k)
  | succ fuel ih =>
    obtain ⟨fuel', rfl⟩ : ∃ m, fuel' = m + 1 := ⟨fuel' - 1, by omega⟩
    rw [initializerColon?_succ, initializerColon?_succ, ← h.initializerStart?_eq hk]
    refine Option.bind_congr fun start hstart => ?_
    have hlt := (stays_initializerStart? h.paired hstart).1
    rw [← h.markBefore_eq (by omega), ← h.markBefore_eq (by omega)]
    split_ifs
    · exact ih (by omega) (by omega) (by omega)
    · rfl
    · rfl

theorem skipReturnType_eq {stop : Nat} (hstop : stop ≤ n) :
    skipReturnType code stop = skipReturnType code' stop := by
  have hle := @runStart_le code' (stop - lookback) isReturnWord stop
  rw [skipReturnType, skipReturnType, h.runStart_eq hstop, h.markBefore_eq (Nat.le_trans hle hstop)]

/-- The search back for a specifier reads tokens before the bound alone. -/
theorem specifierStart?_eq (hk : k ≤ n) :
    specifierStart? code pairing k = specifierStart? code' pairing' k := by
  rw [specifierStart?, specifierStart?, ← h.markBefore_eq hk, ← h.markBefore_eq hk]
  split_ifs with hround hsquare
  · obtain ⟨opening, hpartner, hpartner', hlt⟩ := h.exists_partner .round hk hround
    simp only [hpartner, hpartner', h.hasBefore_eq (by omega : opening ≤ n),
      h.markBefore_eq (by omega : opening - 1 ≤ n)]
  · obtain ⟨opening, hpartner, hpartner', hlt⟩ := h.exists_partner .square hk hsquare
    simp only [hpartner, hpartner', h.mark_eq (by omega : opening < n),
      h.mark_eq (by omega : opening + 1 < n)]
  · rfl

/-- What is left of the qualifiers, whatever the fuel. -/
theorem skipQualifiers_eq {fuel fuel' : Nat} (hk : k ≤ n) (hfuel : k < fuel)
    (hfuel' : k < fuel') :
    skipQualifiers code pairing fuel k = skipQualifiers code' pairing' fuel' k := by
  induction fuel generalizing k fuel' with
  | zero => exact absurd hfuel (Nat.not_lt_zero k)
  | succ fuel ih =>
    obtain ⟨fuel', rfl⟩ : ∃ m, fuel' = m + 1 := ⟨fuel' - 1, by omega⟩
    rw [skipQualifiers, skipQualifiers, ← h.hasBefore_eq hk, ← h.hasBefore_eq hk,
      ← h.markBefore_eq (by omega), ← h.specifierStart?_eq hk]
    split_ifs with hword hmacro
    · have hpos := (Code.hasBefore_iff.mp hword).1
      exact ih (by omega) (by omega) (by omega)
    · rw [Bool.and_eq_true] at hmacro
      have hpos := (Code.hasBefore_iff.mp hmacro.1).1
      exact ih (by omega) (by omega) (by omega)
    · cases hstart : specifierStart? code pairing k with
      | none => rfl
      | some start =>
        have hlt := (stays_specifierStart? h.paired hstart).1
        exact ih (by omega) (by omega) (by omega)

theorem skipTrailer_eq {stop : Nat} (hstop : stop ≤ n) (hsize : stop ≤ code.size)
    (hsize' : stop ≤ code'.size) :
    skipTrailer code pairing stop = skipTrailer code' pairing' stop := by
  have hle := (@stays_skipReturnType code' pairing' stop).1
  rw [skipTrailer, skipTrailer, h.skipReturnType_eq hstop]
  exact h.skipQualifiers_eq (by omega) (by omega) (by omega)

theorem operator?_eq (hk : k ≤ n) : operator? code k = operator? code' k := by
  refine Option.ext fun i => ?_
  rw [operator?_eq_some_iff, operator?_eq_some_iff]
  refine and_congr_right fun hi => and_congr_right fun _ => ?_
  rw [h.has_eq (by omega)]
  refine and_congr_right fun _ => forall_congr' fun j => forall₂_congr fun _ hj => ?_
  rw [h.has_eq (by omega)]

/-- The last part of a function's name is read from tokens before the bound. -/
theorem baseName?_eq (hk : k ≤ n) : baseName? code k = baseName? code' k := by
  have hangle : (if code.markBefore k ">" then angleOpening? code (k - 1) else some k) =
      if code'.markBefore k ">" then angleOpening? code' (k - 1) else some k :=
    h.angleStart?_eq hk
  rw [baseName?, baseName?, h.operator?_eq hk]
  cases operator? code' k with
  | some start => rfl
  | none =>
    dsimp only
    rw [hangle]
    refine Option.bind_congr fun m hm => ?_
    have hle := (unbroken_of_angleStart? (show angleStart? code' k = some m from hm)).1
    rw [h.nameBefore_eq (by omega), h.markBefore_eq (by omega)]

theorem qualifierStart?_eq (hk : k ≤ n) : qualifierStart? code k = qualifierStart? code' k := by
  rw [qualifierStart?, qualifierStart?, ← h.markBefore_eq hk]
  refine ite_congr rfl (fun hcolons => ?_) fun _ => rfl
  rw [Bool.and_eq_true, decide_eq_true_eq] at hcolons
  have hangle : angleOpening? code (k - 2) = angleOpening? code' (k - 2) :=
    h.angleFrom?_eq (by omega) _ _
  rw [h.nameAt_eq (by omega), h.mark_eq (by omega), hangle]
  cases hlt : angleOpening? code' (k - 2) with
  | none => rfl
  | some lt =>
    have hle := (unbroken_of_angleOpening? hlt).1
    dsimp only
    rw [h.nameBefore_eq (by omega)]

theorem qualifiedStart_eq (hk : k ≤ n) (fuel : Nat) (qualified : Bool) :
    qualifiedStart code fuel k qualified = qualifiedStart code' fuel k qualified := by
  induction fuel generalizing k qualified with
  | zero => rfl
  | succ fuel ih =>
    rw [qualifiedStart, qualifiedStart, h.qualifierStart?_eq hk, h.markBefore_eq hk]
    cases houter : qualifierStart? code' k with
    | none => rfl
    | some outer =>
      have hlt := (unbroken_of_qualifierStart? houter).1
      exact ih (by omega) true

/-- **The name of a function is read from tokens before the bound.** -/
theorem declaratorName?_eq (hk : k ≤ n) (inClass : Bool) :
    declaratorName? code k inClass = declaratorName? code' k inClass := by
  rw [declaratorName?, declaratorName?, h.baseName?_eq hk]
  refine ite_congr rfl (fun _ => rfl) fun hpos => Option.bind_congr fun base hbase => ?_
  have hlt := baseName?_lt hbase
  have hle := (@unbroken_qualifiedStart code' (base + 1) base false).1
  rw [h.qualifiedStart_eq (by omega)]
  dsimp only
  rw [h.hasBefore_eq (by omega)]

/-- **So is its head.** -/
theorem headBefore?_eq {stop : Nat} (hstop : stop ≤ n) (hsize : stop ≤ code.size)
    (hsize' : stop ≤ code'.size) (inClass isTry : Bool) :
    headBefore? code pairing inClass isTry stop =
      headBefore? code' pairing' inClass isTry stop := by
  have hle := (stays_skipTrailer h.paired stop).1
  rw [headBefore?, headBefore?, ← h.skipTrailer_eq hstop hsize hsize']
  generalize skipTrailer code pairing stop = j at hle
  rw [← h.markBefore_eq (by omega)]
  refine ite_congr rfl (fun _ => rfl) fun hclose => ?_
  rw [Bool.not_eq_true', Bool.not_eq_false] at hclose
  obtain ⟨opening, hpartner, hpartner', hlt⟩ := h.exists_partner .round (by omega) hclose
  rw [hpartner, hpartner', Option.bind_some, Option.bind_some, h.declaratorName?_eq (by omega)]
  refine Option.map_congr fun name hname => ?_
  obtain ⟨-, hname, -⟩ := declaratorName?_eq_some hname
  rw [h.joined_eq (by omega)]

/-- **The head of a function is settled at its brace.** -/
theorem functionHead?_eq {brace : Nat} (hbrace : brace ≤ n) (hsize : brace ≤ code.size)
    (hsize' : brace ≤ code'.size) (inClass : Bool) :
    functionHead? code pairing brace inClass = functionHead? code' pairing' brace inClass := by
  rw [functionHead?, functionHead?, h.keywordBefore_eq hbrace]
  have hstop : (if code'.keywordBefore brace "try" then brace - 1 else brace) ≤ brace := by
    split_ifs
    · exact Nat.sub_le brace 1
    · exact Nat.le_refl brace
  generalize (if code'.keywordBefore brace "try" then brace - 1 else brace) = stop at hstop
  have hcolon : initializerColon? code pairing (code.size + 1) stop =
      initializerColon? code' pairing' (code'.size + 1) stop :=
    h.initializerColon?_eq (by omega) (by omega) (by omega)
  have hinit : (initializerColon? code pairing (code.size + 1) stop).bind
      (headBefore? code pairing inClass (code'.keywordBefore brace "try")) =
      (initializerColon? code' pairing' (code'.size + 1) stop).bind
        (headBefore? code' pairing' inClass (code'.keywordBefore brace "try")) := by
    rw [← hcolon]
    refine Option.bind_congr fun colon hcolon => ?_
    have hlt := (stays_initializerColon? h.paired hcolon).1
    exact h.headBefore?_eq (by omega) (by omega) (by omega) _ _
  rw [hinit, h.headBefore?_eq (by omega) (by omega) (by omega)]

end Agree

/-! ## Enums, blocks and handlers -/

namespace Region

/-- What the search back from a place finds is an `enum` keyword before it. -/
theorem enumFrom?_eq_some {code : Code} {limit k keyword : Nat}
    (h : enumFrom? code limit k = some keyword) :
    keyword < k ∧ code.has keyword (·.isKeyword "enum") = true := by
  induction k with
  | zero => cases h
  | succ k ih =>
    rw [enumFrom?] at h
    split_ifs at h with hlimit hkeyword hword
    · cases h
      exact ⟨Nat.lt_succ_self _, hkeyword⟩
    · exact ⟨Nat.lt_succ_of_lt (ih h).1, (ih h).2⟩

/-- The head of an enum as far as it stands before the brace. -/
structure EnumStem where
  keyword : Nat
  isScoped : Bool
  /-- The name, if one is written there. -/
  name : Option String

/-- What stands before the brace of an enum. -/
def enumStem? (code : Code) (brace : Nat) : Option EnumStem :=
  (enumKeyword? code brace).bind fun keyword =>
    let isScoped := code.has (keyword + 1) fun t => t.isKeyword "class" || t.isKeyword "struct"
    let first := if isScoped then keyword + 2 else keyword + 1
    let words := (code.slice ⟨first, brace⟩).takeWhile (!·.isMark ":")
    if words.isEmpty then some ⟨keyword, isScoped, none⟩
    else if isChain words then some ⟨keyword, isScoped, some (String.join (words.map (·.name)))⟩
    else none

theorem keyword_of_enumStem? {code : Code} {brace : Nat} {stem : EnumStem}
    (h : enumStem? code brace = some stem) :
    stem.keyword < brace ∧ code.has stem.keyword (·.isKeyword "enum") = true := by
  obtain ⟨keyword, hkeyword, h⟩ := Option.bind_eq_some_iff.mp h
  obtain rfl : stem.keyword = keyword := by
    dsimp only at h
    split_ifs at h <;> cases h <;> rfl
  exact enumFrom?_eq_some hkeyword

theorem typedefName?_eq_none {code : Code} {keyword closing : Nat}
    (h : code.keywordBefore keyword "typedef" = false) :
    typedefName? code keyword closing = none := by
  rw [typedefName?, h]
  rfl

/-- **Only a missing name is looked up after the closing brace.** -/
theorem enumHead?_eq_stem (code : Code) (pairing : Pairing) (brace : Nat) :
    enumHead? code pairing brace = (enumStem? code brace).map fun stem =>
      ⟨stem.name <|> (pairing.partner brace).bind (typedefName? code stem.keyword),
        stem.isScoped⟩ := by
  rw [enumHead?, enumStem?, Option.map_bind]
  refine Option.bind_congr fun keyword _ => ?_
  dsimp only [Function.comp_apply]
  split_ifs <;> rfl

/-- Where the group that ends before a brace opens. -/
def groupBefore? (code : Code) (pairing : Pairing) (brace : Nat) : Option Nat :=
  if code.markBefore brace ")" then pairing.partner (brace - 1) else none

/-- The group of the condition of a switch. -/
def switchGroup? (code : Code) (pairing : Pairing) (brace : Nat) : Option Nat :=
  (groupBefore? code pairing brace).filter (code.keywordBefore · "switch")

/-- The kind of a region that is no switch and no enum. -/
def otherKind (code : Code) (pairing : Pairing) (regions : Array Region)
    (parent : Option RegionKind) (brace : Nat) : RegionKind :=
  match functionKind? code pairing parent brace with
  | some kind => kind
  | none =>
    match (groupBefore? code pairing brace).bind (handlerKind? code pairing regions) with
    | some kind => kind
    | none => blockKind (code.slice ⟨statementStart code pairing brace brace, brace⟩)

/-- The kinds are tried in this order, and the first that fits is taken. -/
theorem classify_eq_match (code : Code) (pairing : Pairing) (regions : Array Region)
    (parent : Option RegionKind) (brace : Nat) :
    classify code pairing regions parent brace =
      match switchGroup? code pairing brace with
      | some opening => .switchBody ⟨opening, brace - 1⟩
      | none =>
        match enumHead? code pairing brace with
        | some head => .enumBody head
        | none => otherKind code pairing regions parent brace := rfl

end Region

namespace Agree

variable {n : Nat} {code code' : Code} {pairing pairing' : Pairing}
  (h : Agree n code code' pairing pairing') {k : Nat}

include h

open Region

/-- The search back for the keyword of an enum reads tokens before the bound alone. -/
theorem enumFrom?_eq (hk : k ≤ n) (limit : Nat) :
    enumFrom? code limit k = enumFrom? code' limit k := by
  induction k with
  | zero => rfl
  | succ k ih => simp only [enumFrom?, h.has_eq hk, ih (by omega)]

theorem enumStem?_eq {brace : Nat} (hbrace : brace < n) :
    enumStem? code brace = enumStem? code' brace := by
  have hkeyword : enumKeyword? code brace = enumKeyword? code' brace :=
    h.enumFrom?_eq (Nat.le_of_lt hbrace) _
  rw [enumStem?, enumStem?, hkeyword]
  refine Option.bind_congr fun keyword hkeyword => ?_
  have hlt := (enumFrom?_eq_some hkeyword).1
  dsimp only
  rw [h.has_eq (by omega), h.slice_eq (Nat.le_of_lt hbrace)]

theorem statementStart_eq (hk : k ≤ n) (fuel : Nat) :
    statementStart code pairing fuel k = statementStart code' pairing' fuel k := by
  induction fuel generalizing k with
  | zero => rfl
  | succ fuel ih =>
    rw [statementStart, statementStart, ← h.hasBefore_eq hk, ← h.hasBefore_eq hk]
    refine ite_congr rfl (fun _ => rfl) fun _ => ite_congr rfl (fun hclose => ?_) fun _ => ?_
    · obtain ⟨shape, hshape⟩ : ∃ shape : Bracket, code.markBefore k shape.closer = true := by
        rcases Code.hasBefore_or_iff.mp hclose with hround | hsquare
        · exact ⟨.round, hround⟩
        · exact ⟨.square, hsquare⟩
      obtain ⟨opening, hpartner, hpartner', hlt⟩ := h.exists_partner shape hk hshape
      rw [hpartner, hpartner']
      exact ih (by omega)
    · exact ih (by omega)

/-- The group before a brace is the same, and opens before it. -/
theorem groupBefore?_eq (hk : k ≤ n) :
    groupBefore? code pairing k = groupBefore? code' pairing' k ∧
      ∀ opening ∈ groupBefore? code' pairing' k, opening < k := by
  rw [groupBefore?, groupBefore?, ← h.markBefore_eq hk]
  split_ifs with hclose
  · obtain ⟨opening, hpartner, hpartner', hlt⟩ := h.exists_partner .round hk hclose
    rw [hpartner, hpartner']
    refine ⟨rfl, fun other hother => ?_⟩
    cases hother
    omega
  · exact ⟨rfl, nofun⟩

/-- The condition of a switch stands before the bound. -/
theorem switchGroup?_eq (hk : k ≤ n) :
    switchGroup? code pairing k = switchGroup? code' pairing' k := by
  obtain ⟨hgroup, hbefore⟩ := h.groupBefore?_eq hk
  rw [switchGroup?, switchGroup?, hgroup]
  cases hopening : groupBefore? code' pairing' k with
  | none => rfl
  | some opening =>
    have := hbefore opening hopening
    rw [Option.filter_some, Option.filter_some, h.keywordBefore_eq (by omega)]

end Agree

/-! ## Regions that are alike -/

/-- The kind without what an enum is called. -/
def RegionKind.unnamed : RegionKind → RegionKind
  | .enumBody _ => .enumBody ⟨none, false⟩
  | kind => kind

namespace Region

/-- **What the recognizers ask of a region**: not where it ends, and of an enum nothing more. -/
def unnamed (r : Region) : Region :=
  { r with kind := r.kind.unnamed, closing := 0, start := 0, stop := 0 }

/-- The names of enums play no part in the search for the owner of a handler. -/
theorem tryOwner?_unnamed (pairing : Pairing) (regions : Array Region) (closing : Nat) :
    tryOwner? pairing (regions.map unnamed) closing = tryOwner? pairing regions closing := by
  simp only [tryOwner?, Array.find?_map, Option.bind_map]
  refine Option.bind_congr fun opening _ => Option.bind_congr fun r _ => ?_
  rw [Function.comp_apply, unnamed]
  cases r.kind <;> rfl

theorem functionKind?_unnamed (code : Code) (pairing : Pairing) (parent : Option RegionKind)
    (brace : Nat) : functionKind? code pairing (parent.map RegionKind.unnamed) brace =
      functionKind? code pairing parent brace := by
  rcases parent with _ | kind
  · rfl
  · cases kind <;> rfl

end Region

/-- **The kind of a `typedef enum` without a name before its brace**: it is called what stands after
its closing brace, if anything does. -/
def RegionKind.NamedBehind (code : Code) (keyword : Nat) (isScoped : Bool) (closing : Nat)
    (kind : RegionKind) : Prop :=
  code.has keyword (·.isKeyword "enum") = true ∧ code.keywordBefore keyword "typedef" = true ∧
    kind = .enumBody ⟨Region.typedefName? code keyword closing, isScoped⟩

/-- **The regions are the same up to where they end**, the names of `typedef enum`s apart. -/
structure Region.Alike (code code' : Code) (r r' : Region) : Prop where
  id_eq : r.id = r'.id
  opening_eq : r.opening = r'.opening
  parent_eq : r.parent = r'.parent
  kind_eq : r.kind = r'.kind ∨ ∃ keyword < r.opening, ∃ isScoped,
    r.kind.NamedBehind code keyword isScoped r.closing ∧
      r'.kind.NamedBehind code' keyword isScoped r'.closing

namespace Region

variable {code code' : Code} {r r' : Region}

/-- Regions alike look the same to the recognizers. -/
theorem Alike.unnamed_eq (h : r.Alike code code' r') : r.unnamed = r'.unnamed := by
  have hkind : r.kind.unnamed = r'.kind.unnamed := by
    rcases h.kind_eq with hkind | ⟨keyword, -, isScoped, ⟨-, -, hkind⟩, -, -, hkind'⟩
    · rw [hkind]
    · rw [hkind, hkind']
      rfl
  rw [unnamed, unnamed, hkind, h.id_eq, h.opening_eq, h.parent_eq]

theorem map_unnamed_eq {regions regions' : List Region}
    (h : List.Forall₂ (Alike code code') regions regions') :
    regions.map unnamed = regions'.map unnamed := by
  induction h with
  | nil => rfl
  | cons hr _ ih => rw [List.map_cons, List.map_cons, hr.unnamed_eq, ih]

end Region

namespace Agree

variable {n : Nat} {code code' : Code} {pairing pairing' : Pairing}
  (h : Agree n code code' pairing pairing') {brace : Nat}

include h

open Region

theorem handlerKind?_eq {regions regions' : Array Region}
    (hregions : regions.map unnamed = regions'.map unnamed) {opening : Nat}
    (hopening : opening ≤ n) :
    handlerKind? code pairing regions opening = handlerKind? code' pairing' regions' opening := by
  rw [handlerKind?, handlerKind?, ← h.keywordBefore_eq hopening, ← h.markBefore_eq (by omega)]
  refine ite_congr rfl (fun hcatch => ?_) fun _ => rfl
  rw [Bool.and_eq_true] at hcatch
  obtain ⟨before, hpartner, hpartner', -⟩ := h.exists_partner .curly (by omega) hcatch.2
  rw [← tryOwner?_unnamed pairing, hregions, tryOwner?_unnamed]
  rw [tryOwner?, tryOwner?, show opening - 2 = opening - 1 - 1 by omega, hpartner, hpartner']

/-- **A function body is told from the tokens before its brace.** -/
theorem functionKind?_eq (hbrace : brace ≤ n) (hsize : brace ≤ code.size)
    (hsize' : brace ≤ code'.size) (parent : Option RegionKind) :
    functionKind? code pairing parent brace = functionKind? code' pairing' parent brace := by
  rw [functionKind?.eq_def, functionKind?.eq_def]
  dsimp only
  rw [h.functionHead?_eq hbrace hsize hsize']

/-- **So is every kind but an enum's.** -/
theorem otherKind_eq (hbrace : brace < n) (hsize : brace ≤ code.size) (hsize' : brace ≤ code'.size)
    {regions regions' : Array Region} (hregions : regions.map unnamed = regions'.map unnamed)
    {parent parent' : Option RegionKind}
    (hparent : parent.map RegionKind.unnamed = parent'.map RegionKind.unnamed) :
    otherKind code pairing regions parent brace =
      otherKind code' pairing' regions' parent' brace := by
  have hfunction : functionKind? code pairing parent brace =
      functionKind? code' pairing' parent' brace := by
    rw [h.functionKind?_eq (Nat.le_of_lt hbrace) hsize hsize', ← functionKind?_unnamed, hparent,
      functionKind?_unnamed]
  obtain ⟨hgroup, hbefore⟩ := h.groupBefore?_eq (Nat.le_of_lt hbrace)
  have hhandler : (groupBefore? code pairing brace).bind (handlerKind? code pairing regions) =
      (groupBefore? code' pairing' brace).bind (handlerKind? code' pairing' regions') := by
    rw [hgroup]
    refine Option.bind_congr fun opening hopening => ?_
    have := hbefore opening hopening
    exact h.handlerKind?_eq hregions (by omega)
  rw [otherKind, otherKind, hfunction, hhandler, h.statementStart_eq (Nat.le_of_lt hbrace),
    h.slice_eq (Nat.le_of_lt hbrace)]

/-- **The kind of a region is settled at its brace**, the name of a `typedef enum` apart. -/
theorem classify_eq (hbrace : brace < n) (hsize : brace ≤ code.size) (hsize' : brace ≤ code'.size)
    {regions regions' : Array Region} (hregions : regions.map unnamed = regions'.map unnamed)
    {parent parent' : Option RegionKind}
    (hparent : parent.map RegionKind.unnamed = parent'.map RegionKind.unnamed)
    {closing closing' : Nat} (hclosing : pairing.partner brace = some closing)
    (hclosing' : pairing'.partner brace = some closing') :
    classify code pairing regions parent brace = classify code' pairing' regions' parent' brace ∨
      ∃ keyword < brace, ∃ isScoped,
        (classify code pairing regions parent brace).NamedBehind code keyword isScoped closing ∧
        (classify code' pairing' regions' parent' brace).NamedBehind code' keyword isScoped
          closing' := by
  rw [classify_eq_match, classify_eq_match, h.switchGroup?_eq (Nat.le_of_lt hbrace),
    h.otherKind_eq hbrace hsize hsize' hregions hparent, enumHead?_eq_stem, enumHead?_eq_stem,
    h.enumStem?_eq hbrace, hclosing, hclosing']
  cases switchGroup? code' pairing' brace with
  | some opening => exact .inl rfl
  | none =>
    cases hstem : enumStem? code' brace with
    | none => exact .inl rfl
    | some stem =>
      obtain ⟨keyword, isScoped, _ | name⟩ := stem
      · obtain ⟨hlt, henum⟩ : keyword < brace ∧ code'.has keyword (·.isKeyword "enum") = true :=
          keyword_of_enumStem? hstem
        have htypedef := h.keywordBefore_eq (k := keyword) (by omega) "typedef"
        cases hfound : code'.keywordBefore keyword "typedef" with
        | false =>
          left
          simp only [Option.map_some, Option.bind_some, typedefName?_eq_none hfound,
            typedefName?_eq_none (htypedef.trans hfound)]
        | true =>
          refine .inr ⟨keyword, hlt, isScoped, ⟨?_, htypedef.trans hfound, rfl⟩, henum, hfound, rfl⟩
          rwa [h.has_eq (by omega)]
      · exact .inl rfl

end Agree

/-! ## Forests that grow alike -/

namespace Forest

variable {code code' : Code} {pairing pairing' : Pairing}

/-- The two forests under construction have alike regions, the same of them open. -/
structure Growth.Alike (code code' : Code) (g g' : Growth) : Prop where
  regions : List.Forall₂ (Region.Alike code code') g.regions.toList g'.regions.toList
  pending_eq : g.pending = g'.pending

/-- **One token that the codes agree on keeps the forests alike.** -/
theorem Growth.Alike.step {g g' : Growth} (h : g.Alike code code' g') {n i : Nat}
    (hagree : Agree n code code' pairing pairing')
    (hpaired' : Pairing.ofCode code' = .ok pairing') (hi : i < n) {t : Token}
    (ht : code[i]? = some t) :
    (g.step code pairing i t).Alike code code' (g'.step code' pairing' i t) := by
  have ht' : code'[i]? = some t := (hagree.getElem?_eq hi).symm.trans ht
  have hunnamed := Region.map_unnamed_eq h.regions
  have hregions : g.regions.map Region.unnamed = g'.regions.map Region.unnamed :=
    Array.toList_inj.mp (by simpa using hunnamed)
  have hsize : g.regions.size = g'.regions.size := by simpa using congrArg Array.size hregions
  have hparent :
      (g.pending.head?.bind fun p => g.regions[p]?.map (·.kind)).map RegionKind.unnamed =
        (g'.pending.head?.bind fun p => g'.regions[p]?.map (·.kind)).map RegionKind.unnamed := by
    rw [Option.map_bind, Option.map_bind, h.pending_eq]
    refine Option.bind_congr fun p _ => ?_
    have := congrArg (·[p]?.map Region.kind) hregions
    simpa [Function.comp_def, Region.unnamed] using this
  rw [Growth.step, Growth.step]
  split_ifs with hopen hclose
  · have hmark : code.mark i (Bracket.opener .curly) = true := by
      rw [Code.mark, Code.has, ht, Option.any_some]
      exact Token.opening?_eq_some_iff.mp (beq_iff_eq.mp hopen)
    have hmark' : code'.mark i (Bracket.opener .curly) = true := by
      rwa [← hagree.mark_eq hi]
    obtain ⟨closing, hpartner, -, -⟩ := Pairing.exists_closing hagree.paired .curly hmark
    obtain ⟨closing', hpartner', -, -⟩ := Pairing.exists_closing hpaired' .curly hmark'
    have hlt := (Array.getElem?_eq_some_iff.mp ht).1
    have hlt' := (Array.getElem?_eq_some_iff.mp ht').1
    have hkind := hagree.classify_eq hi (Nat.le_of_lt hlt) (Nat.le_of_lt hlt') hregions hparent
      hpartner hpartner'
    refine ⟨?_, by rw [hsize, h.pending_eq]⟩
    rw [Array.toList_push, Array.toList_push]
    refine List.rel_append h.regions (.cons ⟨hsize, rfl, ?_, ?_⟩ .nil)
    · exact congrArg List.head? h.pending_eq
    · simpa only [hpartner, hpartner', Option.getD_some] using hkind
  · exact ⟨h.regions, congrArg List.tail h.pending_eq⟩
  · exact h

/-- **What the codes agree on grows alike.** -/
theorem growFrom_alike {n : Nat} (hagree : Agree n code code' pairing pairing')
    (hpaired' : Pairing.ofCode code' = .ok pairing') {tokens : List Token} {g g' : Growth} {i : Nat}
    (htokens : code.Holds i tokens)
    (hlength : i + tokens.length ≤ n) (h : g.Alike code code' g') :
    (growFrom code pairing i g tokens).Alike code code' (growFrom code' pairing' i g' tokens) := by
  induction tokens generalizing i g g' with
  | nil => exact h
  | cons t rest ih =>
    rw [List.length_cons] at hlength
    exact ih htokens.tail (by omega) (h.step hagree hpaired' (by omega) htokens.head)

/-- **The regions that open before token `n` are alike** where the codes agree on the first `n`
tokens. -/
theorem filter_alike {n : Nat} (hagree : Agree n code code' pairing pairing')
    (hpaired' : Pairing.ofCode code' = .ok pairing') :
    List.Forall₂ (Region.Alike code code') ((ofCode code pairing).toList.filter (·.opening < n))
      ((ofCode code' pairing').toList.filter (·.opening < n)) := by
  rw [filter_opening_lt, filter_opening_lt, ← hagree.take_eq]
  refine (growFrom_alike hagree hpaired' (.take code n) ?_ ⟨.nil, rfl⟩).regions
  rw [List.length_take]
  omega

end Forest

/-! ## Two buffers that begin alike -/

/-- Places do not matter to what is alike. -/
theorem Region.alike_bare_iff {code code' : Code} {r r' : Region} :
    r.bare.Alike code.bare code'.bare r'.bare ↔ r.Alike code code' r' := by
  have hnamed : ∀ (code : Code) (keyword : Nat) (isScoped : Bool) (r : Region),
      r.bare.kind.NamedBehind code.bare keyword isScoped r.bare.closing ↔
        r.kind.NamedBehind code keyword isScoped r.closing := by
    intro code keyword isScoped r
    rw [RegionKind.NamedBehind, RegionKind.NamedBehind, Code.has_bare, Code.keywordBefore_bare,
      typedefName?_bare]
    rfl
  constructor
  · rintro ⟨hid, hopening, hparent, hkind⟩
    simp only [hnamed] at hkind
    exact ⟨hid, hopening, hparent, hkind⟩
  · rintro ⟨hid, hopening, hparent, hkind⟩
    refine ⟨hid, hopening, hparent, ?_⟩
    simp only [hnamed]
    exact hkind

/-- Two buffers whose code tokens read the same at first have bare codes that agree there. -/
theorem Outline.Valid.agree_bare {o o' : Outline} (h : o.Valid) (h' : o'.Valid) {n : Nat}
    (hreads : (Lexer.reads o.tokens).take n = (Lexer.reads o'.tokens).take n) :
    Agree n o.code.bare o'.code.bare o.pairing o'.pairing := by
  refine .of_paired (Pairing.ofCode_bare_eq_ok h.paired) (Pairing.ofCode_bare_eq_ok h'.paired) ?_
  rw [h.code_eq, h'.code_eq, Code.bare_ofTokens, Code.bare_ofTokens, ← List.map_take,
    ← List.map_take, hreads]

/-- **Classification needs no lookahead.**  If two buffers have outlines and their first `n` code
tokens are the same by class and bytes, then the regions that open at one of these are the same up
to where they end: only a `typedef enum` may be called otherwise, by what stands after its closing
brace. -/
theorem kinds_settled_at_brace {source source' : Bytes} {o o' : Outline}
    (h : Outline.ofSource source = .ok o) (h' : Outline.ofSource source' = .ok o') {n : Nat}
    (hreads : (Lexer.reads o.tokens).take n = (Lexer.reads o'.tokens).take n) :
    List.Forall₂ (Region.Alike o.code o'.code) (o.forest.toList.filter (·.opening < n))
      (o'.forest.toList.filter (·.opening < n)) := by
  have hvalid := (Outline.ofSource_eq_ok_iff_valid.mp h).2
  have hvalid' := (Outline.ofSource_eq_ok_iff_valid.mp h').2
  have hbare := Forest.filter_alike (hvalid.agree_bare hvalid' hreads)
    (Pairing.ofCode_bare_eq_ok hvalid'.paired)
  -- The regions of bare code are those of the code, without places.
  have hregions : ∀ o : Outline, o.Valid →
      ((Forest.ofCode o.code.bare o.pairing).toList.filter (·.opening < n)).map Region.bare =
        (o.forest.toList.filter (·.opening < n)).map Region.bare := by
    intro o ho
    have hforest := congrArg Forest.toList (Forest.ofCode_bare o.code o.pairing)
    rw [Forest.toList_bare, Forest.toList_bare, ← ho.forest_eq] at hforest
    have hfilter := congrArg (List.filter (·.opening < n)) hforest
    rwa [List.filter_map, List.filter_map] at hfilter
  have hplaced : List.Forall₂ (Region.Alike o.code.bare o'.code.bare)
      (((Forest.ofCode o.code.bare o.pairing).toList.filter (·.opening < n)).map Region.bare)
      (((Forest.ofCode o'.code.bare o'.pairing).toList.filter (·.opening < n)).map
        Region.bare) := by
    rw [List.forall₂_map_left_iff, List.forall₂_map_right_iff]
    exact hbare.imp fun r r' hr => ⟨hr.id_eq, hr.opening_eq, hr.parent_eq, hr.kind_eq⟩
  rw [hregions o hvalid, hregions o' hvalid', List.forall₂_map_left_iff,
    List.forall₂_map_right_iff] at hplaced
  exact hplaced.imp fun r r' => Region.alike_bare_iff.mp

/-- A function, a block in it and a `typedef enum`, and only one of the two enums with a name. -/
theorem kinds_settled_at_brace_typedef :
    ∃ o o', Outline.ofSource (utf8 ("void f(int a) \x7bif (a) \x7b\x7d\x7d "
        ++ "typedef enum \x7bA\x7d X;")) = .ok o ∧
      Outline.ofSource (utf8 ("void f(int a) \x7b/* a */if (a) \x7b\x7d\x7d "
        ++ "typedef enum \x7bB, C\x7d;")) = .ok o' ∧
      (Lexer.reads o.tokens).take 17 = (Lexer.reads o'.tokens).take 17 ∧
      o.forest.toList.map (fun r => (r.opening, r.kind)) =
        [(6, .functionBody ⟨"f", ⟨2, 5⟩, false⟩), (11, .plain), (16, .enumBody ⟨"X", false⟩)] ∧
      o'.forest.toList.map (fun r => (r.opening, r.kind)) =
        [(6, .functionBody ⟨"f", ⟨2, 5⟩, false⟩), (11, .plain), (16, .enumBody ⟨none, false⟩)] ∧
      List.Forall₂ (Region.Alike o.code o'.code) (o.forest.toList.filter (·.opening < 17))
        (o'.forest.toList.filter (·.opening < 17)) := by
  obtain ⟨o, h, hkinds⟩ := Outline.exists_ofSource
    (utf8 ("void f(int a) \x7bif (a) \x7b\x7d\x7d " ++ "typedef enum \x7bA\x7d X;"))
    (fun o => o.forest.toList.map fun r => (r.opening, r.kind))
    (a := [(6, .functionBody ⟨"f", ⟨2, 5⟩, false⟩), (11, .plain), (16, .enumBody ⟨"X", false⟩)])
    (by decide +kernel)
  obtain ⟨o', h', hkinds'⟩ := Outline.exists_ofSource
    (utf8 ("void f(int a) \x7b/* a */if (a) \x7b\x7d\x7d " ++ "typedef enum \x7bB, C\x7d;"))
    (fun o => o.forest.toList.map fun r => (r.opening, r.kind))
    (a := [(6, .functionBody ⟨"f", ⟨2, 5⟩, false⟩), (11, .plain), (16, .enumBody ⟨none, false⟩)])
    (by decide +kernel)
  have hreads : (Outline.ofSource (utf8 ("void f(int a) \x7bif (a) \x7b\x7d\x7d "
        ++ "typedef enum \x7bA\x7d X;"))).toOption.map (fun o => (Lexer.reads o.tokens).take 17) =
      (Outline.ofSource (utf8 ("void f(int a) \x7b/* a */if (a) \x7b\x7d\x7d "
        ++ "typedef enum \x7bB, C\x7d;"))).toOption.map
          (fun o => (Lexer.reads o.tokens).take 17) := by decide +kernel
  rw [h, h'] at hreads
  have hsame := Option.some.inj hreads
  exact ⟨o, o', h, h', hsame, hkinds, hkinds', kinds_settled_at_brace h h' hsame⟩

end Quell
