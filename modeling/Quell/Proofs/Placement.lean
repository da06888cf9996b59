import Mathlib.Data.List.Basic
import Mathlib.Logic.Relation
import Quell.Proofs.Heading

/-!
# Proofs/Placement — where the heads of functions and their handlers stand

The head of a function is found backwards from its brace, token by token and from each closing
bracket to its partner.  Such a walk stays in every block that is open at the brace
(`Code.Stays`, kept by every step of the scan), so the parameter list stands in the region around
the body.

A handler is found from the brace before its `catch`.  So the handlers of a function are a row of
`catch` clauses that starts where its body ends (`CatchClause`), and they share its parent.
-/

namespace Quell

open Declaration

/-! ## Walks that stay in their blocks -/

/-- **Every block that is open at `k` is open at `j`**, which is not after `k`. -/
def Code.Stays (code : Code) (pairing : Pairing) (j k : Nat) : Prop :=
  j ≤ k ∧ ∀ brace closing, code.mark brace "\x7b" = true → pairing.partner brace = some closing →
    brace < k → k ≤ closing → brace < j

namespace Code.Stays

variable {code : Code} {pairing : Pairing} {i j k : Nat}

theorem refl (k : Nat) : code.Stays pairing k k := ⟨Nat.le_refl k, fun _ _ _ _ hlt _ => hlt⟩

theorem trans (hij : code.Stays pairing i j) (hjk : code.Stays pairing j k) :
    code.Stays pairing i k := by
  refine ⟨Nat.le_trans hij.1 hjk.1, fun brace closing hbrace hpartner hlt hle => ?_⟩
  exact hij.2 brace closing hbrace hpartner (hjk.2 brace closing hbrace hpartner hlt hle)
    (Nat.le_trans hjk.1 hle)

/-- A way without a break stays in its region. -/
theorem of_unbroken (hle : j ≤ k) (h : code.Unbroken j k) : code.Stays pairing j k := by
  refine ⟨hle, fun brace closing hbrace _ hlt _ => ?_⟩
  by_contra hge
  have hend := h brace (Nat.le_of_not_lt hge) hlt
  have hmark : code.has brace endsStatement = true :=
    Code.has_isMarkIn_iff.mpr ⟨"\x7b", by decide, hbrace⟩
  exact Bool.false_ne_true (hend.symm.trans hmark)

/-- A token that is no opening brace is passed. -/
theorem back {test : Token → Bool} (h : code.hasBefore k test = true)
    (htest : ∀ start, test ⟨.punctuation, utf8 "\x7b", start⟩ = false) :
    code.Stays pairing (k - 1) k := by
  obtain ⟨hpos, h⟩ := Code.hasBefore_iff.mp h
  refine ⟨Nat.sub_le k 1, fun brace closing hbrace _ hlt _ => ?_⟩
  refine Nat.lt_of_le_of_ne (by omega) fun hsame => ?_
  subst hsame
  obtain ⟨t, ht, hpasses⟩ := (Option.any_eq_true _ _).mp h
  obtain ⟨u, hu, hmark⟩ := (Option.any_eq_true _ _).mp hbrace
  rw [ht] at hu
  cases hu
  obtain ⟨kind, text, start⟩ := t
  obtain ⟨rfl, rfl⟩ := Token.isMark_iff.mp hmark
  exact Bool.false_ne_true ((htest start).symm.trans hpasses)

/-- **A bracketed group is passed as a whole.** -/
theorem group (hpaired : Pairing.ofCode code = .ok pairing) (shape : Bracket)
    (hclose : code.markBefore k shape.closer = true) (hpartner : pairing.partner (k - 1) = some j) :
    j + 1 < k ∧ code.Stays pairing j k := by
  obtain ⟨hpos, hclose⟩ := Code.hasBefore_iff.mp hclose
  obtain ⟨j', hpartner', hlt, -⟩ := Pairing.exists_opening hpaired shape hclose
  rw [hpartner] at hpartner'
  cases hpartner'
  refine ⟨by omega, by omega, fun brace closing hbrace hbraces hbk hkc => ?_⟩
  have hne : brace ≠ k - 1 :=
    Code.ne_of_mark hbrace hclose (by cases shape <;> decide)
  exact ((Pairing.partnered_of_ofCode hpaired).uncrossed _ _ _ _ hbraces hpartner (by omega)
    (by omega)).1

end Code.Stays

/-! ## From the body back to the parameter list -/

namespace Declaration

variable {code : Code} {pairing : Pairing}

/-- A run starts at its end or before. -/
theorem runStart_le (limit : Nat) (test : Token → Bool) (k : Nat) :
    code.runStart limit test k ≤ k := by
  induction k with
  | zero => exact Nat.le_refl 0
  | succ k ih =>
    rw [Code.runStart]
    split_ifs
    · exact Nat.le_succ_of_le ih
    · exact Nat.le_refl _

/-- A run of tokens that are no brace stays in its region. -/
theorem stays_runStart {test : Token → Bool}
    (htest : ∀ start, test ⟨.punctuation, utf8 "\x7b", start⟩ = false) (limit k : Nat) :
    code.Stays pairing (code.runStart limit test k) k := by
  induction k with
  | zero => exact .refl 0
  | succ k ih =>
    rw [Code.runStart]
    split_ifs with hrun
    · rw [Bool.and_eq_true] at hrun
      exact ih.trans (.back (k := k + 1) hrun.2 htest)
    · exact .refl _

/-- A trailing return type is passed. -/
theorem stays_skipReturnType (stop : Nat) :
    code.Stays pairing (skipReturnType code stop) stop := by
  have hrun : code.Stays pairing (code.runStart (stop - lookback) isReturnWord stop) stop :=
    stays_runStart (fun _ => rfl) _ _
  rw [skipReturnType]
  split_ifs with harrow
  · rw [Bool.and_eq_true] at harrow
    exact (Code.Stays.back harrow.2 fun _ => rfl).trans hrun
  · exact .refl stop

/-- The arguments of an initializer end with a bracket. -/
theorem exists_argumentCloser {k : Nat} (h : code.hasBefore k (·.isMarkIn [")", "\x7d"]) = true) :
    ∃ shape : Bracket, code.markBefore k shape.closer = true := by
  obtain ⟨hpos, h⟩ := Code.hasBefore_iff.mp h
  obtain ⟨word, hword, hmark⟩ := Code.has_isMarkIn_iff.mp h
  rcases List.mem_pair.mp hword with rfl | rfl
  · exact ⟨.round, Code.hasBefore_iff.mpr ⟨hpos, hmark⟩⟩
  · exact ⟨.curly, Code.hasBefore_iff.mpr ⟨hpos, hmark⟩⟩

/-- Start of the constructor initializer `a(x)` or `b{y}` that ends before `k`. -/
def initializerStart? (code : Code) (pairing : Pairing) (k : Nat) : Option Nat :=
  if code.hasBefore k (·.isMarkIn [")", "\x7d"]) then
    (pairing.partner (k - 1)).bind fun opening =>
      (angleStart? code opening).bind fun n =>
        if code.nameBefore n then some (chainStart code 0 (n - 1)) else none
  else none

/-- The initializers are passed one by one, up to the `:` before the first. -/
theorem initializerColon?_succ (fuel k : Nat) :
    initializerColon? code pairing (fuel + 1) k = (initializerStart? code pairing k).bind
      fun start =>
        if code.markBefore start "," then initializerColon? code pairing fuel (start - 1)
        else if code.markBefore start ":" then some (start - 1)
        else none := by
  rw [initializerColon?, initializerStart?]
  cases code.hasBefore k (·.isMarkIn [")", "\x7d"]) with
  | false => rfl
  | true =>
    simp only [Bool.not_true, Bool.false_eq_true, if_false, if_true, Option.bind_assoc]
    refine Option.bind_congr fun opening _ => Option.bind_congr fun n _ => ?_
    cases code.nameBefore n <;> rfl

section

variable (hpaired : Pairing.ofCode code = .ok pairing)

include hpaired

/-- The argument of a specifier and what it belongs to, or an attribute, is passed. -/
theorem stays_specifierStart? {j start : Nat} (h : specifierStart? code pairing j = some start) :
    start < j ∧ code.Stays pairing start j := by
  rw [specifierStart?] at h
  split_ifs at h with hround hsquare
  · split at h
    · rename_i opening hpartner
      obtain ⟨hlt, hgroup⟩ := Code.Stays.group hpaired .round hround hpartner
      split_ifs at h with hword
      cases h
      refine ⟨by omega, .trans (.back hword fun _ => ?_) hgroup⟩
      rfl
    · cases h
  · split at h
    · rename_i opening hpartner
      obtain ⟨hlt, hgroup⟩ := Code.Stays.group hpaired .square hsquare hpartner
      split_ifs at h
      cases h
      exact ⟨by omega, hgroup⟩
    · cases h

/-- The way back over qualifiers stays in its region. -/
theorem stays_skipQualifiers (fuel j : Nat) :
    code.Stays pairing (skipQualifiers code pairing fuel j) j := by
  induction fuel generalizing j with
  | zero => exact .refl j
  | succ fuel ih =>
    rw [skipQualifiers]
    split_ifs with hword hmacro
    · exact (ih _).trans (.back hword fun _ => rfl)
    · rw [Bool.and_eq_true] at hmacro
      exact (ih _).trans (.back hmacro.1 fun _ => rfl)
    · split
      · rename_i start hstart
        exact (ih _).trans (stays_specifierStart? hpaired hstart).2
      · exact .refl j

/-- **The trailer of a function is passed.** -/
theorem stays_skipTrailer (stop : Nat) :
    code.Stays pairing (skipTrailer code pairing stop) stop :=
  (stays_skipQualifiers hpaired _ _).trans (stays_skipReturnType stop)

/-- **An initializer is passed**: its arguments, in parentheses or braces, and its name. -/
theorem stays_initializerStart? {k start : Nat}
    (h : initializerStart? code pairing k = some start) :
    start < k ∧ code.Stays pairing start k := by
  rw [initializerStart?] at h
  split_ifs at h with hclose
  obtain ⟨opening, hpartner, h⟩ := Option.bind_eq_some_iff.mp h
  obtain ⟨n, hn, h⟩ := Option.bind_eq_some_iff.mp h
  split_ifs at h with hname
  cases h
  obtain ⟨shape, hshape⟩ := exists_argumentCloser hclose
  obtain ⟨hlt, hgroup⟩ := Code.Stays.group hpaired shape hshape hpartner
  obtain ⟨hangle, hangles⟩ := unbroken_of_angleStart? hn
  have hle := chainStart_le code 0 (n - 1)
  have hchain : code.Stays pairing (chainStart code 0 (n - 1)) (n - 1) :=
    .of_unbroken hle (unbroken_chainStart code 0 (n - 1))
  exact ⟨by omega, hchain.trans ((Code.Stays.back hname fun _ => rfl).trans
    ((Code.Stays.of_unbroken hangle hangles).trans hgroup))⟩

/-- **The constructor initializers are passed**, their braces as groups. -/
theorem stays_initializerColon? {fuel k colon : Nat}
    (h : initializerColon? code pairing fuel k = some colon) :
    colon < k ∧ code.Stays pairing colon k := by
  induction fuel generalizing k with
  | zero => cases h
  | succ fuel ih =>
    rw [initializerColon?_succ] at h
    obtain ⟨start, hstart, h⟩ := Option.bind_eq_some_iff.mp h
    obtain ⟨hlt, hmember⟩ := stays_initializerStart? hpaired hstart
    split_ifs at h with hcomma hcolon
    · obtain ⟨hbefore, hrest⟩ := ih h
      exact ⟨by omega, hrest.trans ((Code.Stays.back hcomma fun _ => rfl).trans hmember)⟩
    · cases h
      exact ⟨by omega, (Code.Stays.back hcolon fun _ => rfl).trans hmember⟩

/-- The parameter list of a head is a group in parentheses before the end of its trailer. -/
theorem params_of_headBefore? {inClass isTry : Bool} {stop : Nat} {head : FunctionHead}
    (h : headBefore? code pairing inClass isTry stop = some head) :
    code.mark head.params.opening "(" = true ∧
      pairing.partner head.params.opening = some head.params.closing ∧
      head.params.closing < stop ∧ code.Stays pairing head.params.opening stop := by
  rw [headBefore?] at h
  split_ifs at h with hclose
  rw [Bool.not_eq_true', Bool.not_eq_false] at hclose
  obtain ⟨opening, hpartner, h⟩ := Option.bind_eq_some_iff.mp h
  obtain ⟨name, -, rfl⟩ := Option.map_eq_some_iff.mp h
  have htrailer := stays_skipTrailer hpaired stop
  obtain ⟨hpos, hmark⟩ := Code.hasBefore_iff.mp hclose
  obtain ⟨opening', hpartner', -, hopen⟩ := Pairing.exists_opening hpaired .round hmark
  rw [hpartner] at hpartner'
  cases hpartner'
  have hle := htrailer.1
  have hbefore : skipTrailer code pairing stop - 1 < stop := by omega
  exact ⟨hopen, (Pairing.partnered_of_ofCode hpaired).symm _ _ hpartner, hbefore,
    (Code.Stays.group hpaired .round hclose hpartner).2.trans htrailer⟩

/-- **The parameter list of a function stands before its body**, in every block that is open
there. -/
theorem params_of_functionHead? {inClass : Bool} {brace : Nat} {head : FunctionHead}
    (h : functionHead? code pairing brace inClass = some head) :
    code.mark head.params.opening "(" = true ∧
      pairing.partner head.params.opening = some head.params.closing ∧
      head.params.closing < brace ∧ code.Stays pairing head.params.opening brace := by
  rw [functionHead?] at h
  have htry : code.Stays pairing (if code.keywordBefore brace "try" then brace - 1 else brace)
      brace := by
    split_ifs with htry
    · exact .back htry fun _ => rfl
    · exact .refl brace
  generalize (if code.keywordBefore brace "try" then brace - 1 else brace) = stop at h htry
  have hstop := htry.1
  split at h
  · rename_i found hfound
    cases h
    obtain ⟨colon, hcolon, hhead⟩ := Option.bind_eq_some_iff.mp hfound
    obtain ⟨hlt, hinit⟩ := stays_initializerColon? hpaired hcolon
    obtain ⟨hopen, hpartner, hclosing, hstays⟩ := params_of_headBefore? hpaired hhead
    exact ⟨hopen, hpartner, by omega, hstays.trans (hinit.trans htry)⟩
  · obtain ⟨hopen, hpartner, hclosing, hstays⟩ := params_of_headBefore? hpaired h
    exact ⟨hopen, hpartner, by omega, hstays.trans htry⟩

end

end Declaration

namespace Outline.Valid

variable {o : Outline} (h : o.Valid) {r q : Region}

include h

theorem partner_opening (hr : r ∈ o.forest.toList) :
    o.pairing.partner r.opening = some r.closing :=
  (Pairing.partner_eq_some_iff h.paired).mpr (.inl (h.matched hr))

/-- What stays in its blocks stays in the regions. -/
theorem lt_of_stays {j k : Nat} (hstays : o.code.Stays o.pairing j k) (hq : q ∈ o.forest.toList)
    (hopening : q.opening < k) (hclosing : k ≤ q.closing) : q.opening < j :=
  hstays.2 _ _ (h.mark_opening hq) (h.partner_opening hq) hopening hclosing

/-- **The parent of a function body admits definitions and opens before the parameter list.** -/
theorem parent_of_function (hr : r ∈ o.forest.toList) {head : FunctionHead}
    (hkind : r.kind = .functionBody head) {p : Nat} (hp : r.parent = some p) :
    ∃ q, o.forest.get? p = some q ∧ q.opening < head.params.opening ∧
      q.kind.admitsDefinitions = true := by
  obtain ⟨hparent, inClass, hhead⟩ :=
    Region.functionHead?_of_classify ((h.classified hr).symm.trans hkind)
  obtain ⟨-, -, -, hstays⟩ := params_of_functionHead? h.paired hhead
  obtain ⟨q, hq, -, hget, hencloses, -⟩ := h.exists_parent hr hp
  have hlt := (h.matched hr).1
  refine ⟨q, hget, h.lt_of_stays hstays hq hencloses.1 (by have := hencloses.2; omega), ?_⟩
  have hregion : o.forest.regions[p]? = some q := hget
  rwa [hp, Option.bind_some, hregion, Option.map_some, Option.all_some] at hparent

end Outline.Valid

/-! ## The row of handlers -/

/-- **`catch ( … )`** from token `a` up to `b`. -/
def CatchHead (code : Code) (pairing : Pairing) (a b : Nat) : Prop :=
  code.has a (·.isKeyword "catch") = true ∧ code.mark (a + 1) "(" = true ∧
    ∃ closing, pairing.partner (a + 1) = some closing ∧ b = closing + 1

/-- **`catch ( … ) \x7b … \x7d`** from token `a` up to `b`. -/
def CatchClause (code : Code) (pairing : Pairing) (a b : Nat) : Prop :=
  ∃ brace, CatchHead code pairing a brace ∧ code.mark brace "\x7b" = true ∧
    ∃ closing, pairing.partner brace = some closing ∧ b = closing + 1

namespace Outline.Valid

variable {o : Outline} (h : o.Valid) {r q : Region}

include h

/-- A `catch` after a block goes with it: the two have one parent. -/
theorem parent_eq_of_catchHead (hq : q ∈ o.forest.toList) (hr : r ∈ o.forest.toList)
    (hcatch : CatchHead o.code o.pairing (q.closing + 1) r.opening) : q.parent = r.parent := by
  obtain ⟨hkeyword, hopen, closing, hpartner, hopening⟩ := hcatch
  have hback := h.partnered.symm _ _ hpartner
  obtain ⟨closing', hpartner', hlt, hclose⟩ := h.exists_closing .round hopen
  rw [hpartner] at hpartner'
  cases hpartner'
  have hqlt := (h.matched hq).1
  have hrlt := (h.matched hr).1
  refine h.parent_congr hq hr fun l hl => ⟨fun hencloses => ?_, fun hencloses => ?_⟩
  · -- No region closes in `catch ( … )` that does not open there.
    have hbrace := h.mark_closing hl
    have hllt := (h.matched hl).1
    have hone : l.closing ≠ q.closing + 1 := by
      rintro hsame
      obtain ⟨t, ht, hword⟩ := (Option.any_eq_true _ _).mp hkeyword
      obtain ⟨u, hu, hmark⟩ := (Option.any_eq_true _ _).mp hbrace
      rw [hsame, ht] at hu
      cases hu
      rw [Token.isKeyword, (Token.isMark_iff.mp hmark).1] at hword
      exact absurd hword (by simp)
    have htwo : l.closing ≠ q.closing + 1 + 1 := Code.ne_of_mark hbrace hopen (by decide)
    have hlast : l.closing ≠ closing := Code.ne_of_mark hbrace hclose (by decide)
    have hbody : l.closing ≠ r.opening :=
      Code.ne_of_mark hbrace (h.mark_opening hr) (by decide)
    obtain ⟨hopens, hcloses⟩ := hencloses
    refine h.encloses hl hr (by omega) (Nat.lt_of_not_le fun hle => ?_)
    have := (h.partnered.uncrossed _ _ _ _ hpartner
      (h.partnered.symm _ _ (h.partner_opening hl)) (by omega) (by omega)).1
    omega
  · have hgroup : o.code.Stays o.pairing (q.closing + 1 + 1) r.opening := by
      rw [hopening]
      exact (Code.Stays.group h.paired .round (k := closing + 1) hclose hback).2
    have hword : o.code.Stays o.pairing (q.closing + 1) (q.closing + 1 + 1) :=
      .back (k := q.closing + 1 + 1) hkeyword fun _ => rfl
    have hblock : o.code.Stays o.pairing q.opening (q.closing + 1) :=
      (Code.Stays.group h.paired .curly (k := q.closing + 1) (h.mark_closing hq)
        (h.partnered.symm _ _ (h.partner_opening hq))).2
    obtain ⟨hopens, hcloses⟩ := hencloses
    have := h.lt_of_stays (hblock.trans (hword.trans hgroup)) hl hopens (by omega)
    exact h.encloses hl hq this (by omega)

/-- **A handler belongs to the block before its `catch`**: to the function whose `try` body it is,
or to the same function as the handler it is. -/
theorem exists_before_handler (hr : r ∈ o.forest.toList) {owner : Nat}
    (hkind : r.kind = .handler owner) :
    ∃ q ∈ o.forest.toList, q.id < r.id ∧ CatchHead o.code o.pairing (q.closing + 1) r.opening ∧
      ((∃ head, q.kind = .functionBody head ∧ head.isTry = true ∧ q.id = owner) ∨
        q.kind = .handler owner) := by
  obtain ⟨opening, hclose, hpartner, hcatch, hbrace, howner⟩ :=
    Region.tryOwner?_of_classify ((h.classified hr).symm.trans hkind)
  obtain ⟨hpos, hclose⟩ := Code.hasBefore_iff.mp hclose
  obtain ⟨hcatchPos, hcatch⟩ := Code.hasBefore_iff.mp hcatch
  obtain ⟨hbracePos, hbrace⟩ := Code.hasBefore_iff.mp hbrace
  obtain ⟨opening', hpartner', -, hopen⟩ := h.exists_opening .round hclose
  rw [hpartner] at hpartner'
  cases hpartner'
  obtain ⟨q, hbefore, hblock, hfunction⟩ := Region.tryOwner?_eq_some howner
  -- The region found is one before `r`, and it closes just before `catch`.
  obtain ⟨k, hk⟩ := Array.getElem?_of_mem hbefore
  obtain ⟨hkr, hk⟩ : k < r.id ∧ o.forest.get? k = some q := by
    rw [Array.getElem?_extract] at hk
    split_ifs at hk with hlt
    rw [Nat.zero_add] at hk
    exact ⟨by omega, hk⟩
  have hq := Forest.mem_of_get? hk
  obtain rfl := h.numbered.id_eq k q hk
  have hclosing : q.closing = opening - 2 :=
    Option.some.inj ((h.partner_opening hq).symm.trans (h.partnered.symm _ _ hblock))
  refine ⟨q, hq, hkr, ?_, hfunction⟩
  rw [CatchHead, show q.closing + 1 = opening - 1 by omega, Nat.sub_add_cancel hcatchPos]
  exact ⟨hcatch, hopen, r.opening - 1, h.partnered.symm _ _ hpartner, by omega⟩

/-- **A handler stands in the row of `catch` clauses after the `try` body of its function.** -/
theorem exists_function_of_handler (hr : r ∈ o.forest.toList) {owner : Nat}
    (hkind : r.kind = .handler owner) :
    owner < r.id ∧ ∃ f head, o.forest.get? owner = some f ∧ f.kind = .functionBody head ∧
      head.isTry = true ∧ f.parent = r.parent ∧
      ∃ b, Relation.ReflTransGen (CatchClause o.code o.pairing) (f.closing + 1) b ∧
        CatchHead o.code o.pairing b r.opening := by
  induction hn : r.id using Nat.strongRecOn generalizing r with
  | _ n ih =>
    subst hn
    obtain ⟨q, hq, hlt, hcatch, ⟨head, hfunction, htry, rfl⟩ | hhandler⟩ :=
      h.exists_before_handler hr hkind
    · exact ⟨hlt, q, head, h.get?_id hq, hfunction, htry, h.parent_eq_of_catchHead hq hr hcatch,
        q.closing + 1, .refl, hcatch⟩
    · obtain ⟨howner, f, head, hf, hfunction, htry, hparent, b, hrow, hbefore⟩ :=
        ih q.id hlt hq hhandler rfl
      exact ⟨Nat.lt_trans howner hlt, f, head, hf, hfunction, htry,
        hparent.trans (h.parent_eq_of_catchHead hq hr hcatch), q.closing + 1,
        hrow.tail ⟨q.opening, hbefore, h.mark_opening hq, q.closing, h.partner_opening hq, rfl⟩,
        hcatch⟩

end Outline.Valid

/-! ## The placement -/

/-- Functions may stand in namespaces, classes and linkage blocks. -/
theorem RegionKind.admitsDefinitions_iff {kind : RegionKind} : kind.admitsDefinitions = true ↔
    (∃ name, kind = .namespaceBody name) ∨ (∃ name, kind = .classBody name) ∨
      kind = .linkage := by
  cases kind <;> simp [admitsDefinitions]

/-- **Where the heads of functions and the handlers of a file stand.** -/
structure Outline.HeadsPlaced (o : Outline) : Prop where
  /-- The parameter list is a group in parentheses before the body. -/
  params : ∀ r ∈ o.forest.toList, ∀ head, r.kind = .functionBody head →
    o.code.mark head.params.opening "(" = true ∧
      o.pairing.partner head.params.opening = some head.params.closing ∧
      head.params.closing < r.opening
  /-- What a function body lies in is a namespace, class or linkage block around the parameter list
  too. -/
  parent : ∀ r ∈ o.forest.toList, ∀ head, r.kind = .functionBody head →
    ∀ p, r.parent = some p → ∃ q, o.forest.get? p = some q ∧ q.opening < head.params.opening ∧
      ((∃ name, q.kind = .namespaceBody name) ∨ (∃ name, q.kind = .classBody name) ∨
        q.kind = .linkage)
  /-- A handler follows the `try` body of its function in the same parent, with nothing but `catch`
  clauses between the two. -/
  handlers : ∀ r ∈ o.forest.toList, ∀ owner, r.kind = .handler owner →
    owner < r.id ∧ ∃ f head, o.forest.get? owner = some f ∧ f.kind = .functionBody head ∧
      head.isTry = true ∧ f.parent = r.parent ∧
      ∃ b, Relation.ReflTransGen (CatchClause o.code o.pairing) (f.closing + 1) b ∧
        CatchHead o.code o.pairing b r.opening

/-- **Heads and handlers are placed**, in every buffer that has an outline. -/
theorem heads_placed {source : Bytes} {o : Outline} (h : Outline.ofSource source = .ok o) :
    o.HeadsPlaced := by
  have hvalid := (Outline.ofSource_eq_ok_iff_valid.mp h).2
  refine ⟨fun r hr head hkind => ?_, fun r hr head hkind p hp => ?_,
    fun r hr owner => hvalid.exists_function_of_handler hr⟩
  · obtain ⟨-, inClass, hhead⟩ :=
      Region.functionHead?_of_classify ((hvalid.classified hr).symm.trans hkind)
    obtain ⟨hopen, hpartner, hlt, -⟩ := params_of_functionHead? hvalid.paired hhead
    exact ⟨hopen, hpartner, hlt⟩
  · obtain ⟨q, hq, hlt, hadmits⟩ := hvalid.parent_of_function hr hkind hp
    exact ⟨q, hq, hlt, RegionKind.admitsDefinitions_iff.mp hadmits⟩

/-- A constructor with initializers in braces and parentheses, and a member with a trailer and two
handlers. -/
theorem heads_placed_members :
    ∃ o, Outline.ofSource (utf8 ("namespace n \x7bstruct S \x7bS(int a) : b\x7ba\x7d, c<int>(a) "
        ++ "\x7b\x7d auto f(int (*p)(int)) const noexcept(true) -> A<B> try \x7b\x7d "
        ++ "catch (int) \x7b\x7d catch (...) \x7b\x7d\x7d;\x7d")) = .ok o ∧
      o.forest.toList.map (fun r => (r.kind, r.opening, r.closing, r.parent)) =
        [(.namespaceBody "n", 2, 65, none), (.classBody "S", 5, 63, some 0),
          (.plain, 13, 15, some 1), (.functionBody ⟨"S", ⟨7, 10⟩, false⟩, 24, 25, some 1),
          (.functionBody ⟨"f", ⟨28, 37⟩, true⟩, 49, 50, some 1), (.handler 4, 55, 56, some 1),
          (.handler 4, 61, 62, some 1)] ∧
      o.HeadsPlaced := by
  obtain ⟨o, h, hregions⟩ := Outline.exists_ofSource
    (utf8 ("namespace n \x7bstruct S \x7bS(int a) : b\x7ba\x7d, c<int>(a) "
        ++ "\x7b\x7d auto f(int (*p)(int)) const noexcept(true) -> A<B> try \x7b\x7d "
        ++ "catch (int) \x7b\x7d catch (...) \x7b\x7d\x7d;\x7d"))
    (fun o => o.forest.toList.map fun r => (r.kind, r.opening, r.closing, r.parent))
    (a := [(.namespaceBody "n", 2, 65, none), (.classBody "S", 5, 63, some 0),
      (.plain, 13, 15, some 1), (.functionBody ⟨"S", ⟨7, 10⟩, false⟩, 24, 25, some 1),
      (.functionBody ⟨"f", ⟨28, 37⟩, true⟩, 49, 50, some 1), (.handler 4, 55, 56, some 1),
      (.handler 4, 61, 62, some 1)]) (by decide +kernel)
  exact ⟨o, h, hregions, heads_placed h⟩

end Quell
