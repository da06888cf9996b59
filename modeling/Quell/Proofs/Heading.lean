import Quell.Proofs.Kinds
import Quell.Proofs.Planning
import Quell.Proofs.Spelling

/-!
# Proofs/Heading — the name of a function and the statement it stands in

The name is read backwards from its parameter list: the unqualified name first, then one qualifier
after the other.  Template brackets and qualifiers never pass a `;` or a brace
(`Code.Unbroken`, kept by every step of the scan), but the look-back for `operator` counts tokens
and nothing else.  So the name stays in its statement unless that keyword stands in an earlier one
(`unbroken_name_iff`).
-/

namespace Quell

open Declaration

/-! ## Runs inside one statement -/

/-- **No token from `a` up to `b` ends a statement** or bounds a block. -/
def Code.Unbroken (code : Code) (a b : Nat) : Prop :=
  ∀ k, a ≤ k → k < b → code.has k endsStatement = false

namespace Code

variable {code : Code} {a b c i : Nat}

/-- A mark that is neither `;` nor a brace ends no statement. -/
theorem not_endsStatement_of_mark {word : String} (h : code.mark i word = true)
    (hword : ∀ other ∈ [";", "\x7b", "\x7d"], utf8 word ≠ utf8 other) :
    code.has i endsStatement = false := by
  obtain ⟨t, ht, hmark⟩ := (Option.any_eq_true _ _).mp h
  rw [has, ht, Option.any_some, ← Bool.not_eq_true, endsStatement, Token.isMarkIn_iff]
  rintro ⟨other, hother, hspells⟩
  rw [Token.isMark_eq_false hmark (hword other hother)] at hspells
  exact Bool.false_ne_true hspells

theorem not_endsStatement_of_nameAt (h : code.nameAt i = true) :
    code.has i endsStatement = false :=
  has_isMarkIn_of_nameAt h _

theorem not_endsStatement_of_isKeyword {word : String} (h : code.has i (·.isKeyword word) = true) :
    code.has i endsStatement = false := by
  obtain ⟨t, ht, hkeyword⟩ := (Option.any_eq_true _ _).mp h
  rw [has, ht, Option.any_some, ← Bool.not_eq_true, endsStatement, Token.isMarkIn_iff]
  rintro ⟨other, -, hmark⟩
  rw [Token.isKeyword, (Token.isMark_iff.mp hmark).1] at hkeyword
  exact absurd hkeyword (by simp)

namespace Unbroken

theorem refl (a : Nat) : code.Unbroken a a := fun _ hak hka => absurd hka (Nat.not_lt.mpr hak)

/-- A way without a break goes on over another. -/
theorem trans (hab : code.Unbroken a b) (hbc : code.Unbroken b c) : code.Unbroken a c :=
  fun k hak hkc => (Nat.lt_or_ge k b).elim (hab k hak) fun hbk => hbc k hbk hkc

/-- A token that ends no statement may be put before a way without a break. -/
theorem cons (h : code.has a endsStatement = false) (hrest : code.Unbroken (a + 1) b) :
    code.Unbroken a b := by
  intro k hak hkb
  rcases Nat.eq_or_lt_of_le hak with rfl | hak
  · exact h
  · exact hrest k hak hkb

theorem snoc (h : code.Unbroken a b) (hlast : code.has b endsStatement = false) :
    code.Unbroken a (b + 1) := by
  intro k hak hkb
  rcases Nat.lt_succ_iff_lt_or_eq.mp hkb with hkb | rfl
  · exact h k hak hkb
  · exact hlast

end Unbroken

end Code

namespace Declaration

variable {code : Code}

/-! ## Template brackets and qualifiers -/

/-- The search for an open angle bracket breaks no statement. -/
theorem unbroken_of_angleFrom? {floor i : Nat} {depth : Int} {lt : Nat}
    (h : angleFrom? code floor i depth = some lt) : lt < i ∧ code.Unbroken lt i := by
  induction i generalizing depth with
  | zero => cases h
  | succ i ih =>
    -- Whatever the scan passes at `i` ends no statement; the rest is the run below.
    have hpass {depth' : Int} (hrest : angleFrom? code floor i depth' = some lt)
        (hi : code.has i endsStatement = false) : lt < i + 1 ∧ code.Unbroken lt (i + 1) :=
      ⟨Nat.lt_succ_of_lt (ih hrest).1, (ih hrest).2.snoc hi⟩
    rw [angleFrom?] at h
    split_ifs at h with hfloor hgt hlt hdepth hend
    · exact hpass h (Code.not_endsStatement_of_mark hgt (by decide))
    · cases h
      exact ⟨Nat.lt_succ_self lt,
        (Code.Unbroken.refl lt).snoc (Code.not_endsStatement_of_mark hlt (by decide))⟩
    · exact hpass h (Code.not_endsStatement_of_mark hlt (by decide))
    · exact hpass h (Bool.not_eq_true _ ▸ hend)

/-- Template brackets lie in one statement. -/
theorem unbroken_of_angleOpening? {gt lt : Nat} (h : angleOpening? code gt = some lt) :
    lt < gt + 1 ∧ code.Unbroken lt (gt + 1) :=
  unbroken_of_angleFrom? h

/-- Where the template arguments that end before `k` begin; `k` itself if there are none. -/
def angleStart? (code : Code) (k : Nat) : Option Nat :=
  if code.markBefore k ">" then angleOpening? code (k - 1) else some k

theorem unbroken_of_angleStart? {k start : Nat} (h : angleStart? code k = some start) :
    start ≤ k ∧ code.Unbroken start k := by
  rw [angleStart?] at h
  split_ifs at h with hgt
  · obtain ⟨hpos, -⟩ := Code.hasBefore_iff.mp hgt
    obtain ⟨hlt, hrun⟩ := unbroken_of_angleOpening? h
    rw [Nat.sub_add_cancel hpos] at hlt hrun
    exact ⟨Nat.le_of_lt hlt, hrun⟩
  · cases h
    exact ⟨Nat.le_refl k, .refl k⟩

/-- One step out of the qualification stays in the statement. -/
theorem unbroken_of_qualifierStart? {start outer : Nat}
    (h : qualifierStart? code start = some outer) : outer < start ∧ code.Unbroken outer start := by
  rw [qualifierStart?] at h
  split_ifs at h with hcolons hname hgt
  all_goals
    rw [Bool.and_eq_true, decide_eq_true_eq] at hcolons
    obtain ⟨s, rfl⟩ : ∃ s, start = s + 2 := ⟨start - 2, by omega⟩
    have hlast := Code.not_endsStatement_of_mark (Code.hasBefore_iff.mp hcolons.2).2 (by decide)
  · cases h
    exact ⟨by omega, ((Code.Unbroken.refl _).snoc (Code.not_endsStatement_of_nameAt hname)).snoc
      hlast⟩
  · split at h
    · rename_i lt hangle
      obtain ⟨hlt, hrun⟩ := unbroken_of_angleOpening? hangle
      split_ifs at h with hbefore
      obtain ⟨hpos, hbefore⟩ := Code.hasBefore_iff.mp hbefore
      obtain ⟨k, rfl⟩ : ∃ k, lt = k + 1 := ⟨lt - 1, by omega⟩
      cases h
      exact ⟨by simp only [Nat.add_sub_cancel] at hlt ⊢; omega,
        .cons (Code.not_endsStatement_of_nameAt hbefore) (hrun.snoc hlast)⟩
    · cases h

/-- The whole qualification stays in the statement. -/
theorem unbroken_qualifiedStart (fuel start : Nat) (qualified : Bool) :
    (qualifiedStart code fuel start qualified).1 ≤ start ∧
      code.Unbroken (qualifiedStart code fuel start qualified).1 start := by
  induction fuel generalizing start qualified with
  | zero => exact ⟨Nat.le_refl start, .refl start⟩
  | succ fuel ih =>
    rw [qualifiedStart]
    split
    · rename_i outer houter
      obtain ⟨hlt, hstep⟩ := unbroken_of_qualifierStart? houter
      exact ⟨Nat.le_trans (ih outer true).1 (Nat.le_of_lt hlt), (ih outer true).2.trans hstep⟩
    · split_ifs with hcolons
      · obtain ⟨hpos, hmark⟩ := Code.hasBefore_iff.mp hcolons
        refine ⟨Nat.sub_le start 1, .cons (Code.not_endsStatement_of_mark hmark (by decide)) ?_⟩
        rw [Nat.sub_add_cancel hpos]
        exact .refl start
      · exact ⟨Nat.le_refl start, .refl start⟩

theorem chainStart_le (code : Code) (floor last : Nat) : chainStart code floor last ≤ last := by
  fun_induction chainStart code floor last with
  | case1 s _ ih => exact Nat.le_trans ih (Nat.le_add_right s 2)
  | case2 s _ => exact Nat.le_refl _
  | case3 s _ => exact Nat.le_refl _

/-- A chain lies in one statement. -/
theorem unbroken_chainStart (code : Code) (floor last : Nat) :
    code.Unbroken (chainStart code floor last) last := by
  fun_induction chainStart code floor last with
  | case1 s hchain ih =>
    simp only [Bool.and_eq_true] at hchain
    exact (ih.snoc (Code.not_endsStatement_of_nameAt hchain.2)).snoc
      (Code.not_endsStatement_of_mark hchain.1.2 (by decide))
  | case2 s _ => exact .refl _
  | case3 s _ => exact .refl _

/-! ## The unqualified name -/

/-- The `operator` found is the last one before the parameter list, at most four tokens away. -/
theorem operator?_eq_some_iff {opening k : Nat} : operator? code opening = some k ↔
    k < opening ∧ opening ≤ k + 4 ∧ code.has k (·.isKeyword "operator") = true ∧
      ∀ i, k < i → i < opening → code.has i (·.isKeyword "operator") = false := by
  rw [operator?, List.find?_map, Option.map_eq_some_iff]
  constructor
  · rintro ⟨n, hn, rfl⟩
    obtain ⟨hkeyword, hrange, hbefore⟩ := List.find?_range_eq_some.mp hn
    rw [List.mem_range] at hrange
    refine ⟨by omega, by omega, hkeyword, fun i hi hopening => ?_⟩
    have hlater := hbefore (opening - 1 - i) (by omega)
    rwa [Function.comp_apply, show opening - 1 - (opening - 1 - i) = i by omega,
      Bool.not_eq_true'] at hlater
  · rintro ⟨hlt, hnear, hkeyword, hlater⟩
    refine ⟨opening - 1 - k, List.find?_range_eq_some.mpr ⟨?_, ?_, fun j hj => ?_⟩, by omega⟩
    · rwa [Function.comp_apply, show opening - 1 - (opening - 1 - k) = k by omega]
    · rw [List.mem_range]
      omega
    · rw [Function.comp_apply, hlater _ (by omega) (by omega)]
      rfl

/-- A name that is no operator stays in its statement. -/
theorem unbroken_of_baseName? {opening base : Nat} (h : baseName? code opening = some base)
    (hnone : operator? code opening = none) : base < opening ∧ code.Unbroken base opening := by
  rw [baseName?, hnone] at h
  obtain ⟨n, hn, h⟩ := Option.bind_eq_some_iff.mp h
  have hangles : n ≤ opening ∧ code.Unbroken n opening := unbroken_of_angleStart? hn
  split_ifs at h with hname htilde
  all_goals
    rw [Bool.not_eq_true', Bool.eq_false_iff, not_not] at hname
    obtain ⟨hpos, hname⟩ := Code.hasBefore_iff.mp hname
    obtain ⟨k, rfl⟩ : ∃ k, n = k + 1 := ⟨n - 1, by omega⟩
    have hrun : code.Unbroken k opening :=
      .cons (Code.not_endsStatement_of_nameAt hname) hangles.2
    cases h
  · obtain ⟨hpos', htilde⟩ := Code.hasBefore_iff.mp htilde
    obtain ⟨j, rfl⟩ : ∃ j, k = j + 1 := ⟨k - 1, by simp only [Nat.add_sub_cancel] at hpos'; omega⟩
    exact ⟨by omega, .cons (Code.not_endsStatement_of_mark htilde (by decide)) hrun⟩
  · exact ⟨by omega, hrun⟩

/-- The last part of a function's name stands before its parameters. -/
theorem baseName?_lt {opening base : Nat} (h : baseName? code opening = some base) :
    base < opening := by
  cases hoperator : operator? code opening with
  | none => exact (unbroken_of_baseName? h hoperator).1
  | some k =>
    rw [baseName?, hoperator] at h
    cases h
    exact (operator?_eq_some_iff.mp hoperator).1

/-! ## The whole name -/

/-- **The name is not read from its own statement**: the last `operator` of the four tokens before
the parameter list has the end of a statement after it. -/
def StrayOperator (code : Code) (opening : Nat) : Prop :=
  ∃ k, k < opening ∧ opening ≤ k + 4 ∧ code.has k (·.isKeyword "operator") = true ∧
    (∀ i, k < i → i < opening → code.has i (·.isKeyword "operator") = false) ∧
    ∃ i, k < i ∧ i < opening ∧ code.has i endsStatement = true

/-- An `operator` is stray if a statement ends between it and the parameters. -/
theorem strayOperator_iff {opening : Nat} : StrayOperator code opening ↔
    ∃ k, operator? code opening = some k ∧ ¬ code.Unbroken k opening := by
  simp only [operator?_eq_some_iff]
  constructor
  · rintro ⟨k, hlt, hnear, hkeyword, hlast, i, hki, hi, hend⟩
    exact ⟨k, ⟨hlt, hnear, hkeyword, hlast⟩, fun hrun =>
      Bool.false_ne_true ((hrun i (Nat.le_of_lt hki) hi).symm.trans hend)⟩
  · rintro ⟨k, ⟨hlt, hnear, hkeyword, hlast⟩, hbroken⟩
    refine ⟨k, hlt, hnear, hkeyword, hlast, ?_⟩
    by_contra hnone
    refine hbroken (.cons (Code.not_endsStatement_of_isKeyword hkeyword) fun i hki hi => ?_)
    exact Bool.not_eq_true _ ▸ fun hend => hnone ⟨i, hki, hi, hend⟩

/-- **The name of a function stays in its statement**, unless it is that of a stray `operator`. -/
theorem declaratorName?_eq_some {opening : Nat} {inClass : Bool} {name : Slice}
    (h : declaratorName? code opening inClass = some name) :
    declaratorName? code opening true = some name ∧ name.stop = opening ∧
      ∃ base, baseName? code opening = some base ∧ name.start ≤ base ∧
        code.Unbroken name.start base := by
  rw [declaratorName?] at h ⊢
  split_ifs at h with hzero
  obtain ⟨base, hbase, h⟩ := Option.bind_eq_some_iff.mp h
  dsimp only at h
  split_ifs at h
  cases h
  obtain ⟨hle, hrun⟩ := @unbroken_qualifiedStart code (base + 1) base false
  exact ⟨by simp [hzero, hbase], rfl, base, hbase, hle, hrun⟩

/-- **The name of a function stays in its statement** unless it is read from a stray `operator`. -/
theorem unbroken_name_iff {opening : Nat} {inClass : Bool} {name : Slice}
    (h : declaratorName? code opening inClass = some name) :
    code.Unbroken name.start name.stop ↔ ¬ StrayOperator code opening := by
  obtain ⟨-, hstop, base, hbase, hle, hrun⟩ := declaratorName?_eq_some h
  rw [strayOperator_iff, hstop]
  cases hoperator : operator? code opening with
  | none =>
    have hwhole := hrun.trans (unbroken_of_baseName? hbase hoperator).2
    simp [hwhole]
  | some k =>
    obtain rfl : k = base := by
      rw [baseName?, hoperator] at hbase
      exact Option.some.inj hbase
    constructor
    · rintro hwhole ⟨j, hj, hbroken⟩
      cases hj
      exact hbroken fun i hki => hwhole i (Nat.le_trans hle hki)
    · intro hstray
      exact hrun.trans (not_not.mp fun hbroken => hstray ⟨k, rfl, hbroken⟩)

/-- A function head is named by the declarator before its parameters. -/
theorem name_of_headBefore? {pairing : Pairing} {inClass isTry : Bool} {stop : Nat}
    {head : FunctionHead} (h : headBefore? code pairing inClass isTry stop = some head) :
    ∃ name, declaratorName? code head.params.opening inClass = some name ∧
      head.name = code.joined name := by
  rw [headBefore?] at h
  split_ifs at h
  obtain ⟨opening, -, h⟩ := Option.bind_eq_some_iff.mp h
  obtain ⟨name, hname, rfl⟩ := Option.map_eq_some_iff.mp h
  exact ⟨name, hname, rfl⟩

theorem name_of_functionHead? {pairing : Pairing} {brace : Nat} {inClass : Bool}
    {head : FunctionHead} (h : functionHead? code pairing brace inClass = some head) :
    ∃ name, declaratorName? code head.params.opening inClass = some name ∧
      head.name = code.joined name := by
  rw [functionHead?] at h
  split at h
  · rename_i found hfound
    cases h
    obtain ⟨colon, -, hhead⟩ := Option.bind_eq_some_iff.mp hfound
    exact name_of_headBefore? hhead
  · exact name_of_headBefore? h

end Declaration

/-! ## The heads of a file -/

/-- **So is every function of an outline.** -/
theorem Outline.Valid.name_of_function {o : Outline} (h : o.Valid) {r : Region}
    {head : FunctionHead} (hr : (r, head) ∈ o.functions) :
    ∃ name, declaratorName? o.code head.params.opening true = some name ∧
      head.name = o.code.joined name := by
  obtain ⟨hmem, hkind⟩ := mem_functions_iff.mp hr
  obtain ⟨-, inClass, hhead⟩ :=
    Region.functionHead?_of_classify ((h.classified hmem).symm.trans hkind)
  obtain ⟨name, hname, hjoined⟩ := name_of_functionHead? hhead
  exact ⟨name, (declaratorName?_eq_some hname).1, hjoined⟩

/-- **A function name leaves its statement exactly through a stray `operator`**: without one, no
`;` and no brace is among the tokens joined into it. -/
theorem function_names_stay {source : Bytes} {o : Outline} (h : Outline.ofSource source = .ok o) :
    ∀ f ∈ o.functions, ∃ name, declaratorName? o.code f.2.params.opening true = some name ∧
      f.2.name = o.code.joined name ∧
      ((∀ t ∈ o.code.slice name, endsStatement t = false) ↔
        ¬ StrayOperator o.code f.2.params.opening) := by
  rintro ⟨r, head⟩ hf
  obtain ⟨name, hname, hjoined⟩ := (Outline.ofSource_eq_ok_iff_valid.mp h).2.name_of_function hf
  refine ⟨name, hname, hjoined, ?_⟩
  rw [← unbroken_name_iff hname]
  constructor
  · intro hslice k hstart hstop
    rw [Code.has, Option.any_eq_false]
    exact fun t ht => Bool.not_eq_true _ ▸ hslice t (mem_slice_iff.mpr ⟨k, hstart, hstop, ht⟩)
  · intro hrun t ht
    obtain ⟨k, hstart, hstop, ht⟩ := mem_slice_iff.mp ht
    have hk := hrun k hstart hstop
    rwa [Code.has, ht, Option.any_some] at hk

/-- A member one token further from the using-declaration than the look-back reaches, and a
destructor with template arguments in its qualification. -/
theorem function_names_stay_members :
    ∃ o, Outline.ofSource (utf8 ("struct S \x7busing B::operator=; void f() \x7b\x7d\x7d; "
        ++ "a::S<T>::~S() \x7b\x7d")) = .ok o ∧
      o.functions.map (·.2.name) = ["f", "a::S<T>::~S"] ∧
      ∀ f ∈ o.functions, ∃ name, declaratorName? o.code f.2.params.opening true = some name ∧
        f.2.name = o.code.joined name ∧ ∀ t ∈ o.code.slice name, endsStatement t = false := by
  obtain ⟨o, h, hheads⟩ := Outline.exists_ofSource
    (utf8 ("struct S \x7busing B::operator=; void f() \x7b\x7d\x7d; "
        ++ "a::S<T>::~S() \x7b\x7d"))
    (fun o => (o.functions.map (·.2.name),
      o.functions.map fun f => operator? o.code f.2.params.opening))
    (a := (["f", "a::S<T>::~S"], [none, none])) (by decide +kernel)
  obtain ⟨hnames, hoperators⟩ := Prod.mk.inj hheads
  refine ⟨o, h, hnames, fun f hf => ?_⟩
  have hnone : operator? o.code f.2.params.opening = none := by
    have hmem := List.mem_map_of_mem (f := fun f => operator? o.code f.2.params.opening) hf
    rw [hoperators] at hmem
    simpa using hmem
  obtain ⟨name, hname, hjoined, hstay⟩ := function_names_stay h f hf
  refine ⟨name, hname, hjoined, hstay.mpr fun hstray => ?_⟩
  obtain ⟨k, hk, -⟩ := strayOperator_iff.mp hstray
  rw [hnone] at hk
  cases hk

/-- The name of a constructor reaches into the using-declaration before it, whose `operator` is four
tokens before the parameter list: token 8 is the `;` between them. -/
theorem function_name_strays :
    ∃ o, Outline.ofSource (utf8 "struct S \x7busing B::operator=; S() \x7b\x7d\x7d;") = .ok o ∧
      o.functions.map (·.2) = [⟨"B::operator=;S", ⟨10, 11⟩, false⟩] ∧
      declaratorName? o.code 10 true = some ⟨4, 10⟩ ∧ o.code.mark 8 ";" = true := by
  obtain ⟨o, h, hhead⟩ := Outline.exists_ofSource
    (utf8 "struct S \x7busing B::operator=; S() \x7b\x7d\x7d;")
    (fun o => (o.functions.map (·.2), declaratorName? o.code 10 true, o.code.mark 8 ";"))
    (a := ([⟨"B::operator=;S", ⟨10, 11⟩, false⟩], some ⟨4, 10⟩, true)) (by decide +kernel)
  obtain ⟨hhead, hname⟩ := Prod.mk.inj hhead
  exact ⟨o, h, hhead, Prod.mk.inj hname⟩

end Quell
