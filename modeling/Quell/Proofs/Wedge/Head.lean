import Quell.Proofs.Foresight
import Quell.Proofs.Wedge

/-!
# Proofs/Wedge/Head — the heads of functions around a wedge

The head of a function is read backwards from its body.  Every scan stops at the braces and the `;`
around a stretch or passes them in a group, so each recognizer commutes with the move of the tokens,
one equation per recognizer.  The look-back for `operator` counts tokens, and it is told that none
stands near the stretch.
-/

namespace Quell

open Declaration

namespace Wedge.Cleaves

variable {w : Wedge} {code code' : Code} {pairing pairing' : Pairing}
  (h : w.Cleaves code code' pairing pairing') {i j k : Nat}

include h

/-- Up to the stretch the codes are the same. -/
theorem agree : Agree w.place code code' pairing pairing' := by
  have hlength := h.length_take
  refine .of_paired h.paired h.paired' ?_
  rw [h.toList_eq, List.append_assoc, List.take_append_of_le_length (by omega), List.take_take,
    Nat.min_self]

/-! ## Scans with a bound -/

/-- The bounds `limit` and `limit'` cut the scans down from token `k` at the same tokens. -/
def Bounds (w : Wedge) (k limit limit' : Nat) : Prop :=
  ∀ j ≤ k, k < w.place ∨ w.place < j → (w.move j ≤ limit' ↔ j ≤ limit)

omit h in
/-- Limits that lie equally far back cut the scans down at the same tokens. -/
theorem bounds_sub (w : Wedge) (k n : Nat) : Bounds w k (k - n) (w.move k - n) := by
  intro j hj hplace
  rw [move, move]
  split_ifs <;> omega

omit h in
theorem Bounds.pred {limit limit' : Nat} (hbounds : Bounds w (k + 1) limit limit')
    (hplace : k + 1 ≠ w.place) : Bounds w k limit limit' := fun j hj hj' =>
  hbounds j (Nat.le_succ_of_le hj) (by omega)

omit h in
theorem Bounds.iff {limit limit' : Nat} (hbounds : Bounds w (k + 1) limit limit')
    (hplace : k + 1 ≠ w.place) : w.move k + 1 ≤ limit' ↔ k + 1 ≤ limit := by
  rw [← move_succ hplace]
  exact hbounds _ (Nat.le_refl _) (by omega)

/-- A run of tokens starts at the same one, moved. -/
theorem runStart_move {test : Token → Bool} (htest : Inner test) {limit limit' : Nat}
    (hk : code.mark k "\x7d" = false) (hbounds : Bounds w k limit limit') :
    code'.runStart limit' test (w.move k) = w.move (code.runStart limit test k) := by
  induction k with
  | zero => rw [h.move_zero]; exact h.move_zero.symm
  | succ k ih =>
    by_cases hplace : k + 1 = w.place
    · -- The scan stops at once, at the opening brace or at the `;`.
      have hstop : ∀ {code : Code} {limit k : Nat}, code.hasBefore k endsStatement = true →
          code.runStart limit test k = k := by
        intro code limit k hends
        obtain ⟨hpos, hends⟩ := Code.hasBefore_iff.mp hends
        obtain ⟨m, rfl⟩ : ∃ m, k = m + 1 := ⟨k - 1, by omega⟩
        have hnone : code.has m test = false := Bool.not_eq_true _ ▸ fun hpasses =>
          Bool.false_ne_true ((Code.not_endsStatement_of_has htest hpasses).symm.trans hends)
        rw [Code.runStart, hnone, Bool.and_false, if_neg Bool.false_ne_true]
      rw [hplace] at hk ⊢
      obtain ⟨hbefore, hbefore'⟩ := h.hasBefore_place hk
      rw [hstop hbefore, hstop hbefore']
    · have hlimit : decide (limit' < w.move k + 1) = decide (limit < k + 1) := by
        have := hbounds.iff hplace
        simp only [decide_eq_decide]
        omega
      rw [move_succ hplace, Code.runStart, Code.runStart, h.has_move, hlimit]
      split_ifs with hrun
      · rw [Bool.and_eq_true] at hrun
        exact ih (Code.not_closer_of_has htest hrun.2) (hbounds.pred hplace)
      · exact (move_succ hplace).symm

omit h in
/-- The search for an open angle bracket gives up where a statement ends. -/
theorem angleFrom?_eq_none {floor : Nat} {depth : Int}
    (hends : code.hasBefore k endsStatement = true) : angleFrom? code floor k depth = none := by
  obtain ⟨hpos, hends⟩ := Code.hasBefore_iff.mp hends
  cases hangle : angleFrom? code floor k depth with
  | none => rfl
  | some lt =>
    obtain ⟨hlt, hrun⟩ := unbroken_of_angleFrom? hangle
    exact absurd ((hrun (k - 1) (by omega) (by omega)).symm.trans hends) Bool.false_ne_true

theorem angleFrom?_move {floor floor' : Nat} (hk : code.mark k "\x7d" = false)
    (hbounds : Bounds w k floor floor') (depth : Int) :
    angleFrom? code' floor' (w.move k) depth = (angleFrom? code floor k depth).map w.move := by
  induction k generalizing depth with
  | zero => rw [h.move_zero]; rfl
  | succ k ih =>
    by_cases hplace : k + 1 = w.place
    · rw [hplace] at hk ⊢
      obtain ⟨hbefore, hbefore'⟩ := h.hasBefore_place hk
      rw [angleFrom?_eq_none hbefore, angleFrom?_eq_none hbefore']
      rfl
    · have ih : code.has k endsStatement = false → ∀ depth,
          angleFrom? code' floor' (w.move k) depth = (angleFrom? code floor k depth).map w.move :=
        fun hends => ih (Code.mark_of_not_endsStatement hends (by decide)) (hbounds.pred hplace)
      have hlimit := hbounds.iff hplace
      rw [move_succ hplace, angleFrom?, angleFrom?, h.mark_move, h.mark_move, h.has_move]
      simp only [hlimit]
      split_ifs with _ hgt hlt hdepth hends
      · rfl
      · exact ih (Code.not_endsStatement_of_mark hgt (by decide)) _
      · rfl
      · exact ih (Code.not_endsStatement_of_mark hlt (by decide)) _
      · rfl
      · exact ih (Bool.not_eq_true _ ▸ hends) _

theorem angleOpening?_move (hk : code.mark (k + 1) "\x7d" = false) (hplace : k + 1 ≠ w.place) :
    angleOpening? code' (w.move k) = (angleOpening? code k).map w.move := by
  rw [angleOpening?, angleOpening?, ← move_succ hplace]
  refine h.angleFrom?_move hk ?_ 0
  have hbounds := bounds_sub w (k + 1) (lookback + 1)
  rw [move_succ hplace] at hbounds
  simpa only [Nat.add_sub_add_right] using hbounds

/-- Template arguments start at the same token, moved. -/
theorem angleStart?_move (hk : code.mark k "\x7d" = false) :
    angleStart? code' (w.move k) = (angleStart? code k).map w.move := by
  rw [angleStart?, angleStart?, h.markBefore_move ">" (by decide) hk]
  split_ifs with hgt
  · have hpos := (Code.hasBefore_iff.mp hgt).1
    have hplace := h.ne_place_of_hasBefore (fun _ hb => Token.isMark_eq_false hb (by decide)) hk hgt
    rw [← move_pred hpos hplace]
    exact h.angleOpening?_move (by rwa [Nat.sub_add_cancel hpos])
      (by rwa [Nat.sub_add_cancel hpos])
  · rfl

omit h in
/-- One link of a chain, read by what stands before. -/
theorem chainStart_eq (code : Code) (floor k : Nat) : chainStart code floor k =
    if floor + 2 ≤ k && code.markBefore k "::" && code.nameBefore (k - 1) then
      chainStart code floor (k - 2)
    else k := by
  match k with
  | 0 => rw [decide_eq_false (by omega)]; rfl
  | 1 => rw [decide_eq_false (by omega)]; rfl
  | s + 2 =>
    have hfloor : decide (floor + 2 ≤ s + 2) = decide (floor ≤ s) :=
      decide_eq_decide.mpr Nat.add_le_add_iff_right
    rw [chainStart, hfloor]
    rfl

theorem chainStart_move (hk : code.mark k "\x7d" = false) :
    chainStart code' 0 (w.move k) = w.move (chainStart code 0 k) := by
  induction k using Nat.strongRecOn with
  | _ k ih =>
    rw [chainStart_eq code', chainStart_eq code, h.markBefore_move "::" (by decide) hk]
    cases hcolons : code.markBefore k "::" with
    | false =>
      rw [Bool.and_false, Bool.and_false]
      rfl
    | true =>
      obtain ⟨hback, hk'⟩ := h.back (inner_isMark (by decide)) hk hcolons
      rw [← hback, h.nameBefore_move hk']
      cases hname : code.nameBefore (k - 1) with
      | false =>
        rw [Bool.and_false, Bool.and_false]
        rfl
      | true =>
        obtain ⟨hback', hk''⟩ := h.back inner_isName hk' hname
        have hpos := (Code.hasBefore_iff.mp hname).1
        have hle := w.le_move k
        rw [decide_eq_true (by omega), decide_eq_true (by omega),
          show w.move k - 2 = w.move k - 1 - 1 by omega, ← hback, ← hback',
          show k - 1 - 1 = k - 2 by omega]
        exact ih _ (by omega) hk''

/-! ## Between parameter list and body -/

/-- The partner of the bracket before a token. -/
theorem partner_pred_move (shape : Bracket) (hk : code.mark k "\x7d" = false)
    (hclose : code.markBefore k shape.closer = true) :
    ∃ opening, pairing.partner (k - 1) = some opening ∧
      pairing'.partner (w.move k - 1) = some (w.move opening) ∧ opening + 1 < k ∧
      code.mark opening shape.opener = true ∧ code.mark opening "\x7d" = false := by
  obtain ⟨hpos, hmark⟩ := Code.hasBefore_iff.mp hclose
  obtain ⟨opening, hpartner, hlt, hopen⟩ := Pairing.exists_opening h.paired shape hmark
  have hback := h.move_pred_of_hasBefore
    (fun _ hb => Token.isMark_eq_false hb (by cases shape <;> decide)) hk hclose
  refine ⟨opening, hpartner, ?_, by omega, hopen, Code.mark_eq_false hopen ?_⟩
  · rw [← hback, h.partner_move, hpartner]
    rfl
  · cases shape <;> decide

/-- The arguments of an initializer end with a bracket.  A closing brace is no inner token, but
neither an opening one nor a `;`. -/
theorem hasArgument_move (hk : code.mark k "\x7d" = false) :
    code'.hasBefore (w.move k) (·.isMarkIn [")", "\x7d"]) =
      code.hasBefore k (·.isMarkIn [")", "\x7d"]) := by
  refine h.hasBefore_move_of (fun t ht => ?_) hk
  obtain ⟨word, hword, hmark⟩ := Token.isMarkIn_iff.mp ht
  rw [← Bool.not_eq_true, Token.isMarkIn_iff]
  rintro ⟨other, hother, hmark'⟩
  have hne : ∀ word ∈ [";", "\x7b"], ∀ other ∈ [")", "\x7d"], utf8 word ≠ utf8 other := by decide
  exact Bool.false_ne_true
    ((Token.isMark_eq_false hmark (hne word hword other hother)).symm.trans hmark')

/-- The initializers of a constructor start at the same token, moved. -/
theorem initializerStart?_move (hk : code.mark k "\x7d" = false) :
    initializerStart? code' pairing' (w.move k) =
      (initializerStart? code pairing k).map w.move ∧
    ∀ start ∈ initializerStart? code pairing k, code.mark start "\x7d" = false := by
  rw [initializerStart?, initializerStart?, h.hasArgument_move hk]
  split_ifs with hclose
  · obtain ⟨shape, hshape⟩ := exists_argumentCloser hclose
    obtain ⟨opening, hpartner, hpartner', -, -, hopening⟩ := h.partner_pred_move shape hk hshape
    rw [hpartner, hpartner', Option.bind_some, Option.bind_some, h.angleStart?_move hopening]
    cases hstart : angleStart? code opening with
    | none => exact ⟨rfl, fun _ hmem => by cases hmem⟩
    | some n =>
      obtain ⟨hle, hrun⟩ := unbroken_of_angleStart? hstart
      have hn := hrun.not_closer hle hopening
      rw [Option.map_some, Option.bind_some, Option.bind_some, h.nameBefore_move hn]
      split_ifs with hname
      · obtain ⟨hback, hn'⟩ := h.back inner_isName hn hname
        rw [← hback, h.chainStart_move hn']
        refine ⟨rfl, fun start hmem => ?_⟩
        cases hmem
        exact (unbroken_chainStart code 0 _).not_closer (chainStart_le code 0 _) hn'
      · exact ⟨rfl, fun _ hmem => by cases hmem⟩
  · exact ⟨rfl, fun _ hmem => by cases hmem⟩

/-- The `:` of the initializers, whatever the fuel. -/
theorem initializerColon?_move {fuel fuel' : Nat} (hk : code.mark k "\x7d" = false)
    (hfuel : k < fuel) (hfuel' : w.move k < fuel') :
    initializerColon? code' pairing' fuel' (w.move k) =
        (initializerColon? code pairing fuel k).map w.move ∧
      ∀ colon ∈ initializerColon? code pairing fuel k, code.mark colon "\x7d" = false := by
  induction fuel generalizing k fuel' with
  | zero => exact absurd hfuel (Nat.not_lt_zero k)
  | succ fuel ih =>
    obtain ⟨fuel', rfl⟩ : ∃ m, fuel' = m + 1 := ⟨fuel' - 1, by omega⟩
    obtain ⟨hstep, hclear⟩ := h.initializerStart?_move hk
    rw [initializerColon?_succ, initializerColon?_succ, hstep]
    cases hstart : initializerStart? code pairing k with
    | none => exact ⟨rfl, fun _ hmem => by cases hmem⟩
    | some start =>
      have hlt := (stays_initializerStart? h.paired hstart).1
      have hlt' := (move_lt_iff (w := w)).mpr hlt
      have hs := hclear start hstart
      rw [Option.map_some, Option.bind_some, Option.bind_some,
        h.markBefore_move "," (by decide) hs, h.markBefore_move ":" (by decide) hs]
      split_ifs with hcomma hcolon
      · obtain ⟨hback, hs'⟩ := h.back (inner_isMark (by decide)) hs hcomma
        rw [← hback]
        refine ih hs' (by omega) ?_
        rw [hback]
        omega
      · obtain ⟨hback, hs'⟩ := h.back (inner_isMark (by decide)) hs hcolon
        rw [← hback]
        exact ⟨rfl, fun colon hmem => by cases hmem; exact hs'⟩
      · exact ⟨rfl, fun _ hmem => by cases hmem⟩

omit h in
/-- A run of inner tokens does not end at a closing brace. -/
theorem not_closer_runStart {test : Token → Bool} (htest : Inner test) (limit : Nat)
    (hk : code.mark k "\x7d" = false) : code.mark (code.runStart limit test k) "\x7d" = false := by
  induction k with
  | zero => exact hk
  | succ k ih =>
    rw [Code.runStart]
    split_ifs with hrun
    · rw [Bool.and_eq_true] at hrun
      exact ih (Code.not_closer_of_has htest hrun.2)
    · exact hk

theorem skipReturnType_move (hk : code.mark k "\x7d" = false) :
    skipReturnType code' (w.move k) = w.move (skipReturnType code k) ∧
      code.mark (skipReturnType code k) "\x7d" = false := by
  have hrun := not_closer_runStart inner_isReturnWord (k - lookback) hk
  rw [skipReturnType, skipReturnType,
    h.runStart_move inner_isReturnWord hk (bounds_sub w k lookback),
    h.markBefore_move "->" (by decide) hrun]
  simp only [move_lt_iff]
  split_ifs with harrow
  · rw [Bool.and_eq_true] at harrow
    obtain ⟨hback, hk'⟩ := h.back (inner_isMark (by decide)) hrun harrow.2
    exact ⟨hback.symm, hk'⟩
  · exact ⟨rfl, hk⟩

omit h in
theorem hasBefore_or_and (code : Code) (k : Nat) (p q : Token → Bool) (b : Bool) :
    code.hasBefore k (fun t => p t || (q t && b)) =
      (code.hasBefore k p || (code.hasBefore k q && b)) := by
  cases b with
  | false => simp only [Bool.and_false, Bool.or_false]
  | true =>
    cases k with
    | zero => rfl
    | succ k =>
      rw [Code.hasBefore, Code.hasBefore, Code.hasBefore, Code.has, Code.has, Code.has]
      simp only [Bool.and_true]
      cases code[k]? <;> rfl

/-- An annotation macro after a group. -/
theorem macroBefore_move (hk : code.mark k "\x7d" = false) :
    (code.hasBefore k isMacroLike && code'.markBefore (w.move k - 1) ")") =
      (code.hasBefore k isMacroLike && code.markBefore (k - 1) ")") := by
  cases hfound : code.hasBefore k isMacroLike with
  | false => rfl
  | true =>
    obtain ⟨hback, hk'⟩ := h.back inner_isMacroLike hk hfound
    rw [← hback, h.markBefore_move ")" (by decide) hk']

/-- A specifier starts at the same token, moved. -/
theorem specifierStart?_move (hk : code.mark k "\x7d" = false) :
    specifierStart? code' pairing' (w.move k) = (specifierStart? code pairing k).map w.move ∧
      ∀ start ∈ specifierStart? code pairing k, code.mark start "\x7d" = false := by
  rw [specifierStart?, specifierStart?, h.markBefore_move ")" (by decide) hk,
    h.markBefore_move "]" (by decide) hk]
  split_ifs with hround hsquare
  · obtain ⟨opening, hpartner, hpartner', -, -, hopening⟩ := h.partner_pred_move .round hk hround
    rw [hpartner, hpartner']
    dsimp only
    rw [hasBefore_or_and, hasBefore_or_and, h.hasBefore_move inner_isMacroLike hopening,
      h.hasBefore_move inner_callWord hopening, h.macroBefore_move hopening, ← hasBefore_or_and]
    split_ifs with hword
    · obtain ⟨hback, hk'⟩ := h.back (inner_callWord.or_and inner_isMacroLike _) hopening hword
      rw [← hback]
      exact ⟨rfl, fun start hmem => by cases hmem; exact hk'⟩
    · exact ⟨rfl, fun _ hmem => by cases hmem⟩
  · obtain ⟨opening, hpartner, hpartner', -, hopen, hopening⟩ :=
      h.partner_pred_move .square hk hsquare
    have hbrace : code.mark opening "\x7b" = false := Code.mark_eq_false hopen (by decide)
    rw [hpartner, hpartner']
    dsimp only
    rw [h.mark_move, h.mark_succ_move "[" (by decide) hbrace]
    simp only [h.move_pos_iff]
    split_ifs
    · exact ⟨rfl, fun start hmem => by cases hmem; exact hopening⟩
    · exact ⟨rfl, fun _ hmem => by cases hmem⟩
  · exact ⟨rfl, fun _ hmem => by cases hmem⟩

/-- What is left of the qualifiers, whatever the fuel. -/
theorem skipQualifiers_move {fuel fuel' : Nat} (hk : code.mark k "\x7d" = false)
    (hfuel : k < fuel) (hfuel' : w.move k < fuel') :
    skipQualifiers code' pairing' fuel' (w.move k) = w.move (skipQualifiers code pairing fuel k) ∧
      code.mark (skipQualifiers code pairing fuel k) "\x7d" = false := by
  induction fuel generalizing k fuel' with
  | zero => exact absurd hfuel (Nat.not_lt_zero k)
  | succ fuel ih =>
    obtain ⟨fuel', rfl⟩ : ∃ m, fuel' = m + 1 := ⟨fuel' - 1, by omega⟩
    have hstep : ∀ {test : Token → Bool}, Inner test → code.hasBefore k test = true →
        skipQualifiers code' pairing' fuel' (w.move k - 1) =
            w.move (skipQualifiers code pairing fuel (k - 1)) ∧
          code.mark (skipQualifiers code pairing fuel (k - 1)) "\x7d" = false := by
      intro test htest hword
      obtain ⟨hback, hk'⟩ := h.back htest hk hword
      have hpos := (Code.hasBefore_iff.mp hword).1
      have hlt := (move_lt_iff (w := w)).mpr (Nat.sub_one_lt_of_lt hpos)
      rw [← hback]
      exact ih hk' (by omega) (by omega)
    obtain ⟨hspecifier, hclear⟩ := h.specifierStart?_move hk
    rw [skipQualifiers, skipQualifiers, h.hasBefore_move inner_isTrailerWord hk,
      h.hasBefore_move inner_isMacroLike hk, h.macroBefore_move hk, hspecifier]
    split_ifs with hword hannotation
    · exact hstep inner_isTrailerWord hword
    · rw [Bool.and_eq_true] at hannotation
      exact hstep inner_isMacroLike hannotation.1
    · cases hstart : specifierStart? code pairing k with
      | none => exact ⟨rfl, hk⟩
      | some start =>
        have hlt := (stays_specifierStart? h.paired hstart).1
        have hlt' := (move_lt_iff (w := w)).mpr hlt
        exact ih (hclear start hstart) (by omega) (by omega)

theorem skipTrailer_move (hk : code.mark k "\x7d" = false) (hsize : k ≤ code.size) :
    skipTrailer code' pairing' (w.move k) = w.move (skipTrailer code pairing k) ∧
      code.mark (skipTrailer code pairing k) "\x7d" = false := by
  obtain ⟨hreturn, hk'⟩ := h.skipReturnType_move hk
  have hle := (@stays_skipReturnType code pairing k).1
  have hle' := (move_le_iff (w := w)).mpr hle
  have hsize' := h.size_eq
  have hmove := w.move_le_add k
  rw [skipTrailer, skipTrailer, hreturn]
  exact h.skipQualifiers_move hk' (by omega) (by omega)

/-! ## The name of a function -/

/-- The look-back for `operator` does not reach over the stretch. -/
theorem operator?_move (k : Nat) : operator? code' (w.move k) = (operator? code k).map w.move := by
  have hchunk : ∀ m < w.chunk.length, code'.has (w.place + m) (·.isKeyword "operator") = false :=
    fun _ => h.has_chunk h.plain
  -- An `operator` and a parameter list that is near it stand on one side of the stretch.
  have hside : ∀ i, code.has i (·.isKeyword "operator") = true → i < k →
      (w.move k ≤ w.move i + 4 ↔ k ≤ i + 4) := by
    intro i hkeyword hik
    rw [move, move]
    split_ifs with hk hi hi
    · rfl
    · omega
    · have hfar : ¬w.place ≤ i + 4 := fun hnear =>
        Bool.false_ne_true ((h.operator i hi hnear).symm.trans hkeyword)
      omega
    · omega
  refine Option.ext fun m => ?_
  rw [Option.map_eq_some_iff]
  simp only [operator?_eq_some_iff]
  constructor
  · rintro ⟨hlt, hnear, hkeyword, hlast⟩
    rcases w.move_or_chunk m with ⟨i, rfl⟩ | ⟨j, hj, rfl⟩
    · rw [h.has_move] at hkeyword
      rw [move_lt_iff] at hlt
      refine ⟨i, ⟨hlt, (hside i hkeyword hlt).mp hnear, hkeyword, fun j hij hjk => ?_⟩, rfl⟩
      rw [← h.has_move]
      exact hlast _ (move_lt_iff.mpr hij) (move_lt_iff.mpr hjk)
    · exact absurd ((hchunk j hj).symm.trans hkeyword) Bool.false_ne_true
  · rintro ⟨i, ⟨hlt, hnear, hkeyword, hlast⟩, rfl⟩
    refine ⟨move_lt_iff.mpr hlt, (hside i hkeyword hlt).mpr hnear, ?_, fun m him hmk => ?_⟩
    · rwa [h.has_move]
    · rcases w.move_or_chunk m with ⟨j, rfl⟩ | ⟨j, hj, rfl⟩
      · rw [h.has_move]
        exact hlast j (move_lt_iff.mp him) (move_lt_iff.mp hmk)
      · exact hchunk j hj

/-- The last part of a function's name is the same, moved. -/
theorem baseName?_move (hk : code.mark k "\x7d" = false) :
    baseName? code' (w.move k) = (baseName? code k).map w.move := by
  have hangle : (if code'.markBefore (w.move k) ">" then angleOpening? code' (w.move k - 1)
        else some (w.move k)) =
      (if code.markBefore k ">" then angleOpening? code (k - 1) else some k).map w.move :=
    h.angleStart?_move hk
  rw [baseName?, baseName?, h.operator?_move k]
  cases operator? code k with
  | some start => rfl
  | none =>
    rw [Option.map_none]
    dsimp only
    rw [hangle, Option.map_bind, Option.bind_map]
    refine Option.bind_congr fun n hn => ?_
    obtain ⟨hle, hrun⟩ := unbroken_of_angleStart? (show angleStart? code k = some n from hn)
    have hn' := hrun.not_closer hle hk
    rw [Function.comp_apply, Function.comp_apply, h.nameBefore_move hn']
    cases hname : code.nameBefore n with
    | false => rfl
    | true =>
      obtain ⟨hback, hk'⟩ := h.back inner_isName hn' hname
      rw [← hback, h.markBefore_move "~" (by decide) hk']
      simp only [Bool.not_true, Bool.false_eq_true, if_false]
      split_ifs with htilde
      · obtain ⟨hback', -⟩ := h.back (inner_isMark (by decide)) hk' htilde
        rw [Option.map_some, show w.move n - 2 = w.move n - 1 - 1 by omega, ← hback, ← hback',
          show n - 1 - 1 = n - 2 by omega]
      · rfl

omit h in
/-- One step out of a qualification, read by what stands before. -/
theorem qualifierStart?_eq (code : Code) (k : Nat) : qualifierStart? code k =
    if code.markBefore k "::" then
      if code.nameBefore (k - 1) then some (k - 2)
      else if code.markBefore (k - 1) ">" then
        (angleStart? code (k - 1)).bind fun lt => if code.nameBefore lt then some (lt - 1) else none
      else none
    else none := by
  match k with
  | 0 => rfl
  | 1 =>
    rw [Code.nameBefore, Code.markBefore, Code.markBefore, Nat.sub_self, Code.hasBefore,
      Code.hasBefore, if_neg Bool.false_ne_true, if_neg Bool.false_ne_true, ite_self]
    rfl
  | s + 2 =>
    have hangle : angleStart? code (s + 1) =
        if code.mark s ">" then angleOpening? code s else some (s + 1) := rfl
    rw [qualifierStart?, decide_eq_true (Nat.le_add_left 2 s), Bool.true_and,
      show s + 2 - 1 = s + 1 from rfl, show s + 2 - 2 = s from rfl]
    refine ite_congr rfl (fun _ => ite_congr rfl (fun _ => rfl) fun _ => ?_) fun _ => rfl
    refine ite_congr rfl (fun hgt => ?_) fun _ => rfl
    rw [hangle, if_pos (show code.mark s ">" = true from hgt)]
    cases angleOpening? code s <;> rfl

theorem qualifierStart?_move (hk : code.mark k "\x7d" = false) :
    qualifierStart? code' (w.move k) = (qualifierStart? code k).map w.move := by
  rw [qualifierStart?_eq code', qualifierStart?_eq code, h.markBefore_move "::" (by decide) hk]
  cases hcolons : code.markBefore k "::" with
  | false => rfl
  | true =>
    obtain ⟨hback, hk'⟩ := h.back (inner_isMark (by decide)) hk hcolons
    rw [← hback, h.nameBefore_move hk', h.markBefore_move ">" (by decide) hk',
      h.angleStart?_move hk']
    simp only [if_true]
    split_ifs with hname hgt
    · obtain ⟨hback', -⟩ := h.back inner_isName hk' hname
      rw [Option.map_some, show w.move k - 2 = w.move k - 1 - 1 by omega, ← hback, ← hback',
        show k - 1 - 1 = k - 2 by omega]
    · rw [Option.map_bind, Option.bind_map]
      refine Option.bind_congr fun lt hlt => ?_
      obtain ⟨hle, hrun⟩ := unbroken_of_angleStart? hlt
      have hlt' := hrun.not_closer hle hk'
      rw [Function.comp_apply, Function.comp_apply, h.nameBefore_move hlt']
      split_ifs with hbefore
      · rw [← (h.back inner_isName hlt' hbefore).1]
        rfl
      · rfl
    · rfl

/-- The whole qualification, whatever the fuel. -/
theorem qualifiedStart_move {fuel fuel' : Nat} (hk : code.mark k "\x7d" = false)
    (hfuel : k < fuel) (hfuel' : w.move k < fuel') (qualified : Bool) :
    qualifiedStart code' fuel' (w.move k) qualified =
      (qualifiedStart code fuel k qualified).map w.move id := by
  induction fuel generalizing k fuel' qualified with
  | zero => exact absurd hfuel (Nat.not_lt_zero k)
  | succ fuel ih =>
    obtain ⟨fuel', rfl⟩ : ∃ m, fuel' = m + 1 := ⟨fuel' - 1, by omega⟩
    rw [qualifiedStart, qualifiedStart, h.qualifierStart?_move hk]
    cases houter : qualifierStart? code k with
    | some outer =>
      obtain ⟨hlt, hrun⟩ := unbroken_of_qualifierStart? houter
      have hlt' := (move_lt_iff (w := w)).mpr hlt
      exact ih (hrun.not_closer (Nat.le_of_lt hlt) hk) (by omega) (by omega) true
    | none =>
      rw [Option.map_none, h.markBefore_move "::" (by decide) hk]
      dsimp only
      split_ifs with hcolons
      · rw [← (h.back (inner_isMark (by decide)) hk hcolons).1]
        rfl
      · rfl

/-- The stretch does not go between the last part of a function's name and the parameters. -/
theorem clear_of_baseName? {base : Nat} (hk : code.mark k "\x7d" = false)
    (hbase : baseName? code k = some base) :
    w.Clear base k ∧ code.mark base "\x7d" = false := by
  cases hoperator : operator? code k with
  | none =>
    obtain ⟨hlt, hrun⟩ := unbroken_of_baseName? hbase hoperator
    exact ⟨h.clear_of_unbroken hrun hk, hrun.not_closer (Nat.le_of_lt hlt) hk⟩
  | some start =>
    rw [baseName?, hoperator] at hbase
    cases hbase
    obtain ⟨hlt, hnear, hkeyword, -⟩ := operator?_eq_some_iff.mp hoperator
    refine ⟨?_, Code.mark_of_not_endsStatement (Code.not_endsStatement_of_isKeyword hkeyword)
      (by decide)⟩
    by_contra hclear
    rw [Clear, not_or, Nat.not_le, Nat.not_lt] at hclear
    exact Bool.false_ne_true ((h.operator base hclear.1 (by omega)).symm.trans hkeyword)

/-- **The name of a function is the same, moved**, and the stretch does not go into it. -/
theorem declaratorName?_move (hk : code.mark k "\x7d" = false) (inClass : Bool) :
    declaratorName? code' (w.move k) inClass = (declaratorName? code k inClass).map w.moveSlice ∧
      ∀ name ∈ declaratorName? code k inClass, w.Clear name.start name.stop := by
  have hzero : w.move k = 0 ↔ k = 0 := by
    have := h.move_pos_iff (i := k)
    omega
  rw [declaratorName?, declaratorName?, h.baseName?_move hk]
  simp only [hzero]
  split_ifs with hk0
  · exact ⟨rfl, fun _ hmem => by cases hmem⟩
  cases hbase : baseName? code k with
  | none => exact ⟨rfl, fun _ hmem => by cases hmem⟩
  | some base =>
    obtain ⟨hclear, hbase'⟩ := h.clear_of_baseName? hk hbase
    obtain ⟨hle, hrun⟩ := @unbroken_qualifiedStart code (base + 1) base false
    have hstart := hrun.not_closer hle hbase'
    rw [Option.map_some, Option.bind_some, Option.bind_some,
      h.qualifiedStart_move hbase' (Nat.lt_succ_self _) (Nat.lt_succ_self _)]
    generalize qualifiedStart code (base + 1) base false = found at hrun hstart
    obtain ⟨start, qualified⟩ := found
    simp only [Prod.map, id, h.hasBefore_move inner_endsReturnType hstart]
    split_ifs with hfound
    · exact ⟨rfl, fun name hmem => by
        cases hmem
        exact (h.clear_of_unbroken hrun hbase').trans hclear⟩
    · exact ⟨rfl, fun _ hmem => by cases hmem⟩

/-- **The head of a function is the same, moved.** -/
theorem headBefore?_move (hk : code.mark k "\x7d" = false) (hsize : k ≤ code.size)
    (inClass isTry : Bool) :
    headBefore? code' pairing' inClass isTry (w.move k) =
      (headBefore? code pairing inClass isTry k).map w.moveHead := by
  obtain ⟨htrailer, hj⟩ := h.skipTrailer_move hk hsize
  rw [headBefore?, headBefore?, htrailer]
  generalize skipTrailer code pairing k = j at hj
  rw [h.markBefore_move ")" (by decide) hj]
  cases hclose : code.markBefore j ")" with
  | false => rfl
  | true =>
    obtain ⟨opening, hpartner, hpartner', -, -, hopening⟩ := h.partner_pred_move .round hj hclose
    have hback := (h.back (inner_isMark (by decide)) hj hclose).1
    obtain ⟨hname, hclear⟩ := h.declaratorName?_move hopening inClass
    rw [hpartner, hpartner', Option.bind_some, Option.bind_some, hname]
    simp only [Bool.not_true, Bool.false_eq_true, if_false, Option.map_map]
    refine Option.map_congr fun name hname => ?_
    rw [Function.comp_apply, Function.comp_apply, moveHead, moveSlice,
      h.joined_move (hclear name hname), moveGroup, hback]

/-- **The head of a function is the same.** -/
theorem functionHead?_move {brace : Nat} (hbrace : code.mark brace "\x7d" = false)
    (hsize : brace ≤ code.size) (inClass : Bool) :
    functionHead? code' pairing' (w.move brace) inClass =
      (functionHead? code pairing brace inClass).map w.moveHead := by
  obtain ⟨stop, hstop, hstop', hle, hclear⟩ : ∃ stop,
      (if code.keywordBefore brace "try" then brace - 1 else brace) = stop ∧
      (if code.keywordBefore brace "try" then w.move brace - 1 else w.move brace) = w.move stop ∧
      stop ≤ brace ∧ code.mark stop "\x7d" = false := by
    split_ifs with hfound
    · obtain ⟨hback, hk'⟩ := h.back (inner_isKeyword _) hbrace hfound
      exact ⟨_, rfl, hback.symm, Nat.sub_le _ _, hk'⟩
    · exact ⟨_, rfl, rfl, Nat.le_refl _, hbrace⟩
  rw [functionHead?, functionHead?, h.keywordBefore_move "try" hbrace]
  rw [hstop, hstop', h.headBefore?_move hclear (by omega)]
  have hinit : (initializerColon? code' pairing' (code'.size + 1) (w.move stop)).bind
        (headBefore? code' pairing' inClass (code.keywordBefore brace "try")) =
      ((initializerColon? code pairing (code.size + 1) stop).bind
        (headBefore? code pairing inClass (code.keywordBefore brace "try"))).map w.moveHead := by
    have hmove := w.move_le_add stop
    have hsize' := h.size_eq
    have hfuel : stop < code.size + 1 := by omega
    have hfuel' : w.move stop < code'.size + 1 := by omega
    obtain ⟨hcolons, hcolon'⟩ := h.initializerColon?_move hclear hfuel hfuel'
    rw [hcolons, Option.map_bind, Option.bind_map]
    refine Option.bind_congr fun colon hcolon => ?_
    have hlt := (stays_initializerColon? h.paired hcolon).1
    exact h.headBefore?_move (hcolon' colon hcolon) (by omega) _ _
  rw [hinit]
  cases (initializerColon? code pairing (code.size + 1) stop).bind
      (headBefore? code pairing inClass (code.keywordBefore brace "try")) <;> rfl

end Wedge.Cleaves

end Quell
