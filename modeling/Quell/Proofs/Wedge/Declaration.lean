import Quell.Proofs.Floor
import Quell.Proofs.Pieces
import Quell.Proofs.Wedge.Parameter

/-!
# Proofs/Wedge/Declaration — declarations around a wedge

A type is an unbroken run before its name, so it moves as a whole.  The scope that a declaration
stands in may begin where the stretch goes: then its first token is that of the stretch
(`Wedge.reach`), and what came first before comes after a `;` now.  Only the search for the first
declarator of a list counts its steps, and one more of them is needed then: a declaration found
after the stretch was put in was found before.
-/

namespace Quell

open Declaration

namespace Wedge

variable {w : Wedge}

/-- A declaration, by where its tokens go. -/
def moveDecl (w : Wedge) (d : LocalDecl) : LocalDecl := ⟨w.move d.start, w.move d.name, d.type⟩

namespace Cleaves

variable {code code' : Code} {pairing pairing' : Pairing}
  (h : w.Cleaves code code' pairing pairing') {i j k floor name start : Nat}

/-! ## Types -/

/-- At the start of a statement the scan for a type ends. -/
theorem typeStartFrom?_of_ends {limit angle : Nat} (hends : code.hasBefore k endsStatement = true) :
    typeStartFrom? code limit k angle = if angle = 0 then some k else none := by
  obtain ⟨hpos, hends⟩ := Code.hasBefore_iff.mp hends
  obtain ⟨k, rfl⟩ : ∃ m, k = m + 1 := ⟨k - 1, by omega⟩
  rw [Nat.add_sub_cancel] at hends
  have hfail : ∀ {test : Token → Bool}, Inner test → code.has k test = false := fun htest =>
    Bool.not_eq_true _ ▸ fun hpasses =>
      Bool.false_ne_true ((Code.not_endsStatement_of_has htest hpasses).symm.trans hends)
  have hgt : code.mark k ">" = false := hfail (inner_isMark (by decide))
  have hlt : code.mark k "<" = false := hfail (inner_isMark (by decide))
  have hword : code.has k (fun t => t.isName || isSpecifier t
      || t.isMarkIn ["::", "*", "&", "..."]) = false :=
    hfail (.of (fun _ => rfl) (fun _ => rfl) fun _ => rfl)
  rw [typeStartFrom?, hgt, hlt, hends, hword]
  simp only [Bool.false_eq_true, if_false, if_true]
  split_ifs <;> first | rfl | omega

theorem inner_typeToken : Inner fun t =>
    t.isName || isSpecifier t || t.isMarkIn ["::", "*", "&", "..."] :=
  .of (fun _ => rfl) (fun _ => rfl) fun _ => rfl

/-- The way back to the start of a type breaks no statement. -/
theorem unbroken_of_typeStartFrom? {limit angle : Nat}
    (hstart : typeStartFrom? code limit k angle = some start) :
    start ≤ k ∧ code.Unbroken start k := by
  induction k generalizing angle with
  | zero =>
    rw [typeStartFrom?] at hstart
    split_ifs at hstart
    cases hstart
    exact ⟨Nat.le_refl 0, .refl 0⟩
  | succ k ih =>
    have hpass : ∀ {angle : Nat}, typeStartFrom? code limit k angle = some start →
        code.has k endsStatement = false → start ≤ k + 1 ∧ code.Unbroken start (k + 1) :=
      fun hrest hk => ⟨Nat.le_succ_of_le (ih hrest).1, (ih hrest).2.snoc hk⟩
    rw [typeStartFrom?] at hstart
    split_ifs at hstart with hlimit hzero hangle hlt hgt hends hgt hword
    · cases hstart
      exact ⟨Nat.le_refl _, .refl _⟩
    · exact hpass hstart (Code.not_endsStatement_of_mark hlt (by decide))
    · exact hpass hstart (Code.not_endsStatement_of_mark hgt (by decide))
    · exact hpass hstart (Bool.not_eq_true _ ▸ hends)
    · exact hpass hstart (Code.not_endsStatement_of_mark hgt (by decide))
    · exact hpass hstart (Code.not_endsStatement_of_has inner_typeToken hword)
    · cases hstart
      exact ⟨Nat.le_refl _, .refl _⟩

include h

/-- A mark after a name is the same. -/
theorem has_closer_move {words : List String} (hwords : ∀ word ∈ words, utf8 "\x7d" ≠ utf8 word)
    (hname : code.nameAt i = true) :
    code'.has (w.move i + 1) (·.isMarkIn words) = code.has (i + 1) (·.isMarkIn words) :=
  h.has_succ_move
    (fun _ ht => Token.isMarkIn_eq_false fun word hword =>
      Token.isMark_eq_false ht (hwords word hword))
    (fun t ht => by rw [Token.isMarkIn, ht]; rfl) (Code.mark_of_nameAt hname _)

/-- A type starts at the same token, moved. -/
theorem typeStartFrom?_move {limit limit' : Nat} (hk : code.mark k "\x7d" = false)
    (hbounds : Bounds w k limit limit') (angle : Nat) :
    typeStartFrom? code' limit' (w.move k) angle =
      (typeStartFrom? code limit k angle).map w.move := by
  induction k generalizing angle with
  | zero =>
    rw [h.move_zero, typeStartFrom?, typeStartFrom?]
    split_ifs
    · rw [Option.map_some, h.move_zero]
    · rfl
  | succ k ih =>
    by_cases hplace : k + 1 = w.place
    · rw [hplace] at hk ⊢
      obtain ⟨hbefore, hbefore'⟩ := h.hasBefore_place hk
      rw [typeStartFrom?_of_ends hbefore, typeStartFrom?_of_ends hbefore']
      split_ifs <;> rfl
    · have ih : code.has k endsStatement = false → ∀ angle,
          typeStartFrom? code' limit' (w.move k) angle =
            (typeStartFrom? code limit k angle).map w.move := fun hends =>
        ih (Code.mark_of_not_endsStatement hends (by decide)) (hbounds.pred hplace)
      rw [move_succ hplace, typeStartFrom?, typeStartFrom?, h.mark_move, h.mark_move, h.has_move,
        h.has_move]
      simp only [hbounds.iff hplace]
      split_ifs with hlimit hzero hangle hlt hgt hends hgt hword
      · rw [Option.map_some, move_succ hplace]
      · rfl
      · exact ih (Code.not_endsStatement_of_mark hlt (by decide)) _
      · exact ih (Code.not_endsStatement_of_mark hgt (by decide)) _
      · rfl
      · exact ih (Bool.not_eq_true _ ▸ hends) _
      · exact ih (Code.not_endsStatement_of_mark hgt (by decide)) _
      · exact ih (Code.not_endsStatement_of_has inner_typeToken hword) _
      · rw [Option.map_some, move_succ hplace]

omit h in
/-- A limit of so many tokens and a floor cut the scans down at the same tokens. -/
theorem bounds_floor (w : Wedge) (floor k : Nat) :
    Bounds w k (max (k - lookback) floor) (max (w.move k - lookback) (w.reach floor)) := by
  intro j hj hplace
  have hlook := bounds_sub w k lookback j hj hplace
  have hfloor : w.move j ≤ w.reach floor ↔ j ≤ floor := by
    rw [move, reach]
    split_ifs <;> omega
  omega

theorem typeStart?_move (hk : code.mark name "\x7d" = false) :
    typeStart? code' (w.reach floor) (w.move name) = (typeStart? code floor name).map w.move :=
  h.typeStartFrom?_move hk (bounds_floor w floor name) 0

/-- A clear run is a type after exactly if it was one before. -/
theorem isType_move (hclear : w.Clear start name) (hk : code.mark name "\x7d" = false) :
    isType code' ⟨w.move start, w.move name⟩ = isType code ⟨start, name⟩ := by
  have hempty :
      (Slice.mk (w.move start) (w.move name)).isEmpty = (Slice.mk start name).isEmpty := by
    rw [Slice.isEmpty, Slice.isEmpty]
    simp only [move_le_iff]
  rw [isType, isType, hempty, h.slice_move hclear]
  dsimp only
  rw [h.markBefore_move "::" (by decide) hk]

/-- A declaration starts at the head of its scope or after a mark still. -/
theorem atBoundary_move (hk : code.mark start "\x7d" = false) :
    atBoundary code' (w.reach floor) (w.move start) = atBoundary code floor start := by
  have hbefore : code'.hasBefore (w.move start) (·.isMarkIn [";", "\x7b", "\x7d", ":", ",", "("]) =
      code.hasBefore start (·.isMarkIn [";", "\x7b", "\x7d", ":", ",", "("]) := by
    refine h.hasBefore_move_of_true (fun t ht => ?_) hk
    obtain ⟨word, hword, hmark⟩ := Token.isMarkIn_iff.mp ht
    exact Token.isMarkIn_iff.mpr ⟨word, by simp only [List.mem_cons] at hword ⊢; tauto, hmark⟩
  rw [atBoundary, atBoundary, hbefore]
  by_cases hplace : start = w.place
  · -- What stands before the stretch ends, and so does the stretch.
    have hbrace := h.head_of_ne (hplace ▸ hk)
    have hboundary : code.hasBefore start (·.isMarkIn [";", "\x7b", "\x7d", ":", ",", "("]) =
        true := by
      obtain ⟨hpos, hmark⟩ := Code.hasBefore_iff.mp hbrace
      rw [hplace]
      exact Code.hasBefore_iff.mpr ⟨hpos, Code.has_isMarkIn_iff.mpr ⟨"\x7b", by decide, hmark⟩⟩
    rw [hboundary, Bool.or_true, Bool.or_true]
  · have hsame : (w.move start == w.reach floor) = (start == floor) := by
      rw [← reach_of_ne hplace, Bool.eq_iff_iff, beq_iff_eq, beq_iff_eq, reach_inj]
    rw [hsame]

/-! ## Later declarators -/

/-- One step of the search for the start of a statement: it ends, or goes on from an earlier token,
in both codes alike. -/
theorem statementStart?_step (hk : code.mark k "\x7d" = false) (hfloor : floor < k) :
    (∀ fuel, statementStart? code pairing floor (fuel + 1) k = some k ∧
        statementStart? code' pairing' (w.reach floor) (fuel + 1) (w.move k) = some (w.move k)) ∨
      ∃ j < k, code.mark j "\x7d" = false ∧ ∀ fuel,
        statementStart? code pairing floor (fuel + 1) k =
          statementStart? code pairing floor fuel j ∧
        statementStart? code' pairing' (w.reach floor) (fuel + 1) (w.move k) =
          statementStart? code' pairing' (w.reach floor) fuel (w.move j) := by
  have hends : code'.hasBefore (w.move k) (·.isMarkIn [";", "\x7b", "\x7d", ":"]) =
      code.hasBefore k (·.isMarkIn [";", "\x7b", "\x7d", ":"]) := by
    refine h.hasBefore_move_of_true (fun t ht => ?_) hk
    obtain ⟨word, hword, hmark⟩ := Token.isMarkIn_iff.mp ht
    exact Token.isMarkIn_iff.mpr ⟨word, by simp only [List.mem_cons] at hword ⊢; tauto, hmark⟩
  have hgroup : code'.hasBefore (w.move k) (·.isMarkIn [")", "]"]) =
      code.hasBefore k (·.isMarkIn [")", "]"]) :=
    h.hasBefore_move (.of (fun _ => rfl) (fun _ => rfl) fun _ => rfl) hk
  have hfloor' : ¬w.move k ≤ w.reach floor := by
    rw [move, reach]
    split_ifs <;> omega
  have hunfold : ∀ fuel, statementStart? code pairing floor (fuel + 1) k =
      if code.hasBefore k (·.isMarkIn [";", "\x7b", "\x7d", ":"]) then some k
      else if code.hasBefore k (·.isMarkIn [")", "]"]) then
        (pairing.partner (k - 1)).bind (statementStart? code pairing floor fuel)
      else statementStart? code pairing floor fuel (k - 1) := fun fuel => by
    rw [statementStart?, if_neg (Nat.not_le.mpr hfloor)]
    cases pairing.partner (k - 1) <;> rfl
  have hunfold' : ∀ fuel, statementStart? code' pairing' (w.reach floor) (fuel + 1) (w.move k) =
      if code.hasBefore k (·.isMarkIn [";", "\x7b", "\x7d", ":"]) then some (w.move k)
      else if code.hasBefore k (·.isMarkIn [")", "]"]) then
        (pairing'.partner (w.move k - 1)).bind (statementStart? code' pairing' (w.reach floor) fuel)
      else statementStart? code' pairing' (w.reach floor) fuel (w.move k - 1) := fun fuel => by
    rw [statementStart?, if_neg hfloor', hends, hgroup]
    cases pairing'.partner (w.move k - 1) <;> rfl
  simp only [hunfold, hunfold']
  split_ifs with hend hclose
  · exact .inl fun _ => ⟨rfl, rfl⟩
  · obtain ⟨shape, hshape⟩ : ∃ shape : Bracket, code.markBefore k shape.closer = true := by
      obtain ⟨hpos, hmark⟩ := Code.hasBefore_iff.mp hclose
      obtain ⟨word, hword, hmark⟩ := Code.has_isMarkIn_iff.mp hmark
      rcases List.mem_pair.mp hword with rfl | rfl
      · exact ⟨.round, Code.hasBefore_iff.mpr ⟨hpos, hmark⟩⟩
      · exact ⟨.square, Code.hasBefore_iff.mpr ⟨hpos, hmark⟩⟩
    obtain ⟨opening, hpartner, hpartner', hlt, -, hopening⟩ := h.partner_pred_move shape hk hshape
    rw [hpartner, hpartner']
    exact .inr ⟨opening, by omega, hopening, fun _ => ⟨rfl, rfl⟩⟩
  · have hpass : code.has (k - 1) endsStatement = false := by
      rw [← Bool.not_eq_true]
      intro hmark
      obtain ⟨word, hword, hmark⟩ := Code.has_isMarkIn_iff.mp hmark
      exact hend (Code.hasBefore_iff.mpr ⟨by omega, Code.has_isMarkIn_iff.mpr
        ⟨word, by simp only [List.mem_cons] at hword ⊢; tauto, hmark⟩⟩)
    have hplace : k ≠ w.place := by
      rintro rfl
      have hbefore := (Code.hasBefore_iff.mp (h.hasBefore_place hk).1).2
      exact Bool.false_ne_true (hpass.symm.trans hbefore)
    refine .inr ⟨k - 1, by omega, Code.mark_of_not_endsStatement hpass (by decide), fun _ => ?_⟩
    rw [← move_pred (by omega) hplace]
    exact ⟨rfl, rfl⟩

omit h in
theorem statementStart?_of_le {fuel : Nat} (hle : k ≤ floor) :
    statementStart? code pairing floor fuel k = some k := by
  cases fuel <;> rw [statementStart?, if_pos hle]

/-- At or below the floor the search ends: at once, or after one more step where the stretch comes
first in the scope. -/
theorem statementStart?_floor {fuel : Nat} (hk : code.mark k "\x7d" = false) (hle : k ≤ floor) :
    statementStart? code' pairing' (w.reach floor) (fuel + 1) (w.move k) = some (w.move k) ∧
      (floor ≠ w.place → statementStart? code' pairing' (w.reach floor) fuel (w.move k) =
        some (w.move k)) := by
  by_cases hsame : k = w.place ∧ floor = w.place
  · obtain ⟨rfl, rfl⟩ := hsame
    have hwidth := h.width_pos
    refine ⟨?_, fun hne => absurd rfl hne⟩
    rw [statementStart?, if_neg (by rw [move_of_le (Nat.le_refl _), reach_place]; omega)]
    obtain ⟨hpos, hmark⟩ := Code.hasBefore_iff.mp h.markBefore_place
    exact if_pos (Code.hasBefore_iff.mpr
      ⟨hpos, Code.has_isMarkIn_iff.mpr ⟨";", by decide, hmark⟩⟩)
  · have hle' : w.move k ≤ w.reach floor := by
      rw [move, reach]
      split_ifs <;> omega
    exact ⟨statementStart?_of_le hle', fun _ => statementStart?_of_le hle'⟩

/-- **The start that is found after was found before.** -/
theorem statementStart?_of_move {fuel start' : Nat} (hk : code.mark k "\x7d" = false)
    (hfound : statementStart? code' pairing' (w.reach floor) fuel (w.move k) = some start') :
    ∃ start, statementStart? code pairing floor fuel k = some start ∧ start' = w.move start := by
  induction fuel generalizing k with
  | zero =>
    rw [statementStart?] at hfound
    split_ifs at hfound with hle'
    cases hfound
    have hle : k ≤ floor := by
      rw [move, reach] at hle'
      split_ifs at hle' <;> omega
    exact ⟨k, statementStart?_of_le hle, rfl⟩
  | succ fuel ih =>
    rcases Nat.lt_or_ge floor k with hlt | hle
    · rcases h.statementStart?_step hk hlt with hends | ⟨j, -, hj, hstep⟩
      · rw [(hends fuel).2] at hfound
        cases hfound
        exact ⟨k, (hends fuel).1, rfl⟩
      · rw [(hstep fuel).2] at hfound
        rw [(hstep fuel).1]
        exact ih hj hfound
    · rw [(h.statementStart?_floor hk hle).1] at hfound
      cases hfound
      exact ⟨k, statementStart?_of_le hle, rfl⟩

/-- **The start that was found before is found after**, with one more step where the stretch comes
first in the scope. -/
theorem statementStart?_move {fuel : Nat} (hk : code.mark k "\x7d" = false)
    (hfound : statementStart? code pairing floor fuel k = some start) :
    statementStart? code' pairing' (w.reach floor) (fuel + 1) (w.move k) = some (w.move start) ∧
      (floor ≠ w.place →
        statementStart? code' pairing' (w.reach floor) fuel (w.move k) = some (w.move start)) := by
  induction fuel generalizing k with
  | zero =>
    rw [statementStart?] at hfound
    split_ifs at hfound with hle
    cases hfound
    exact h.statementStart?_floor hk hle
  | succ fuel ih =>
    rcases Nat.lt_or_ge floor k with hlt | hle
    · rcases h.statementStart?_step hk hlt with hends | ⟨j, -, hj, hstep⟩
      · rw [(hends fuel).1] at hfound
        cases hfound
        exact ⟨(hends (fuel + 1)).2, fun _ => (hends fuel).2⟩
      · rw [(hstep fuel).1] at hfound
        rw [(hstep fuel).2, (hstep (fuel + 1)).2]
        exact ih hj hfound
    · rw [statementStart?_of_le hle] at hfound
      cases hfound
      exact h.statementStart?_floor hk hle

omit h in
/-- A name after a token of no type has none. -/
theorem typeStart?_self (hword : code.hasBefore name (fun t =>
      t.isName || isSpecifier t || t.isMarkIn ["::", "*", "&", "..."]) = false)
    (hgt : code.markBefore name ">" = false) : typeStart? code floor name = some name := by
  rw [typeStart?]
  cases name with
  | zero => rfl
  | succ name =>
    have hword : code.has name (fun t =>
        t.isName || isSpecifier t || t.isMarkIn ["::", "*", "&", "..."]) = false := hword
    have hgt : code.mark name ">" = false := hgt
    rw [typeStartFrom?, hword, hgt]
    simp only [Nat.lt_irrefl, Bool.false_eq_true, if_false, if_true, ite_self]

omit h in
/-- After a parenthesis or `case` no type stands before the next token. -/
theorem typeStart?_of_before {t : Token} {name : Nat} (ht : code[name]? = some t)
    (hgroup : t.isMarkIn ["(", ")"] = true ∨ t.isKeyword "case" = true) :
    typeStart? code floor (name + 1) = some (name + 1) := by
  have hhas : ∀ test, code.has name test = test t := fun test => by
    rw [Code.has, ht, Option.any_some]
  obtain ⟨kind, text, start⟩ := t
  have hword : code.has name (fun t =>
      t.isName || isSpecifier t || t.isMarkIn ["::", "*", "&", "..."]) = false ∧
      code.mark name ">" = false := by
    rw [Code.mark, hhas, hhas]
    rcases hgroup with hgroup | hcase
    · obtain ⟨word, hword, hmark⟩ := Token.isMarkIn_iff.mp hgroup
      obtain ⟨rfl, rfl⟩ := Token.isMark_iff.mp hmark
      rcases List.mem_pair.mp hword with rfl | rfl
      · exact ⟨rfl, rfl⟩
      · exact ⟨rfl, rfl⟩
    · rw [Token.isKeyword, Bool.and_eq_true, beq_iff_eq, Token.spells, beq_iff_eq] at hcase
      obtain ⟨rfl, rfl⟩ := hcase
      exact ⟨rfl, rfl⟩
  exact typeStart?_self hword.1 hword.2

/-- The token of the stretch before a name in it, and what that says. -/
theorem before_name_chunk {j : Nat} (hj : j < w.chunk.length)
    (hname : code'.nameAt (w.place + j) = true) :
    ∃ m t, w.place + j = m + 1 ∧ code'[m]? = some t ∧
      (t.isMarkIn ["(", ")"] = true ∨ t.isKeyword "case" = true ∨
        t.isMark "::" = true ∧ code'.has (w.place + j + 1) (·.isMarkIn [":", "::"]) = true) := by
  obtain ⟨t, ht, hname⟩ := (Option.any_eq_true _ _).mp hname
  rw [h.getElem?_chunk hj] at ht
  obtain ⟨i, u, rfl, hu, hcases⟩ := h.mute j t ht hname
  refine ⟨w.place + i, u, by omega, by rw [h.getElem?_chunk (by omega), hu], ?_⟩
  rcases hcases with hgroup | hcase | ⟨hcolons, v, hv, hnext⟩
  · exact .inl hgroup
  · exact .inr (.inl hcase)
  · have hlast := (List.getElem?_eq_some_iff.mp hv).1
    refine .inr (.inr ⟨hcolons, ?_⟩)
    rw [Code.has, Nat.add_assoc, h.getElem?_chunk hlast, hv, Option.any_some, hnext]

/-- A name in the stretch is no first declarator. -/
theorem not_declarator_chunk {floor start : Nat} (hstart : start < w.place) {j : Nat}
    (hj : j < w.chunk.length) (hname : code'.nameAt (w.place + j) = true)
    (hnext : code'.has (w.place + j + 1) (·.isMarkIn [";", "=", ",", "(", "\x7b", "["]) = true) :
    typeStart? code' floor (w.place + j) ≠ some start := by
  obtain ⟨m, t, hm, ht, hcases⟩ := h.before_name_chunk hj hname
  have hself : t.isMarkIn ["(", ")"] = true ∨ t.isKeyword "case" = true →
      typeStart? code' floor (w.place + j) ≠ some start := by
    intro hgroup
    rw [hm, typeStart?_of_before ht hgroup, ← hm]
    intro hsame
    have := Option.some.inj hsame
    omega
  rcases hcases with hgroup | hcase | ⟨-, hafter⟩
  · exact hself (.inl hgroup)
  · exact hself (.inr hcase)
  · obtain ⟨word, hword, hmark⟩ := Code.has_isMarkIn_iff.mp hnext
    obtain ⟨other, hother, hmark'⟩ := Code.has_isMarkIn_iff.mp hafter
    have hne : ∀ word ∈ [";", "=", ",", "(", "\x7b", "["], ∀ other ∈ [":", "::"],
        utf8 word ≠ utf8 other := by decide
    exact absurd rfl (Code.ne_of_mark hmark hmark' (hne word hword other hother))

omit h in
/-- The first index of a run that passes, if none in the stretch does. -/
theorem find?_indices_move {stop : Nat} {test test' : Nat → Bool}
    (hsame : ∀ i, start ≤ i → i < stop → test' (w.move i) = test i)
    (hchunk : start < w.place → ∀ j < w.chunk.length, test' (w.place + j) = false) :
    (Slice.mk (w.move start) (w.move stop)).indices.find? test' =
      ((Slice.mk start stop).indices.find? test).map w.move := by
  refine Option.ext fun m => ?_
  rw [Option.map_eq_some_iff]
  simp only [Slice.indices, Slice.size, List.find?_range'_eq_some, List.mem_range'_1]
  have hbelow : ∀ j, w.move start ≤ w.place + j → j < w.chunk.length → start < w.place := by
    intro j hle hj
    by_contra hge
    rw [move_of_le (Nat.le_of_not_lt hge)] at hle
    omega
  constructor
  · rintro ⟨htest, hmem, hfirst⟩
    rcases w.move_or_chunk m with ⟨i, rfl⟩ | ⟨j, hj, rfl⟩
    · have hi : start ≤ i := move_le_iff.mp hmem.1
      have hi' : i < stop := move_lt_iff.mp (show w.move i < w.move stop by omega)
      refine ⟨i, ⟨by rwa [← hsame i hi hi'], by omega, fun j hle hlt => ?_⟩, rfl⟩
      rw [← hsame j hle (by omega)]
      exact hfirst _ (move_le_iff.mpr hle) (move_lt_iff.mpr hlt)
    · rw [hchunk (hbelow j hmem.1 hj) j hj] at htest
      cases htest
  · rintro ⟨i, ⟨htest, hmem, hfirst⟩, rfl⟩
    have hi : i < stop := by omega
    have hmove := (move_lt_iff (w := w)).mpr hi
    have hmove' := (move_le_iff (w := w)).mpr hmem.1
    refine ⟨by rwa [hsame i hmem.1 hi], by omega, fun m hle hlt => ?_⟩
    rcases w.move_or_chunk m with ⟨j, rfl⟩ | ⟨j, hj, rfl⟩
    · have hj := move_lt_iff.mp hlt
      have hj' := move_le_iff.mp hle
      rw [hsame j hj' (by omega)]
      exact hfirst j hj' hj
    · rw [hchunk (hbelow j hle hj) j hj]
      rfl

/-- The first declarator is the same. -/
theorem firstDeclarator?_move {stop : Nat} :
    firstDeclarator? code' (w.reach floor) (w.move start) (w.move stop) =
      (firstDeclarator? code floor start stop).map w.move := by
  refine find?_indices_move (fun j _ _ => ?_) fun hstart j hj => ?_
  · rw [h.nameAt_move]
    cases hname : code.nameAt j with
    | false => rfl
    | true =>
      have hj := Code.mark_of_nameAt hname "\x7d"
      have hnext : code'.has (w.move j + 1) (·.isMarkIn [";", "=", ",", "(", "\x7b", "["]) =
          code.has (j + 1) (·.isMarkIn [";", "=", ",", "(", "\x7b", "["]) :=
        h.has_closer_move (by decide) hname
      have htype : (typeStart? code' (w.reach floor) (w.move j) == some (w.move start)) =
          (typeStart? code floor j == some start) := by
        rw [h.typeStart?_move hj]
        cases typeStart? code floor j with
        | none => rfl
        | some k => rw [Option.map_some, Bool.eq_iff_iff]; simp [move_inj]
      rw [hnext, htype]
      cases hfound : typeStart? code floor j == some start with
      | false => rw [Bool.and_false, Bool.false_and, Bool.false_and]
      | true =>
        have hrun := (unbroken_of_typeStartFrom? (beq_iff_eq.mp hfound)).2
        rw [h.isType_move (h.clear_of_unbroken hrun hj) hj]
  · rw [move_of_lt hstart, ← Bool.not_eq_true]
    simp only [Bool.and_eq_true, beq_iff_eq]
    rintro ⟨⟨⟨hname, hnext⟩, htype⟩, -⟩
    exact h.not_declarator_chunk hstart hj hname hnext htype

omit h in
/-- The search for the first declarator of a list takes all the steps that it is given, so it fails
where one more is needed: the stretch comes first in the scope, and a comma before the name has no
start of its statement in reach. -/
def Strains (w : Wedge) (code : Code) (pairing : Pairing) (floor name : Nat) : Prop :=
  floor = w.place ∧ ∃ comma < name, code.mark comma "," = true ∧
    statementStart? code pairing floor (lookback * 4 - 1) comma = none

/-- **A later declarator that is found after was found before**, and is lost only by one step. -/
theorem laterDeclarator?_move (hk : code.mark name "\x7d" = false) :
    laterDeclarator? code' pairing' (w.reach floor) (w.move name) =
        (laterDeclarator? code pairing floor name).map w.moveDecl ∨
      laterDeclarator? code' pairing' (w.reach floor) (w.move name) = none ∧
        Strains w code pairing floor name := by
  have htest : Inner (·.isMarkIn ["*", "&"]) := .of (fun _ => rfl) (fun _ => rfl) fun _ => rfl
  have hrun : code'.runStart (w.reach floor) (·.isMarkIn ["*", "&"]) (w.move name) =
      w.move (code.runStart floor (·.isMarkIn ["*", "&"]) name) := by
    refine h.runStart_move htest hk fun j _ hplace => ?_
    rw [move, reach]
    split_ifs <;> omega
  have hp := not_closer_runStart htest floor hk
  have hname := @runStart_le code floor (·.isMarkIn ["*", "&"]) name
  rw [laterDeclarator?, laterDeclarator?, hrun]
  generalize code.runStart floor (·.isMarkIn ["*", "&"]) name = p at hp hname
  dsimp only
  rw [h.markBefore_move "," (by decide) hp]
  cases hcomma : code.markBefore p "," with
  | false =>
    rw [Bool.not_false, Bool.or_true, Bool.or_true]
    exact .inl rfl
  | true =>
    obtain ⟨hback, hcomma'⟩ := h.back (inner_isMark (by decide)) hp hcomma
    have hne := h.ne_place_of_hasBefore (fun _ hb => Token.isMark_eq_false hb (by decide)) hp hcomma
    have hsame : (w.move p == w.reach floor) = (p == floor) := by
      rw [← reach_of_ne hne, Bool.eq_iff_iff, beq_iff_eq, beq_iff_eq, reach_inj]
    rw [hsame, ← hback, Bool.not_true, Bool.or_false]
    by_cases hfirst : (p == floor) = true
    · rw [if_pos hfirst, if_pos hfirst]
      exact .inl rfl
    rw [if_neg hfirst, if_neg hfirst]
    cases hstart : statementStart? code pairing floor (lookback * 4) (p - 1) with
    | none =>
      cases hstart' : statementStart? code' pairing' (w.reach floor) (lookback * 4)
          (w.move (p - 1)) with
      | none => exact .inl rfl
      | some start' =>
        obtain ⟨start, hfound, -⟩ := h.statementStart?_of_move hcomma' hstart'
        cases hstart.symm.trans hfound
    | some start =>
      cases hstart' : statementStart? code' pairing' (w.reach floor) (lookback * 4)
          (w.move (p - 1)) with
      | some start' =>
        obtain ⟨other, hfound, rfl⟩ := h.statementStart?_of_move hcomma' hstart'
        cases hstart.symm.trans hfound
        refine .inl ?_
        rw [Option.bind_some, Option.bind_some, h.firstDeclarator?_move, Option.map_map,
          Option.map_map]
        refine Option.map_congr fun first hfirst => ?_
        have htests := List.find?_some hfirst
        simp only [Bool.and_eq_true, beq_iff_eq] at htests
        have hclose := Code.mark_of_nameAt htests.1.1.1 "\x7d"
        have hrun := (unbroken_of_typeStartFrom? htests.1.2).2
        have htype : typeOf code' ⟨w.move start, w.move first⟩ = typeOf code ⟨start, first⟩ :=
          h.typeOf_of_clear (s := ⟨start, first⟩) (h.clear_of_unbroken hrun hclose)
        simp only [Function.comp_apply, moveDecl, htype, move_lt_iff]
      | none =>
        refine .inr ⟨rfl, ?_, p - 1, ?_, (Code.hasBefore_iff.mp hcomma).2, ?_⟩
        · by_contra hfloor
          have hmoved := (h.statementStart?_move hcomma' hstart).2 hfloor
          cases hstart'.symm.trans hmoved
        · have := (Code.hasBefore_iff.mp hcomma).1
          omega
        · cases hshort : statementStart? code pairing floor (lookback * 4 - 1) (p - 1) with
          | none => rfl
          | some other =>
            have hmoved := (h.statementStart?_move hcomma' hshort).1
            cases hstart'.symm.trans hmoved

/-- **A declaration that is found after was found before**, and is lost only by one step. -/
theorem declarationAt?_move {site : Site} :
    declarationAt? code' pairing' (w.move name) (w.reach floor) site =
        (declarationAt? code pairing name floor site).map w.moveDecl ∨
      declarationAt? code' pairing' (w.move name) (w.reach floor) site = none ∧
        Strains w code pairing floor name := by
  rw [declarationAt?, declarationAt?, h.nameAt_move]
  simp only [move_lt_reach_iff]
  cases hname : code.nameAt name with
  | false => exact .inl rfl
  | true =>
    have hk := Code.mark_of_nameAt hname "\x7d"
    have hmember : code'.hasBefore (w.move name) (·.isMarkIn [".", "->", "::"]) =
        code.hasBefore name (·.isMarkIn [".", "->", "::"]) :=
      h.hasBefore_move (.of (fun _ => rfl) (fun _ => rfl) fun _ => rfl) hk
    have hnext : code'.has (w.move name + 1) (·.isMarkIn site.closers) =
        code.has (name + 1) (·.isMarkIn site.closers) :=
      h.has_closer_move (by cases site <;> decide) hname
    rw [hmember, hnext, h.typeStart?_move hk]
    by_cases hreject : (!true || decide (name < floor)) = true
    · rw [if_pos hreject, if_pos hreject]
      exact .inl rfl
    rw [if_neg hreject, if_neg hreject]
    by_cases hdot : code.hasBefore name (·.isMarkIn [".", "->", "::"]) = true
    · rw [if_pos hdot, if_pos hdot]
      exact .inl rfl
    rw [if_neg hdot, if_neg hdot]
    by_cases hclose : (!code.has (name + 1) (·.isMarkIn site.closers)) = true
    · rw [if_pos hclose, if_pos hclose]
      exact .inl rfl
    rw [if_neg hclose, if_neg hclose]
    cases hstart : typeStart? code floor name with
    | none => exact .inl rfl
    | some start =>
      obtain ⟨hle, hrun⟩ := unbroken_of_typeStartFrom? hstart
      have hclear := h.clear_of_unbroken hrun hk
      have htype : typeOf code' ⟨w.move start, w.move name⟩ = typeOf code ⟨start, name⟩ :=
        h.typeOf_of_clear (s := ⟨start, name⟩) hclear
      rw [Option.map_some]
      dsimp only
      rw [h.isType_move hclear hk, h.atBoundary_move (hrun.not_closer hle hk), htype]
      split_ifs
      · exact .inl rfl
      · exact h.laterDeclarator?_move hk
      · exact .inl rfl

omit h in
/-- A name is not declared right after a parenthesis or a `case`: no type ends there. -/
theorem declarationAt?_of_before {t : Token} {site : Site} (ht : code[name]? = some t)
    (hgroup : t.isMarkIn ["(", ")"] = true ∨ t.isKeyword "case" = true) :
    declarationAt? code pairing (name + 1) floor site = none := by
  have hhas : ∀ test, code.has name test = test t := fun test => by
    rw [Code.has, ht, Option.any_some]
  have htests : t.isMarkIn ["*", "&"] = false ∧ t.isMark "," = false := by
    obtain ⟨kind, text, start⟩ := t
    rcases hgroup with hgroup | hcase
    · obtain ⟨word, hword, hmark⟩ := Token.isMarkIn_iff.mp hgroup
      obtain ⟨rfl, rfl⟩ := Token.isMark_iff.mp hmark
      rcases List.mem_pair.mp hword with rfl | rfl
      · exact ⟨rfl, rfl⟩
      · exact ⟨rfl, rfl⟩
    · rw [Token.isKeyword, Bool.and_eq_true, beq_iff_eq] at hcase
      obtain rfl := hcase.1
      exact ⟨rfl, rfl⟩
  have hrun : code.runStart floor (·.isMarkIn ["*", "&"]) (name + 1) = name + 1 := by
    rw [Code.runStart, hhas, htests.1, Bool.and_false, if_neg Bool.false_ne_true]
  have hempty : isType code ⟨name + 1, name + 1⟩ = false := by
    rw [isType, Slice.isEmpty, decide_eq_true (Nat.le_refl _)]
    rfl
  have hlater : laterDeclarator? code pairing floor (name + 1) = none := by
    rw [laterDeclarator?, hrun, Code.markBefore, Code.hasBefore, hhas, htests.2]
    exact if_pos (Bool.or_true _)
  rw [declarationAt?, typeStart?_of_before ht hgroup]
  dsimp only
  rw [hempty, hlater, Bool.false_and, if_neg Bool.false_ne_true, ite_self, ite_self, ite_self,
    ite_self]

/-- **No name in the stretch is declared.** -/
theorem declarationAt?_chunk {site : Site} {floor j : Nat} (hj : j < w.chunk.length)
    (hname : code'.nameAt (w.place + j) = true) :
    declarationAt? code' pairing' (w.place + j) floor site = none := by
  obtain ⟨m, t, hm, ht, hgroup | hcase | ⟨hcolons, -⟩⟩ := h.before_name_chunk hj hname
  · rw [hm, declarationAt?_of_before ht (.inl hgroup)]
  · rw [hm, declarationAt?_of_before ht (.inr hcase)]
  · have hmember : code'.hasBefore (w.place + j) (·.isMarkIn [".", "->", "::"]) = true := by
      rw [hm, Code.hasBefore, Code.has, ht, Option.any_some]
      exact Token.isMarkIn_iff.mpr ⟨"::", by decide, hcolons⟩
    rw [declarationAt?, hmember, if_pos rfl, ite_self]

end Cleaves

end Wedge

end Quell
