import Mathlib.Data.List.Find
import Mathlib.Data.List.Forall2
import Quell.Proofs.Wedge.Head

/-!
# Proofs/Wedge/Parameter — parameter lists and types away from a wedge

A parameter list that the stretch does not go into moves as a whole, and so does the run of tokens
that names a type.  Inside such a run every index moves by the same distance, so the scans of a list
and of one parameter find the same tokens.
-/

namespace Quell

open Declaration

namespace Wedge

variable {w : Wedge} {a b i : Nat}

/-! ## Clear runs -/

/-- In a clear run the token before moves along. -/
theorem Clear.move_pred (hclear : w.Clear a b) (ha : a < i) (hb : i ≤ b) :
    w.move (i - 1) = w.move i - 1 :=
  Wedge.move_pred (Nat.lt_of_le_of_lt (Nat.zero_le a) ha) (by rcases hclear with h | h <;> omega)

/-- A clear run moves as a whole. -/
theorem Clear.move_add_eq (hclear : w.Clear a b) {k : Nat} (hk : a + k ≤ b) :
    w.move (a + k) = w.move a + k := by
  have := hclear.move_add (Nat.le_add_right a k) hk
  omega

/-- The tokens of a clear run, in order. -/
theorem Clear.indices_move {s : Slice} (hclear : w.Clear s.start s.stop) :
    (w.moveSlice s).indices = s.indices.map w.move := by
  rw [Slice.indices, Slice.indices, Slice.size, Slice.size, moveSlice]
  rcases Nat.le_total s.start s.stop with hle | hle
  · have hstop := hclear.move_add hle (Nat.le_refl s.stop)
    rw [show w.move s.stop - w.move s.start = s.stop - s.start by omega]
    refine List.ext_getElem (by simp) fun k hk _ => ?_
    rw [List.length_range'] at hk
    rw [List.getElem_map, List.getElem_range', List.getElem_range', Nat.one_mul,
      hclear.move_add_eq (by omega)]
  · have := (move_le_iff (w := w)).mpr hle
    rw [Nat.sub_eq_zero_of_le this, Nat.sub_eq_zero_of_le hle]
    rfl

namespace Cleaves

variable {code code' : Code} {pairing pairing' : Pairing}
  (h : w.Cleaves code code' pairing pairing')

include h

theorem hasBefore_of_clear (hclear : w.Clear a b) (ha : a < i) (hb : i ≤ b)
    (test : Token → Bool) : code'.hasBefore (w.move i) test = code.hasBefore i test := by
  obtain ⟨k, rfl⟩ : ∃ k, i = k + 1 := ⟨i - 1, by omega⟩
  rw [hclear.move_succ (Nat.le_of_lt_succ ha) hb]
  exact h.has_move k test

theorem has_succ_of_clear (hclear : w.Clear a b) (ha : a ≤ i) (hb : i < b)
    (test : Token → Bool) : code'.has (w.move i + 1) test = code.has (i + 1) test := by
  rw [← hclear.move_succ ha hb, h.has_move]

/-! ## Types -/

/-- The state of the scan, by where the word that names the type goes. -/
def moveScan (w : Wedge) (s : TypeScan) : TypeScan := { s with last := s.last.map w.move }

/-- A step of the scan for a type notes the same token, moved. -/
theorem typeScan_move (s : TypeScan) (i : Nat) :
    TypeScan.step code' (moveScan w s) (w.move i) = moveScan w (TypeScan.step code s i) := by
  have hlast : (moveScan w s).last.isSome = s.last.isSome := Option.isSome_map
  rw [TypeScan.step, TypeScan.step, h.mark_move, h.mark_move, h.mark_move, h.has_move, hlast]
  rw [show (moveScan w s).angle = s.angle from rfl]
  split_ifs <;> rfl

theorem foldl_typeScan_move (indices : List Nat) (s : TypeScan) :
    (indices.map w.move).foldl (TypeScan.step code') (moveScan w s) =
      moveScan w (indices.foldl (TypeScan.step code) s) := by
  induction indices generalizing s with
  | nil => rfl
  | cons i rest ih => rw [List.map_cons, List.foldl_cons, h.typeScan_move, ih, List.foldl_cons]

omit h in
/-- A step notes its own token or nothing new. -/
theorem last_typeScan_step (s : TypeScan) (i : Nat) :
    (TypeScan.step code s i).last = s.last ∨ (TypeScan.step code s i).last = some i := by
  rw [TypeScan.step]
  split_ifs <;> simp

omit h in
/-- The word that names the type is one of the tokens scanned. -/
theorem mem_of_last {indices : List Nat} {s : TypeScan} {last : Nat}
    (hlast : (indices.foldl (TypeScan.step code) s).last = some last) :
    s.last = some last ∨ last ∈ indices := by
  induction indices generalizing s with
  | nil => exact .inl hlast
  | cons i rest ih =>
    rcases ih hlast with hstep | hmem
    · obtain hsame | hhere : (TypeScan.step code s i).last = s.last ∨ _ := last_typeScan_step s i
      · exact .inl (hsame ▸ hstep)
      · rw [hhere] at hstep
        cases hstep
        exact .inr List.mem_cons_self
    · exact .inr (List.mem_cons_of_mem i hmem)

/-- A chain of names in a clear run starts at the same token, moved. -/
theorem chainStart_of_clear {floor last : Nat} (hclear : w.Clear floor last) :
    chainStart code' (w.move floor) (w.move last) = w.move (chainStart code floor last) := by
  induction last using Nat.strongRecOn with
  | _ last ih =>
    rw [chainStart_eq code', chainStart_eq code]
    rcases Nat.lt_or_ge last (floor + 2) with hlt | hge
    · have hlt' : w.move last < w.move floor + 2 := by
        rcases Nat.lt_or_ge last floor with hbelow | hfloor
        · have := (move_lt_iff (w := w)).mpr hbelow
          omega
        · have := hclear.move_add hfloor (Nat.le_refl last)
          omega
      rw [decide_eq_false (by omega), decide_eq_false (by omega)]
      rfl
    · have hpred := hclear.move_pred (show floor < last by omega) (Nat.le_refl last)
      have hpred' := hclear.move_pred (i := last - 1) (by omega) (by omega)
      have hsum := hclear.move_add (show floor ≤ last by omega) (Nat.le_refl last)
      rw [decide_eq_true hge, decide_eq_true (by omega), Code.markBefore, Code.markBefore,
        Code.nameBefore, Code.nameBefore,
        h.hasBefore_of_clear hclear (by omega) (Nat.le_refl last), ← hpred,
        h.hasBefore_of_clear hclear (by omega) (by omega),
        show w.move last - 2 = w.move last - 1 - 1 by omega, ← hpred, ← hpred',
        show last - 1 - 1 = last - 2 by omega]
      split_ifs
      · exact ih _ (by omega) (hclear.mono (Nat.le_refl floor) (by omega))
      · rfl

omit h in
/-- A chain starts at its floor or later. -/
theorem le_chainStart {floor last : Nat} (hle : floor ≤ last) :
    floor ≤ chainStart code floor last := by
  fun_induction chainStart code floor last with
  | case1 s hchain ih =>
    simp only [Bool.and_eq_true, decide_eq_true_eq] at hchain
    exact ih hchain.1.1
  | case2 s _ => exact hle
  | case3 s _ => exact hle

/-- The chain of names that ends at a token is the same. -/
theorem chain_of_clear {floor last : Nat} (hclear : w.Clear floor (last + 1)) (hle : floor ≤ last) :
    code'.joined (chain code' (w.move floor) (w.move last)) =
      code.joined (chain code floor last) := by
  have hstart : floor ≤ chainStart code floor last := le_chainStart hle
  have hbefore := chainStart_le code floor last
  have hstop := hclear.move_succ hle (Nat.lt_succ_self last)
  rw [chain, chain,
    h.chainStart_of_clear (hclear.mono (Nat.le_refl floor) (Nat.le_succ last))]
  generalize chainStart code floor last = start at hstart hbefore
  simp only [move_lt_iff]
  rcases Nat.eq_or_lt_of_le hstart with rfl | hlt
  · rw [decide_eq_false (Nat.lt_irrefl _), Bool.false_and, Bool.false_and, ← hstop]
    exact h.joined_move hclear
  · rw [Code.markBefore, Code.markBefore, h.hasBefore_of_clear hclear hlt (by omega), ← hstop,
      ← hclear.move_pred hlt (by omega)]
    split_ifs
    · exact h.joined_move (hclear.mono (by omega) (Nat.le_refl _))
    · exact h.joined_move (hclear.mono hstart (Nat.le_refl _))

/-- **A clear run names the same type.** -/
theorem typeOf_of_clear {s : Slice} (hclear : w.Clear s.start s.stop) :
    typeOf code' (w.moveSlice s) = typeOf code s := by
  have hscan : (s.indices.map w.move).foldl (TypeScan.step code') {} =
      moveScan w (s.indices.foldl (TypeScan.step code) {}) := h.foldl_typeScan_move s.indices {}
  rw [typeOf, typeOf, hclear.indices_move, hscan]
  have hmem : ∀ last, (s.indices.foldl (TypeScan.step code) {}).last = some last →
      none = some last ∨ last ∈ s.indices := fun _ => mem_of_last
  generalize s.indices.foldl (TypeScan.step code) {} = scan at hmem
  obtain ⟨angle, last, pointer⟩ := scan
  cases last with
  | none => rfl
  | some last =>
    have hinside := (hmem last rfl).resolve_left (Option.some_ne_none last).symm
    rw [Slice.mem_indices] at hinside
    simp only [moveScan, Option.map_some, h.has_move]
    rw [moveSlice, h.chain_of_clear (hclear.mono (Nat.le_refl _) (by omega)) hinside.1]

/-! ## Lists -/

omit h in
/-- The pieces of a run whose tokens move together. -/
theorem piecesFrom_move {angles : Bool} {stop i' : Nat} {tokens : List Token}
    (hmove : ∀ k ≤ tokens.length, w.move (i + k) = i' + k) (c : Cut) :
    piecesFrom angles (w.move stop) { c with start := w.move c.start } i' tokens =
      (piecesFrom angles stop c i tokens).map w.moveSlice := by
  induction tokens generalizing c i i' with
  | nil =>
    rw [piecesFrom, piecesFrom]
    simp only [move_lt_iff]
    split_ifs <;> rfl
  | cons t rest ih =>
    have ih : ∀ c : Cut,
        piecesFrom angles (w.move stop) { c with start := w.move c.start } (i' + 1) rest =
          (piecesFrom angles stop c (i + 1) rest).map w.moveSlice := by
      refine ih fun k hk => ?_
      have := hmove (k + 1) (by rw [List.length_cons]; omega)
      rw [show i + 1 + k = i + (k + 1) by omega, this]
      omega
    have hhere : w.move i = i' := hmove 0 (Nat.zero_le _)
    have hnext : w.move (i + 1) = i' + 1 := hmove 1 (by rw [List.length_cons]; omega)
    rw [piecesFrom, piecesFrom]
    split_ifs
    · exact ih { c with depth := c.depth + 1 }
    · exact ih { c with depth := c.depth - 1 }
    · exact ih c
    · exact ih { c with angle := c.angle + 1 }
    · exact ih { c with angle := c.angle - 1 }
    · exact ih { c with inDefault := true }
    · rw [List.map_cons, moveSlice, hhere, ← ih, hnext]
    · exact ih c

/-- **A clear list has the same pieces, moved.** -/
theorem pieces_move {angles : Bool} {s : Slice} (hle : s.start ≤ s.stop)
    (hsize : s.stop ≤ code.size) (hclear : w.Clear s.start s.stop) :
    pieces code' angles (w.moveSlice s) = (pieces code angles s).map w.moveSlice := by
  have hlength : (code.slice s).length = s.stop - s.start := by
    rw [Code.slice, Array.length_toList, Array.size_extract, Nat.min_eq_left hsize]
  rw [pieces, pieces]
  exact (congrArg _ (h.slice_move hclear)).trans <| piecesFrom_move (fun k hk => by
    rw [hlength] at hk
    exact hclear.move_add_eq (by omega)) { start := s.start }

omit h in
/-- The pieces lie in the run. -/
theorem bounds_of_mem_piecesFrom {angles : Bool} {stop : Nat} {tokens : List Token} {c : Cut}
    (hstart : c.start ≤ i) (hstop : i + tokens.length = stop) :
    ∀ s ∈ piecesFrom angles stop c i tokens,
      c.start ≤ s.start ∧ s.start ≤ s.stop ∧ s.stop ≤ stop := by
  induction tokens generalizing c i with
  | nil =>
    rw [piecesFrom]
    split_ifs with hlt
    · intro s hs
      rw [List.mem_singleton.mp hs]
      exact ⟨Nat.le_refl _, Nat.le_of_lt hlt, Nat.le_refl _⟩
    · simp
  | cons t rest ih =>
    rw [List.length_cons] at hstop
    have ih : ∀ c : Cut, c.start ≤ i + 1 → ∀ s ∈ piecesFrom angles stop c (i + 1) rest,
        c.start ≤ s.start ∧ s.start ≤ s.stop ∧ s.stop ≤ stop := fun c hc => ih hc (by omega)
    have hnext := Nat.le_succ_of_le hstart
    rw [piecesFrom]
    split_ifs
    · exact ih { c with depth := c.depth + 1 } hnext
    · exact ih { c with depth := c.depth - 1 } hnext
    · exact ih c hnext
    · exact ih { c with angle := c.angle + 1 } hnext
    · exact ih { c with angle := c.angle - 1 } hnext
    · exact ih { c with inDefault := true } hnext
    · intro s hs
      rcases List.mem_cons.mp hs with rfl | hs
      · exact ⟨Nat.le_refl _, hstart, by dsimp only; omega⟩
      · obtain ⟨hfrom, hle, hto⟩ := ih { start := i + 1 } (Nat.le_refl _) s hs
        exact ⟨Nat.le_trans hnext hfrom, hle, hto⟩
    · exact ih c hnext

omit h in
/-- The default of a parameter starts inside it. -/
theorem defaultFrom_le {stop : Nat} {depth : Int} {tokens : List Token}
    (hstop : i + tokens.length ≤ stop) : defaultFrom stop depth i tokens ≤ stop := by
  fun_induction defaultFrom stop depth i tokens with
  | case1 => exact Nat.le_refl _
  | case2 _ _ _ _ _ ih => exact ih (by rw [List.length_cons] at hstop; omega)
  | case3 _ _ _ _ _ _ ih => exact ih (by rw [List.length_cons] at hstop; omega)
  | case4 => omega
  | case5 _ _ _ _ _ _ _ ih => exact ih (by rw [List.length_cons] at hstop; omega)

omit h in
theorem defaultFrom_move {stop i' : Nat} {tokens : List Token}
    (hmove : ∀ k < tokens.length, w.move (i + k) = i' + k) (depth : Int) :
    defaultFrom (w.move stop) depth i' tokens = w.move (defaultFrom stop depth i tokens) := by
  induction tokens generalizing depth i i' with
  | nil => rfl
  | cons t rest ih =>
    have ih : ∀ depth, defaultFrom (w.move stop) depth (i' + 1) rest =
        w.move (defaultFrom stop depth (i + 1) rest) := by
      refine ih fun k hk => ?_
      have := hmove (k + 1) (by rw [List.length_cons]; omega)
      rw [show i + 1 + k = i + (k + 1) by omega, this]
      omega
    rw [defaultFrom, defaultFrom]
    split_ifs
    · exact ih _
    · exact ih _
    · exact (hmove 0 (Nat.succ_pos _)).symm
    · exact ih _

omit h in
/-- The first index that passes, by where it goes. -/
theorem find?_move {indices : List Nat} {test test' : Nat → Bool}
    (hsame : ∀ i ∈ indices, test' (w.move i) = test i) :
    (indices.map w.move).find? test' = (indices.find? test).map w.move := by
  exact List.find?_map.trans (congrArg (Option.map w.move) (List.find?_congr hsame))

/-! ## One parameter -/

omit h in
/-- The declarator before the array bounds, taken apart: the tokens of the declaration start at `a`
and stop before `stop`, the bounds start at `e`. -/
def partsBefore (code : Code) (pairing : Pairing) (maybeUnused : Bool) (a stop e : Nat) : Parts :=
  match (Slice.mk a e).indices.find? fun i =>
      code.mark i "(" && code.has (i + 1) (·.isMarkIn ["*", "&", "^"]) with
  | some opening => ⟨groupName? code pairing opening, ⟨a, stop⟩, .pointer, maybeUnused⟩
  | none =>
    if code.nameAt (e - 1) && 2 ≤ e - a && !code.markBefore (e - 1) "::"
        && (code.slice ⟨a, e - 1⟩).any bearsType then
      ⟨some (e - 1), ⟨a, stop⟩, typeOf code ⟨a, e - 1⟩, maybeUnused⟩
    else ⟨none, ⟨a, stop⟩, typeOf code ⟨a, stop⟩, maybeUnused⟩

/-- The parameter whose declaration starts at `a` and stops before `stop`. -/
def partsFrom (code : Code) (pairing : Pairing) (maybeUnused : Bool) (a stop : Nat) : Parts :=
  if stop ≤ a then ⟨none, ⟨a, a⟩, typeOf code ⟨a, a⟩, maybeUnused⟩
  else partsBefore code pairing maybeUnused a stop (dropBounds code pairing a code.size stop)

omit h in
/-- A parameter is read between its attributes and its default. -/
theorem parameter_eq (s : Slice) : parameter code pairing s =
    partsFrom code pairing (marksUnused (code.slice s))
      (skipAttributes code pairing s.stop code.size s.start)
      (defaultFrom s.stop 0 (skipAttributes code pairing s.stop code.size s.start)
        (code.slice ⟨skipAttributes code pairing s.stop code.size s.start, s.stop⟩)) := rfl

/-- A parameter taken apart, by where its tokens go. -/
def moveParts (w : Wedge) (parts : Parts) : Parts :=
  { parts with name := parts.name.map w.move, decl := w.moveSlice parts.decl }

section

variable {g : Group} (hgroup : pairing.partner g.opening = some g.closing)
  (hclear : w.Clear g.opening g.closing)

include hgroup hclear

/-- The attributes are passed, whatever the fuel. -/
theorem skipAttributes_move {stop fuel fuel' : Nat} (ha : g.opening < a) (hstop : stop ≤ g.closing)
    (hfuel : stop ≤ a + fuel) (hfuel' : w.move stop ≤ w.move a + fuel') :
    skipAttributes code' pairing' (w.move stop) fuel' (w.move a) =
        w.move (skipAttributes code pairing stop fuel a) ∧
      a ≤ skipAttributes code pairing stop fuel a := by
  have hdone : ∀ {code : Code} {pairing : Pairing} {stop fuel a : Nat}, stop ≤ a + 1 →
      skipAttributes code pairing stop fuel a = a := by
    intro code pairing stop fuel a hle
    cases fuel with
    | zero => rfl
    | succ fuel => rw [skipAttributes, decide_eq_false (by omega)]; rfl
  have hend : ∀ {a : Nat}, g.opening < a → stop ≤ a + 1 → w.move stop ≤ w.move a + 1 := by
    intro a ha hle
    rcases Nat.eq_or_lt_of_le hle with rfl | hlt
    · rw [hclear.move_succ (Nat.le_of_lt ha) (by omega)]
    · exact Nat.le_succ_of_le (move_le_iff.mpr (Nat.le_of_lt_succ hlt))
  induction fuel generalizing a fuel' with
  | zero =>
    rw [hdone (hend ha (by omega)), hdone (by omega)]
    exact ⟨rfl, Nat.le_refl a⟩
  | succ fuel ih =>
    rcases Nat.lt_or_ge (a + 1) stop with hlt | hge
    · have hnext := hclear.move_succ (Nat.le_of_lt ha) (by omega)
      have hlt' := (move_lt_iff (w := w)).mpr hlt
      obtain ⟨fuel', rfl⟩ : ∃ m, fuel' = m + 1 := ⟨fuel' - 1, by omega⟩
      rw [skipAttributes, skipAttributes, decide_eq_true hlt, ← hnext, decide_eq_true hlt',
        h.mark_move, h.mark_move]
      split_ifs with hopen
      · simp only [Bool.and_eq_true] at hopen
        obtain ⟨close, hpartner, hbefore, -⟩ := Pairing.exists_closing h.paired .square hopen.1.2
        obtain ⟨-, hinside⟩ := (Pairing.partnered_of_ofCode h.paired).uncrossed _ _ _ _ hgroup
          hpartner ha (by omega)
        have hclose := hclear.move_succ (i := close) (by omega) hinside
        have hafter := (move_lt_iff (w := w)).mpr hbefore
        rw [h.partner_move, hpartner, Option.map_some]
        dsimp only
        rw [← hclose]
        have hrest : w.move stop ≤ w.move (close + 1) + fuel' := by omega
        obtain ⟨hskip, hle⟩ := ih (by omega) (by omega) hrest
        exact ⟨hskip, by omega⟩
      · exact ⟨rfl, Nat.le_refl a⟩
    · rw [hdone (hend ha hge), hdone hge]
      exact ⟨rfl, Nat.le_refl a⟩

omit hgroup in
/-- The array bounds are dropped, whatever the fuel. -/
theorem dropBounds_move {e fuel fuel' : Nat} (ha : g.opening < a) (he : e ≤ g.closing)
    (hfuel : e ≤ a + fuel) (hfuel' : w.move e ≤ w.move a + fuel') :
    dropBounds code' pairing' (w.move a) fuel' (w.move e) =
        w.move (dropBounds code pairing a fuel e) ∧
      dropBounds code pairing a fuel e ≤ e := by
  have hdone : ∀ {code : Code} {pairing : Pairing} {fuel a e : Nat}, e ≤ a →
      dropBounds code pairing a fuel e = e := by
    intro code pairing fuel a e hle
    cases fuel with
    | zero => rfl
    | succ fuel => rw [dropBounds, decide_eq_false (by omega)]; rfl
  induction fuel generalizing e fuel' with
  | zero =>
    rw [hdone (move_le_iff.mpr (by omega)), hdone (by omega)]
    exact ⟨rfl, Nat.le_refl e⟩
  | succ fuel ih =>
    rcases Nat.lt_or_ge a e with hlt | hge
    · have hlt' := (move_lt_iff (w := w)).mpr hlt
      have hmark : code'.markBefore (w.move e) "]" = code.markBefore e "]" :=
        h.hasBefore_of_clear hclear (by omega) he _
      obtain ⟨fuel', rfl⟩ : ∃ m, fuel' = m + 1 := ⟨fuel' - 1, by omega⟩
      rw [dropBounds, dropBounds, decide_eq_true hlt, decide_eq_true hlt', hmark, Bool.true_and]
      split_ifs with hclose
      · obtain ⟨opening, hpartner, hbefore, -⟩ :=
          Pairing.exists_opening h.paired .square (Code.hasBefore_iff.mp hclose).2
        have hafter := (move_lt_iff (w := w)).mpr (show opening < e by omega)
        rw [← hclear.move_pred (by omega) he, h.partner_move, hpartner, Option.map_some]
        simp only [move_lt_iff]
        split_ifs
        · have hrest : w.move opening ≤ w.move a + fuel' := by omega
          obtain ⟨hdrop, hle⟩ := ih (by omega) (by omega) hrest
          exact ⟨hdrop, by omega⟩
        · exact ⟨rfl, Nat.le_refl e⟩
      · exact ⟨rfl, Nat.le_refl e⟩
    · rw [hdone (move_le_iff.mpr hge), hdone hge]
      exact ⟨rfl, Nat.le_refl e⟩

/-- The name in the parentheses of a pointer. -/
theorem groupName?_move {opening : Nat} (hopen : code.mark opening "(" = true)
    (hlt : g.opening < opening) (hinside : opening < g.closing) :
    groupName? code' pairing' (w.move opening) = (groupName? code pairing opening).map w.move := by
  obtain ⟨close, hpartner, hbefore, -⟩ := Pairing.exists_closing h.paired .round hopen
  obtain ⟨-, hclose⟩ := (Pairing.partnered_of_ofCode h.paired).uncrossed _ _ _ _ hgroup hpartner hlt
    hinside
  have hinner : w.Clear (opening + 1) close := hclear.mono (by omega) (by omega)
  rw [groupName?, groupName?, h.partner_move, hpartner, Option.map_some, Option.getD_some,
    Option.getD_some, ← hclear.move_succ (Nat.le_of_lt hlt) hinside,
    ← moveSlice.eq_1 w ⟨opening + 1, close⟩, hinner.indices_move (s := ⟨opening + 1, close⟩),
    ← List.map_reverse, find?_move fun i hi => ?_]
  rw [List.mem_reverse, Slice.mem_indices] at hi
  dsimp only at hi
  have hnext := h.has_succ_of_clear hclear (i := i) (by omega) (by omega) (·.isMark "::")
  rw [h.nameAt_move, Code.mark, Code.mark, hnext]

/-- What stands before the array bounds reads the same. -/
theorem partsBefore_move {e stop : Nat} (ha : g.opening < a) (he : e ≤ stop)
    (hstop : stop ≤ g.closing) (maybeUnused : Bool) :
    partsBefore code' pairing' maybeUnused (w.move a) (w.move stop) (w.move e) =
      moveParts w (partsBefore code pairing maybeUnused a stop e) := by
  have hwhole : w.Clear a stop := hclear.mono (Nat.le_of_lt ha) hstop
  have hrun : w.Clear a e := hwhole.mono (Nat.le_refl a) he
  have hpointed : (Slice.mk (w.move a) (w.move e)).indices.find? (fun i =>
        code'.mark i "(" && code'.has (i + 1) (·.isMarkIn ["*", "&", "^"])) =
      ((Slice.mk a e).indices.find? fun i =>
        code.mark i "(" && code.has (i + 1) (·.isMarkIn ["*", "&", "^"])).map w.move := by
    rw [← moveSlice.eq_1 w ⟨a, e⟩, hrun.indices_move (s := ⟨a, e⟩), find?_move fun i hi => ?_]
    rw [Slice.mem_indices] at hi
    dsimp only at hi
    rw [h.mark_move, h.has_succ_of_clear hrun hi.1 (by omega)]
  rw [partsBefore, partsBefore, hpointed]
  cases hfound : (Slice.mk a e).indices.find? fun i =>
      code.mark i "(" && code.has (i + 1) (·.isMarkIn ["*", "&", "^"]) with
  | some opening =>
    have hopen := List.find?_some hfound
    have hmem := List.mem_of_find?_eq_some hfound
    rw [Slice.mem_indices] at hmem
    rw [Bool.and_eq_true] at hopen
    dsimp only at hmem
    rw [Option.map_some]
    dsimp only
    rw [h.groupName?_move hgroup hclear hopen.1 (by omega) (by omega)]
    rfl
  | none =>
    have htwo : decide (2 ≤ w.move e - w.move a) = decide (2 ≤ e - a) := by
      rw [decide_eq_decide]
      rcases Nat.le_total a e with hle | hle
      · have := hrun.move_add hle (Nat.le_refl e)
        omega
      · have := (move_le_iff (w := w)).mpr hle
        omega
    have htype : typeOf code' ⟨w.move a, w.move stop⟩ = typeOf code ⟨a, stop⟩ :=
      h.typeOf_of_clear (s := ⟨a, stop⟩) hwhole
    rw [Option.map_none]
    dsimp only
    rw [htwo, htype]
    by_cases hlong : 2 ≤ e - a
    · have hlast := hrun.mono (j := e - 1) (Nat.le_refl a) (Nat.sub_le e 1)
      have htype : typeOf code' ⟨w.move a, w.move (e - 1)⟩ = typeOf code ⟨a, e - 1⟩ :=
        h.typeOf_of_clear (s := ⟨a, e - 1⟩) hlast
      rw [← hrun.move_pred (by omega) (Nat.le_refl e), h.nameAt_move, Code.markBefore,
        Code.markBefore, h.hasBefore_of_clear hrun (by omega) (Nat.sub_le e 1),
        h.slice_move hlast, htype]
      split_ifs <;> rfl
    · rw [decide_eq_false hlong, Bool.and_false, Bool.false_and, Bool.false_and, Bool.and_false,
        Bool.false_and, Bool.false_and]
      rfl

/-- **A parameter is taken apart in the same way.** -/
theorem parameter_move {s : Slice} (hstart : g.opening < s.start) (hstop : s.stop ≤ g.closing)
    (hsize : g.closing < code.size) :
    parameter code' pairing' (w.moveSlice s) = moveParts w (parameter code pairing s) := by
  obtain ⟨start, stop⟩ := s
  dsimp only at hstart hstop
  have hmove := w.move_le_add stop
  have hsize' := h.size_eq
  have hslice : ∀ {a : Nat}, g.opening < a →
      code'.slice ⟨w.move a, w.move stop⟩ = code.slice ⟨a, stop⟩ := fun ha =>
    h.slice_move (hclear.mono (Nat.le_of_lt ha) hstop)
  have hfuel : stop ≤ start + code.size := by omega
  have hfuel' : w.move stop ≤ w.move start + code'.size := by omega
  obtain ⟨hskip, hle⟩ := h.skipAttributes_move hgroup hclear hstart hstop hfuel hfuel'
  rw [parameter_eq, parameter_eq, moveSlice, hslice hstart, hskip]
  generalize skipAttributes code pairing stop code.size start = a at hle
  have ha : g.opening < a := by omega
  have hlength : (code.slice ⟨a, stop⟩).length = stop - a := by
    rw [Code.slice, Array.length_toList, Array.size_extract, Nat.min_eq_left (by dsimp only; omega)]
  have hdefault : defaultFrom (w.move stop) 0 (w.move a) (code.slice ⟨a, stop⟩) =
      w.move (defaultFrom stop 0 a (code.slice ⟨a, stop⟩)) :=
    defaultFrom_move (fun k hk => (hclear.mono (Nat.le_of_lt ha) hstop).move_add_eq (by omega)) 0
  have hbound : defaultFrom stop 0 a (code.slice ⟨a, stop⟩) ≤ stop := by
    rcases Nat.le_total a stop with hle | hle
    · exact defaultFrom_le (by omega)
    · rw [List.eq_nil_of_length_eq_zero (hlength.trans (Nat.sub_eq_zero_of_le hle))]
      exact Nat.le_refl stop
  rw [hslice ha, hdefault]
  generalize defaultFrom stop 0 a (code.slice ⟨a, stop⟩) = finish at hbound
  rw [partsFrom, partsFrom]
  simp only [move_le_iff]
  split_ifs with hempty
  · have htype : typeOf code' ⟨w.move a, w.move a⟩ = typeOf code ⟨a, a⟩ :=
      h.typeOf_of_clear (s := ⟨a, a⟩) (Nat.lt_or_ge a w.place).symm
    rw [htype]
    rfl
  · have hmove := w.move_le_add finish
    have hfuel : finish ≤ a + code.size := by omega
    have hfuel' : w.move finish ≤ w.move a + code'.size := by omega
    obtain ⟨hdrop, hle⟩ := h.dropBounds_move hclear ha (by omega) hfuel hfuel'
    rw [hdrop]
    exact h.partsBefore_move hgroup hclear ha hle (by omega) _

end

end Cleaves

/-! ## The parameters of a function -/

/-- **The parameter is the same**, its name where it went. -/
structure Carries (w : Wedge) (p p' : Parameter) : Prop where
  name_eq : p'.name = p.name
  token_eq : p'.token = p.token.map w.move
  type_eq : p'.type = p.type
  maybeUnused_eq : p'.maybeUnused = p.maybeUnused

/-- **A parameter list that the stretch does not go into declares the same.** -/
theorem Cleaves.parameters_move {o o' : Outline}
    (h : w.Cleaves o.code o'.code o.pairing o'.pairing) {head : FunctionHead}
    (hopen : o.code.mark head.params.opening "(" = true)
    (hgroup : o.pairing.partner head.params.opening = some head.params.closing)
    (hclear : w.Clear head.params.opening head.params.closing) :
    List.Forall₂ w.Carries (o.parameters head) (o'.parameters (w.moveHead head)) := by
  obtain ⟨closing, hpartner, hlt, hclose⟩ := Pairing.exists_closing h.paired .round hopen
  obtain rfl : head.params.closing = closing := Option.some.inj (hgroup.symm.trans hpartner)
  have hsize : head.params.closing < o.code.size := by
    obtain ⟨t, ht, -⟩ := (Option.any_eq_true _ _).mp hclose
    exact (Array.getElem?_eq_some_iff.mp ht).1
  have hinner : w.Clear (head.params.opening + 1) head.params.closing :=
    hclear.mono (Nat.le_succ _) (Nat.le_refl _)
  have hlist : (w.moveHead head).params.inner = w.moveSlice head.params.inner := by
    rw [Group.inner, Group.inner, moveSlice, moveHead, moveGroup,
      hclear.move_succ (Nat.le_refl _) hlt]
  have hlength : head.params.opening + 1 + (o.code.slice head.params.inner).length =
      head.params.closing := by
    rw [Code.slice, Array.length_toList, Array.size_extract, Group.inner]
    dsimp only
    omega
  rw [Outline.parameters, Outline.parameters, hlist,
    h.pieces_move (s := head.params.inner) hlt (Nat.le_of_lt hsize) hinner, List.map_map,
    List.forall₂_map_left_iff, List.forall₂_map_right_iff, List.forall₂_same]
  intro piece hpiece
  obtain ⟨hfrom, -, hto⟩ :=
    Cleaves.bounds_of_mem_piecesFrom (Nat.le_refl _) hlength piece hpiece
  have hparts := h.parameter_move hgroup hclear hfrom hto hsize
  simp only [Function.comp_apply, Parameter.ofPiece, hparts]
  constructor
  · dsimp only [Cleaves.moveParts]
    rw [Option.map_map]
    exact Option.map_congr fun token _ => h.name_move token
  · rfl
  · rfl
  · rfl

end Wedge

end Quell
