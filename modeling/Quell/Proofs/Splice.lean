import Mathlib.Tactic.Common
import Quell.Proofs.Run

/-!
# Proofs/Splice — putting edits in and taking them out are one relation

`Spliced` says how a buffer, a list of edits and an output hang together: stretches of the buffer
with the texts between them.  `apply` computes its last place (`apply_eq_ok_iff`), `revert` its
second (`revert_eq_some_iff`), so each undoes the other on every buffer and every list of edits.

`apply` walks along the buffer, `revert` along the output.  The place of `revert` is that of `apply`
and the shift so far (`revertFrom_eq_unspliceFrom`).
-/

namespace Quell

namespace Edit

/-- **The output of edits put into a buffer**, given from byte `cursor` of the whole on: before each
text stands the stretch of the buffer up to its offset. -/
inductive Spliced : (cursor : Nat) → (rest : Bytes) → List Edit → (output : Bytes) → Prop
  | done (cursor : Nat) (rest : Bytes) : Spliced cursor rest [] rest
  | insert {cursor : Nat} (gap : Bytes) {e : Edit} {rest output : Bytes} {edits : List Edit}
      (place : e.offset = cursor + gap.length) (tail : Spliced e.offset rest edits output) :
      Spliced cursor (gap ++ rest) (e :: edits) (gap ++ (e.text ++ output))

/-! ## One cursor for both -/

/-- Copies `rest`, the output from what was byte `cursor` of the buffer on, with the edits taken
out. -/
def unspliceFrom (cursor : Nat) (rest : Bytes) : List Edit → Option Bytes
  | [] => some rest
  | e :: edits =>
    if e.offset < cursor || rest.length < e.offset - cursor then none
    else
      let inserted := rest.drop (e.offset - cursor)
      if e.text.isPrefixOf inserted then
        (unspliceFrom e.offset (inserted.drop e.text.length) edits).map fun source =>
          rest.take (e.offset - cursor) ++ source
      else none

/-- A stretch that is there is read off. -/
theorem stretch?_of_le {bytes : Bytes} {start stop : Nat} (h : start ≤ stop)
    (hstop : stop ≤ bytes.length) :
    stretch? bytes start stop = some ((bytes.drop start).take (stop - start)) := by
  rw [stretch?, decide_eq_true h, decide_eq_true hstop, Bool.true_and, if_pos rfl,
    List.extract_eq_take_drop]

theorem stretch?_eq_none {bytes : Bytes} {start stop : Nat}
    (h : stop < start ∨ bytes.length < stop) : stretch? bytes start stop = none := by
  rw [stretch?, if_neg]
  rw [Bool.and_eq_true, decide_eq_true_eq, decide_eq_true_eq]
  omega

/-- The bytes at a place are a text exactly if the text starts what stands there. -/
theorem stretch?_eq_iff {bytes text : Bytes} {place : Nat} (h : place ≤ bytes.length) :
    stretch? bytes place (place + text.length) = some text ↔
      text.isPrefixOf (bytes.drop place) = true := by
  rw [List.isPrefixOf_iff_prefix]
  constructor
  · intro htext
    rw [stretch?] at htext
    split_ifs at htext
    rw [← Option.some.inj htext]
    exact List.take_prefix _ _
  · rintro ⟨tail, htail⟩
    have hlength := congrArg List.length htail
    rw [List.length_append, List.length_drop] at hlength
    rw [stretch?_of_le (by omega) (by omega), Nat.add_sub_cancel_left, ← htail, List.take_left]

/-- Reading a text off goes on exactly where the text starts what stands there. -/
theorem bind_stretch? {α : Type} {bytes text : Bytes} {place : Nat} (h : place ≤ bytes.length)
    (next : Option α) :
    ((stretch? bytes place (place + text.length)).bind fun found =>
        if found == text then next else none) =
      if text.isPrefixOf (bytes.drop place) then next else none := by
  by_cases htext : stretch? bytes place (place + text.length) = some text
  · rw [htext, Option.bind_some, beq_self_eq_true, if_pos rfl,
      if_pos ((stretch?_eq_iff h).mp htext)]
  · rw [if_neg (mt (stretch?_eq_iff h).mpr htext)]
    cases hfound : stretch? bytes place (place + text.length) with
    | none => rfl
    | some found =>
      rw [hfound, Option.some.injEq] at htext
      rw [Option.bind_some, if_neg (by simpa using htext)]

/-- **The cursor in the output is the one in the buffer, and the shift.** -/
theorem revertFrom_eq_unspliceFrom (output : Bytes) (cursor shift : Nat) (edits : List Edit)
    (h : cursor + shift ≤ output.length) :
    revertFrom output (cursor + shift) shift edits =
      unspliceFrom cursor (output.drop (cursor + shift)) edits := by
  induction edits generalizing cursor shift with
  | nil =>
    rw [revertFrom, stretch?_of_le h (Nat.le_refl _), unspliceFrom, ← List.length_drop,
      List.take_length]
  | cons e edits ih =>
    rw [revertFrom, unspliceFrom, List.length_drop]
    dsimp only
    by_cases hplace : cursor ≤ e.offset ∧ e.offset + shift ≤ output.length
    · obtain ⟨hle, hin⟩ := hplace
      have hgap : e.offset + shift - (cursor + shift) = e.offset - cursor := by omega
      have hdrop : (output.drop (cursor + shift)).drop (e.offset - cursor) =
          output.drop (e.offset + shift) := by
        rw [List.drop_drop]
        exact congrArg (output.drop ·) (by omega)
      have hbounds : ¬(decide (e.offset < cursor) ||
          decide (output.length - (cursor + shift) < e.offset - cursor)) = true := by
        simp only [Bool.or_eq_true, decide_eq_true_eq]
        omega
      rw [stretch?_of_le (by omega) hin, Option.bind_some, bind_stretch? hin, hgap, hdrop,
        if_neg hbounds]
      split_ifs with hprefix
      · have hfits := (List.isPrefixOf_iff_prefix.mp hprefix).length_le
        rw [List.length_drop] at hfits
        rw [List.drop_drop, Nat.add_assoc, ih e.offset (shift + e.text.length) (by omega)]
      · rfl
    · rw [stretch?_eq_none (by omega), Option.bind_none, if_pos]
      simp only [Bool.or_eq_true, decide_eq_true_eq]
      omega

/-! ## Both cursors follow the relation -/

/-- What is put in is spliced. -/
theorem Spliced.of_spliceFrom {cursor : Nat} {rest output : Bytes} {edits : List Edit}
    (h : spliceFrom cursor rest edits = .ok output) : Spliced cursor rest edits output := by
  induction edits generalizing cursor rest output with
  | nil =>
    cases h
    exact .done cursor rest
  | cons e edits ih =>
    rw [spliceFrom] at h
    split at h
    · cases h
    · rename_i hplace
      simp only [Bool.or_eq_true, decide_eq_true_eq, not_or, Nat.not_lt] at hplace
      cases htail : spliceFrom e.offset (rest.drop (e.offset - cursor)) edits with
      | error fault => rw [htail] at h; cases h
      | ok out =>
        rw [htail] at h
        cases h
        have hgap : e.offset = cursor + (rest.take (e.offset - cursor)).length := by
          rw [List.length_take]
          omega
        have key := Spliced.insert (rest.take (e.offset - cursor)) hgap (ih htail)
        rwa [List.take_append_drop, ← List.append_assoc] at key

/-- What is spliced is put in. -/
theorem Spliced.spliceFrom_eq {cursor : Nat} {rest output : Bytes} {edits : List Edit}
    (h : Spliced cursor rest edits output) : spliceFrom cursor rest edits = .ok output := by
  induction h with
  | done cursor rest => rfl
  | @insert cursor gap e rest output edits place tail ih =>
    have hback : e.offset - cursor = gap.length := by omega
    have hplace : (decide (e.offset < cursor)
        || decide (cursor + (gap ++ rest).length < e.offset)) = false := by
      rw [List.length_append, Bool.or_eq_false_iff, decide_eq_false_iff_not,
        decide_eq_false_iff_not]
      omega
    rw [spliceFrom, hplace, hback, List.drop_left, List.take_left, ih]
    simp [Except.map]

theorem Spliced.of_unspliceFrom {cursor : Nat} {rest output : Bytes} {edits : List Edit}
    (h : unspliceFrom cursor output edits = some rest) : Spliced cursor rest edits output := by
  induction edits generalizing cursor rest output with
  | nil =>
    cases h
    exact .done cursor rest
  | cons e edits ih =>
    rw [unspliceFrom] at h
    split at h
    · cases h
    · rename_i hplace
      simp only [Bool.or_eq_true, decide_eq_true_eq, not_or, Nat.not_lt] at hplace
      dsimp only at h
      split at h
      · rename_i htext
        obtain ⟨tail, htail⟩ := List.isPrefixOf_iff_prefix.mp htext
        obtain ⟨source, hsource, rfl⟩ := Option.map_eq_some_iff.mp h
        rw [← htail, List.drop_left] at hsource
        have hgap : e.offset = cursor + (output.take (e.offset - cursor)).length := by
          rw [List.length_take]
          omega
        have key := Spliced.insert (output.take (e.offset - cursor)) hgap (ih hsource)
        rwa [htail, List.take_append_drop] at key
      · cases h

theorem Spliced.unspliceFrom_eq {cursor : Nat} {rest output : Bytes} {edits : List Edit}
    (h : Spliced cursor rest edits output) : unspliceFrom cursor output edits = some rest := by
  induction h with
  | done cursor rest => rfl
  | @insert cursor gap e rest output edits place tail ih =>
    have hback : e.offset - cursor = gap.length := by omega
    have hplace : (decide (e.offset < cursor)
        || decide ((gap ++ (e.text ++ output)).length < e.offset - cursor)) = false := by
      rw [List.length_append, Bool.or_eq_false_iff, decide_eq_false_iff_not,
        decide_eq_false_iff_not]
      omega
    have htext : e.text.isPrefixOf (e.text ++ output) = true :=
      List.isPrefixOf_iff_prefix.mpr (List.prefix_append _ _)
    rw [unspliceFrom, hplace, hback, List.drop_left, List.take_left]
    simp [htext, ih]

/-- `apply` succeeds exactly on the spliced outputs. -/
theorem apply_eq_ok_iff {source output : Bytes} {edits : List Edit} :
    apply source edits = .ok output ↔ Spliced 0 source edits output :=
  ⟨Spliced.of_spliceFrom, Spliced.spliceFrom_eq⟩

/-- `revert` succeeds exactly on the spliced outputs. -/
theorem revert_eq_some_iff {source output : Bytes} {edits : List Edit} :
    revert output edits = some source ↔ Spliced 0 source edits output := by
  have hcursor := revertFrom_eq_unspliceFrom output 0 0 edits (Nat.zero_le _)
  rw [Nat.add_zero, List.drop_zero] at hcursor
  rw [revert, hcursor]
  exact ⟨Spliced.of_unspliceFrom, Spliced.unspliceFrom_eq⟩

/-! ## Undoing a run -/

/-- **Putting edits in and taking them out are inverse to each other**, whatever the buffer, the
offsets and the texts; so a successful run can always be undone. -/
theorem revert_eq_some_iff_apply_eq_ok (source output : Bytes) (edits : List Edit) :
    (revert output edits = some source ↔ apply source edits = .ok output) ∧
      ∀ (settings : Settings) (t : Transformed),
        transform settings source = .ok t → revert t.output t.edits = some source := by
  refine ⟨revert_eq_some_iff.trans apply_eq_ok_iff.symm, fun settings t h => ?_⟩
  obtain ⟨o, houtline, happlied, -⟩ := transform_eq_ok_iff.mp h
  have hspliced := apply_eq_ok_iff.mp (Transform.applied_eq_ok_iff.mp happlied).2
  rw [Transform.outline_source houtline] at hspliced
  exact revert_eq_some_iff.mpr hspliced

/-- A run with one discard, undone. -/
theorem revert_discard :
    transform {} (utf8 "void g(int a) {}") = .ok ⟨utf8 "void g(int a) { (void) a; }",
      [⟨15, utf8 " (void) a; ", .unusedParamDiscard, ["a"]⟩], []⟩ ∧
    revert (utf8 "void g(int a) { (void) a; }")
      [⟨15, utf8 " (void) a; ", .unusedParamDiscard, ["a"]⟩] = some (utf8 "void g(int a) {}") := by
  have hrun : transform {} (utf8 "void g(int a) {}") = .ok ⟨utf8 "void g(int a) { (void) a; }",
      [⟨15, utf8 " (void) a; ", .unusedParamDiscard, ["a"]⟩], []⟩ := by decide +kernel
  exact ⟨hrun, (revert_eq_some_iff_apply_eq_ok _ [] []).2 {} _ hrun⟩

end Edit

end Quell
