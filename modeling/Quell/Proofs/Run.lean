import Mathlib.Tactic.Common
import Quell.Transform

/-!
# Proofs/Run — what a successful run is made of

A run goes through settings, tokens, brackets, findings and edits in this order.  The lemmas here
take a finished run apart into these stages, so that nothing later unfolds `transform`.
-/

namespace Quell

namespace Outline

/-- An outline is made of tokens whose brackets pair. -/
theorem ofTokens_eq_ok_iff {source : Bytes} {tokens : List Token} {o : Outline} :
    ofTokens source tokens = .ok o ↔
      ∃ pairing, Pairing.ofCode (Code.ofTokens tokens) = .ok pairing ∧
        o = ⟨source, tokens, Code.ofTokens tokens, pairing,
          Forest.ofCode (Code.ofTokens tokens) pairing⟩ := by
  rw [ofTokens]
  cases h : Pairing.ofCode (Code.ofTokens tokens) with
  | error fault => simp
  | ok pairing => simp [eq_comm]

theorem ofSource_eq_ok_iff {source : Bytes} {o : Outline} :
    ofSource source = .ok o ↔
      ∃ tokens, tokenize source = .ok tokens ∧ ofTokens source tokens = .ok o := by
  rw [ofSource]
  cases htokens : tokenize source with
  | error fault => simp
  | ok tokens =>
    cases houtline : ofTokens source tokens with
    | error fault => simp [houtline]
    | ok outline => simp [houtline]

end Outline

namespace Transform

/-- A run has an outline if its settings pass and the buffer has one. -/
theorem outline_eq_ok_iff {settings : Settings} {source : Bytes} {o : Outline} :
    outline settings source = .ok o ↔
      settings.check = .ok () ∧ Outline.ofSource source = .ok o := by
  rw [outline]
  cases settings.check with
  | error fault => simp
  | ok _ => simp

theorem outline_source {settings : Settings} {source : Bytes} {o : Outline}
    (h : outline settings source = .ok o) : o.source = source := by
  obtain ⟨-, hsource⟩ := outline_eq_ok_iff.mp h
  obtain ⟨tokens, -, htokens⟩ := Outline.ofSource_eq_ok_iff.mp hsource
  obtain ⟨pairing, -, rfl⟩ := Outline.ofTokens_eq_ok_iff.mp htokens
  rfl

theorem applied_eq_ok_iff {o : Outline} {settings : Settings} {f : Findings} {edits : List Edit}
    {output : Bytes} :
    applied o settings f = .ok (edits, output) ↔
      Plan.edits o settings f.unused f.coverage.omissions = .ok edits ∧
        Edit.apply o.source edits = .ok output := by
  rw [applied]
  cases hedits : Plan.edits o settings f.unused f.coverage.omissions with
  | error fault => simp
  | ok planned =>
    cases houtput : Edit.apply o.source planned with
    | error fault =>
      simp only [houtput, reduceCtorEq, Except.ok.injEq, false_iff, not_and]
      rintro rfl
      simp [houtput]
    | ok out =>
      simp only [houtput, Except.ok.injEq, Prod.mk.injEq]
      constructor
      · rintro ⟨rfl, rfl⟩
        exact ⟨rfl, houtput⟩
      · rintro ⟨rfl, h⟩
        rw [houtput] at h
        cases h
        exact ⟨rfl, rfl⟩

end Transform

/-- **A run succeeds exactly when every stage does**, and its result is read off the outline. -/
theorem transform_eq_ok_iff {settings : Settings} {source : Bytes} {t : Transformed} :
    transform settings source = .ok t ↔
      ∃ o, Transform.outline settings source = .ok o ∧
        Transform.applied o settings (o.findings settings) = .ok (t.edits, t.output) ∧
        t.warnings =
          Transform.diagnostics source ((o.findings settings).coverage.warnings o) := by
  rw [transform]
  cases houtline : Transform.outline settings source with
  | error fault => simp
  | ok o =>
    dsimp only
    cases happlied : Transform.applied o settings (o.findings settings) with
    | error fault => simp [happlied]
    | ok result =>
      obtain ⟨output, edits, warnings⟩ := t
      obtain ⟨planned, spliced⟩ := result
      simp only [Except.ok.injEq, Transformed.mk.injEq, exists_eq_left', happlied, Prod.mk.injEq]
      tauto

end Quell
