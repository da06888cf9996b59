import Mathlib.Tactic.Common
import Quell.Proofs.Lexing

/-!
# Proofs/Seam — derivations under a change of what stands around them

A derivation may be moved to another offset (`Lexes.move`), cut at one of its tokens
(`Lexes.split`), and given other bytes to follow if these look the same (`Lexes.congr`) or if a
blank ends it (`Lexes.congr_of_trailing`).
-/

namespace Quell

/-- The class and the bytes of a token, without its place. -/
def Token.shape (t : Token) : Kind × Bytes := (t.kind, t.text)

namespace Lexer

/-! ## Where a token can start -/

/-- What follows a backslash splices two lines. -/
def splices (rest : Bytes) : Prop :=
  (∃ tail, rest = Byte.newline :: tail) ∨ ∃ tail, rest = Byte.carriage :: Byte.newline :: tail

/-- Nothing is passed over before a byte that is neither blank nor starts a splice. -/
theorem gap_eq_zero_iff {b : UInt8} {rest : Bytes} : gap (b :: rest) = (0, false) ↔
    b ≠ Byte.newline ∧ Byte.isSpacing b = false ∧ ¬(b = Byte.backslash ∧ splices rest) := by
  constructor
  · intro h
    refine ⟨?_, ?_, ?_⟩
    · rintro rfl
      rw [gap_newline] at h
      cases h
    · by_contra hb
      rw [gap_spacing (by simpa using hb)] at h
      cases h
    · rintro ⟨rfl, ⟨tail, rfl⟩ | ⟨tail, rfl⟩⟩
      · rw [gap_splice] at h
        cases h
      · rw [gap_carriageSplice] at h
        cases h
  · rintro ⟨hnewline, hspacing, hsplice⟩
    rw [gap.eq_5 b rest hnewline (fun tail hb hrest => hsplice ⟨hb, .inl ⟨tail, hrest⟩⟩)
      (fun tail hb hrest => hsplice ⟨hb, .inr ⟨tail, hrest⟩⟩), hspacing, if_neg Bool.false_ne_true]

theorem endsLine_of_splices {rest : Bytes} (h : splices rest) : endsLine rest := .inr h

/-- Texts that show the same both splice the line, or neither does. -/
theorem splices_of_glimpse {v v' : Bytes} (hv : glimpse v = glimpse v') (h : splices v) :
    splices v' := by
  rcases h with ⟨tail, rfl⟩ | ⟨tail, rfl⟩
  · exact .inl (exists_newline_of_glimpse (congrArg (·.take 1) hv))
  · obtain ⟨rest, hrest, htake⟩ := exists_cons_of_glimpse (by decide) (by decide) hv
    obtain ⟨tail', rfl⟩ := exists_newline_of_glimpse htake
    exact .inr ⟨tail', hrest⟩

/-- What follows a token that is not passed over may give way. -/
theorem gap_congr {b : UInt8} {x v v' : Bytes} (h : gap (b :: (x ++ v)) = (0, false))
    (hv : Yields v v') : gap (b :: (x ++ v')) = (0, false) := by
  rw [gap_eq_zero_iff] at h ⊢
  obtain ⟨hnewline, hspacing, hsplice⟩ := h
  refine ⟨hnewline, hspacing, fun ⟨hb, hs⟩ => hsplice ⟨hb, ?_⟩⟩
  exact splices_of_glimpse ((hv.append x).line (.inr (endsLine_of_splices hs))).symm hs

/-! ## Changing the context -/

/-- **The bytes after a stretch may give way to others** that no token can tell from them. -/
theorem Lexes.congr {start : Nat} {fresh fresh' : Bool} {w v v' : Bytes} {tokens : List Token}
    (h : Lexes start fresh w v tokens fresh') (hv : Yields v v') :
    Lexes start fresh w v' tokens fresh' := by
  induction h with
  | nil => exact .nil
  | gap hg _ ih => exact .gap hg (ih hv)
  | @token _ _ _ _ _ w _ _ _ hgap hscan _ ih =>
    have hwv := hv.append w
    exact .token (gap_congr hgap hwv) (scan_congr hscan hwv) (ih hv)

/-- **A stretch may be read at any offset.** -/
theorem Lexes.move {start : Nat} {fresh fresh' : Bool} {w v : Bytes} {tokens : List Token}
    (h : Lexes start fresh w v tokens fresh') (start' : Nat) :
    ∃ tokens', Lexes start' fresh w v tokens' fresh' ∧
      tokens'.map Token.shape = tokens.map Token.shape := by
  induction h generalizing start' with
  | nil => exact ⟨[], .nil, rfl⟩
  | @gap _ _ _ _ g _ _ _ hg _ ih =>
    obtain ⟨tokens', hlexes, hshapes⟩ := ih (start' + g.length)
    exact ⟨tokens', .gap hg hlexes, hshapes⟩
  | @token _ _ _ b x _ _ kind _ hgap hscan _ ih =>
    obtain ⟨tokens', hlexes, hshapes⟩ := ih (start' + 1 + x.length)
    refine ⟨⟨kind, b :: x, start'⟩ :: tokens', .token hgap hscan hlexes, ?_⟩
    rw [List.map_cons, List.map_cons, hshapes]
    rfl

/-- **A stretch cut at one of its tokens**: what stands before it, the token, and what follows. -/
theorem Lexes.split {start : Nat} {fresh fresh' : Bool} {w v : Bytes} {before after : List Token}
    {t : Token} (h : Lexes start fresh w v (before ++ t :: after) fresh') :
    ∃ a b x c mid, w = a ++ (t.text ++ c) ∧ t = ⟨t.kind, b :: x, start + a.length⟩ ∧
      Lexes start fresh a (t.text ++ (c ++ v)) before mid ∧
      Lexer.gap (b :: (x ++ (c ++ v))) = (0, false) ∧
      scan mid b (x ++ (c ++ v)) = .ok ⟨t.kind, x.length⟩ ∧
      Lexes t.stop false c v after fresh' := by
  generalize htokens : before ++ t :: after = tokens at h
  induction h generalizing before with
  | nil => simp at htokens
  | @gap start _ _ _ g _ v _ hg _ ih =>
    obtain ⟨a, b, x, c, mid, rfl, ht, ha, hgap, hscan, hc⟩ := ih htokens
    rw [Nat.add_assoc, ← List.length_append] at ht
    exact ⟨g ++ a, b, x, c, mid, (List.append_assoc ..).symm, ht, .gap hg ha, hgap, hscan, hc⟩
  | @token start fresh _ b x w v kind tokens hgap hscan htail ih =>
    cases before with
    | nil =>
      obtain ⟨rfl, rfl⟩ := List.cons.inj htokens
      refine ⟨[], b, x, w, fresh, rfl, rfl, .nil, hgap, hscan, ?_⟩
      rwa [Token.stop, List.length_cons, show start + (x.length + 1) = start + 1 + x.length by
        omega]
    | cons u before =>
      obtain ⟨rfl, hrest⟩ := List.cons.inj htokens
      obtain ⟨a, b', x', c, mid, rfl, ht, ha, hgap', hscan', hc⟩ := ih hrest
      have hassoc : (a ++ (t.text ++ c)) ++ v = a ++ (t.text ++ (c ++ v)) := by simp
      rw [hassoc] at hgap hscan
      refine ⟨b :: (x ++ a), b', x', c, mid, by simp, ?_, .token hgap hscan ha, hgap', hscan', hc⟩
      rw [show start + (b :: (x ++ a)).length = start + 1 + x.length + a.length by
        simp only [List.length_cons, List.length_append]; omega]
      exact ht

theorem isSpacing_of_isBlank {b : UInt8} (h : Byte.isBlank b = true) :
    Byte.isSpacing b = true := by
  rw [Byte.isSpacing, h]
  rfl

/-- **A stretch that ends in a blank may be followed by anything**, if what followed it
separates. -/
theorem Lexes.congr_of_trailing {start : Nat} {fresh fresh' : Bool} {w v : Bytes}
    {tokens : List Token} (h : Lexes start fresh w v tokens fresh')
    (hw : ∀ b, w.getLast? = some b → trailing b = true) (hv : glimpse v = [Byte.space])
    (u : Bytes) : Lexes start fresh w u tokens fresh' := by
  induction h with
  | nil => exact .nil
  | @gap _ _ _ _ g w _ _ hg _ ih =>
    refine .gap hg (ih (fun b hb => hw b ?_) hv)
    rw [List.getLast?_append, hb]
    rfl
  | @token _ _ _ b x w v _ _ hgap hscan htail ih =>
    rcases w.eq_nil_or_concat with rfl | ⟨w', c, rfl⟩
    · -- The token ends the stretch, but a token before a separating byte ends in no blank.
      rw [List.append_nil] at hw
      rw [List.nil_append] at hgap hscan
      obtain ⟨hnewline, hspacing, -⟩ := gap_eq_zero_iff.mp hgap
      have hb : trailing b = false := by
        rw [trailing, Bool.or_eq_false_iff, beq_eq_false_iff_ne]
        refine ⟨?_, hnewline⟩
        by_contra hblank
        rw [isSpacing_of_isBlank (by simpa using hblank)] at hspacing
        cases hspacing
      obtain ⟨c, hc⟩ : ∃ c, (b :: x).getLast? = some c := ⟨_, List.getLast?_cons⟩
      have := scan_getLast hscan hv hb hc
      rw [hw c hc] at this
      cases this
    · rw [List.concat_eq_append] at hgap hscan htail hw ih ⊢
      have hlast : (b :: (x ++ (w' ++ [c]))).getLast? = some c := by
        rw [← List.append_assoc, ← List.cons_append]
        exact List.getLast?_concat
      have hc := hw c hlast
      have hyields : Yields (w' ++ [c] ++ v) (w' ++ [c] ++ u) := by
        rw [List.append_assoc, List.append_assoc]
        refine .append (.of_glimpse ?_) w'
        rcases separates_of_trailing hc with rfl | hs
        · rfl
        · rw [List.singleton_append, List.singleton_append, glimpse_separates hs,
            glimpse_separates hs]
      refine .token (gap_congr hgap hyields) (scan_congr hscan hyields) (ih (fun d hd => ?_) hv)
      rw [List.getLast?_concat] at hd
      cases hd
      exact hc

end Lexer

end Quell
