import Mathlib.Tactic.Common
import Quell.Proofs.Scan

/-!
# Proofs/Lexing — lexing as a derivation over the bytes

`Lexes` cuts a stretch of bytes into blanks and tokens, one rule at a time, with the bytes after the
stretch as context.  A buffer tokenizes exactly when it has such a derivation
(`tokenize_eq_ok_iff`), and derivations compose (`Lexes.append`): the rest of the theory of the
lexer works on derivations and never on `lexFrom`.
-/

namespace Quell.Lexer

/-! ## Blanks -/

/-- **Blanks and line splices**, and whether they hold a newline outside a splice. -/
inductive Gap : Bytes → (newline : Bool) → Prop
  | nil : Gap [] false
  | newline {g : Bytes} {nl : Bool} : Gap g nl → Gap (Byte.newline :: g) true
  | splice {g : Bytes} {nl : Bool} : Gap g nl → Gap (Byte.backslash :: Byte.newline :: g) nl
  | carriageSplice {g : Bytes} {nl : Bool} :
      Gap g nl → Gap (Byte.backslash :: Byte.carriage :: Byte.newline :: g) nl
  | spacing {b : UInt8} {g : Bytes} {nl : Bool} :
      Byte.isSpacing b = true → Gap g nl → Gap (b :: g) nl

theorem gap_newline (rest : Bytes) : gap (Byte.newline :: rest) = ((gap rest).1 + 1, true) := rfl

theorem gap_splice (rest : Bytes) :
    gap (Byte.backslash :: Byte.newline :: rest) = ((gap rest).1 + 2, (gap rest).2) := rfl

theorem gap_carriageSplice (rest : Bytes) :
    gap (Byte.backslash :: Byte.carriage :: Byte.newline :: rest)
      = ((gap rest).1 + 3, (gap rest).2) := rfl

theorem gap_spacing {b : UInt8} (h : Byte.isSpacing b = true) (rest : Bytes) :
    gap (b :: rest) = ((gap rest).1 + 1, (gap rest).2) := by
  have hnewline : b ≠ Byte.newline := by rintro rfl; exact absurd h (by decide)
  have hbackslash : b ≠ Byte.backslash := by rintro rfl; exact absurd h (by decide)
  rw [gap.eq_5 b rest hnewline (fun _ hb => absurd hb hbackslash)
    (fun _ hb => absurd hb hbackslash), if_pos h]

theorem gap_append {g : Bytes} {nl : Bool} (h : Gap g nl) (rest : Bytes) :
    gap (g ++ rest) = (g.length + (gap rest).1, nl || (gap rest).2) := by
  induction h with
  | nil => simp
  | newline _ ih =>
    simp only [List.cons_append, gap_newline, ih, List.length_cons, Bool.true_or, Prod.mk.injEq,
      and_true]
    omega
  | splice _ ih =>
    simp only [List.cons_append, gap_splice, ih, List.length_cons, Prod.mk.injEq, and_true]
    omega
  | carriageSplice _ ih =>
    simp only [List.cons_append, gap_carriageSplice, ih, List.length_cons, Prod.mk.injEq, and_true]
    omega
  | spacing hb _ ih =>
    simp only [List.cons_append, gap_spacing hb, ih, List.length_cons, Prod.mk.injEq, and_true]
    omega

/-- `gap` takes blanks off the front of a buffer, and leaves none there. -/
theorem exists_gap (bytes : Bytes) : ∃ g rest, bytes = g ++ rest ∧ Gap g (gap bytes).2 ∧
    (gap bytes).1 = g.length ∧ gap rest = (0, false) := by
  fun_induction gap bytes with
  | case1 => exact ⟨[], [], rfl, .nil, rfl, rfl⟩
  | case2 rest ih =>
    obtain ⟨g, tail, rfl, hg, hlen, htail⟩ := ih
    exact ⟨_ :: g, tail, rfl, hg.newline, congrArg (· + 1) hlen, htail⟩
  | case3 rest _ ih =>
    obtain ⟨g, tail, rfl, hg, hlen, htail⟩ := ih
    exact ⟨_ :: _ :: g, tail, rfl, hg.splice, congrArg (· + 2) hlen, htail⟩
  | case4 rest _ ih =>
    obtain ⟨g, tail, rfl, hg, hlen, htail⟩ := ih
    exact ⟨_ :: _ :: _ :: g, tail, rfl, hg.carriageSplice, congrArg (· + 3) hlen, htail⟩
  | case5 b rest _ _ _ hb _ ih =>
    obtain ⟨g, tail, rfl, hg, hlen, htail⟩ := ih
    exact ⟨b :: g, tail, rfl, hg.spacing hb, congrArg (· + 1) hlen, htail⟩
  | case6 b rest hnewline hsplice hcarriage hb =>
    refine ⟨[], b :: rest, rfl, .nil, rfl, ?_⟩
    rw [gap.eq_5 b rest hnewline hsplice hcarriage, if_neg hb]

/-! ## Derivations -/

/-- **The lexer reads the bytes `w`, with `v` after them, as the given tokens**: it starts at byte
`start` of the whole and, if `fresh`, with only blanks before it on the line; `fresh'` says the same
of where `v` begins. -/
inductive Lexes : (start : Nat) → (fresh : Bool) → (w v : Bytes) → List Token → (fresh' : Bool) →
    Prop
  | nil {start : Nat} {fresh : Bool} {v : Bytes} : Lexes start fresh [] v [] fresh
  | gap {start : Nat} {fresh fresh' nl : Bool} {g w v : Bytes} {tokens : List Token} :
      Gap g nl → Lexes (start + g.length) (fresh || nl) w v tokens fresh' →
      Lexes start fresh (g ++ w) v tokens fresh'
  | token {start : Nat} {fresh fresh' : Bool} {b : UInt8} {x w v : Bytes} {kind : Kind}
      {tokens : List Token} :
      Lexer.gap (b :: (x ++ (w ++ v))) = (0, false) →
      scan fresh b (x ++ (w ++ v)) = .ok ⟨kind, x.length⟩ →
      Lexes (start + 1 + x.length) false w v tokens fresh' →
      Lexes start fresh (b :: (x ++ w)) v (⟨kind, b :: x, start⟩ :: tokens) fresh'

/-- Derivations of two stretches in a row make one of both. -/
theorem Lexes.append {start : Nat} {fresh mid fresh' : Bool} {u w v : Bytes}
    {first second : List Token} (hu : Lexes start fresh u (w ++ v) first mid)
    (hw : Lexes (start + u.length) mid w v second fresh') :
    Lexes start fresh (u ++ w) v (first ++ second) fresh' := by
  generalize hc : w ++ v = c at hu
  induction hu with
  | nil => simpa using hw
  | @gap start fresh mid nl g u _ tokens hg _ ih =>
    rw [List.append_assoc]
    refine .gap hg (ih ?_ hc)
    rwa [List.length_append, ← Nat.add_assoc] at hw
  | @token start fresh mid b x u _ kind tokens hgap hscan _ ih =>
    subst hc
    rw [List.cons_append, List.append_assoc, List.cons_append]
    refine .token (by rwa [List.append_assoc]) (by rwa [List.append_assoc]) (ih ?_ rfl)
    have hlen : start + (b :: (x ++ u)).length = start + 1 + x.length + u.length := by
      simp only [List.length_cons, List.length_append]
      omega
    rwa [hlen] at hw

/-! ## The lexer computes derivations -/

/-- Enough fuel is enough. -/
theorem lexFrom_eq_of_length_le (fuel start : Nat) (fresh : Bool) (bytes : Bytes)
    (h : bytes.length ≤ fuel) :
    lexFrom fuel start fresh bytes = lexFrom bytes.length start fresh bytes := by
  induction fuel using Nat.strongRecOn generalizing start fresh bytes with
  | _ fuel ih =>
    cases bytes with
    | nil => cases fuel <;> rfl
    | cons c cs =>
      obtain ⟨fuel, rfl⟩ : ∃ n, fuel = n + 1 := ⟨fuel - 1, by simp at h; omega⟩
      rw [List.length_cons, lexFrom, lexFrom]
      dsimp only
      split
      · rfl
      · rename_i b rest hdrop
        have hshort : rest.length ≤ cs.length := by
          have := congrArg List.length hdrop
          simp only [List.length_drop, List.length_cons] at this
          omega
        split
        · rfl
        · rename_i kind more _
          have hmore : (rest.drop more).length ≤ cs.length := by
            rw [List.length_drop]
            omega
          rw [List.length_cons] at h
          rw [ih fuel (by omega) _ _ _ (by omega)]
          rcases Nat.lt_or_ge cs.length (fuel + 1) with hlt | hge
          · rw [ih cs.length hlt _ _ _ hmore]
          · omega

/-- The lexer on enough fuel. -/
def lexAt (start : Nat) (fresh : Bool) (bytes : Bytes) : Lexed :=
  lexFrom bytes.length start fresh bytes

/-- Lexing starts behind a gap. -/
theorem lexAt_gap {start : Nat} {fresh nl : Bool} {g : Bytes} (hg : Gap g nl) (w : Bytes) :
    lexAt start fresh (g ++ w) = lexAt (start + g.length) (fresh || nl) w := by
  rw [lexAt, lexAt, ← lexFrom_eq_of_length_le (w.length + 1) _ _ w (by omega),
    ← lexFrom_eq_of_length_le ((g ++ w).length + 1) _ _ (g ++ w) (by omega), lexFrom, lexFrom,
    gap_append hg]
  dsimp only
  have hdrop : (g ++ w).drop (g.length + (gap w).1) = w.drop (gap w).1 := by
    rw [← List.drop_drop, List.drop_left]
  rw [hdrop, Bool.or_assoc]
  split
  · rfl
  · rename_i b rest hrest
    split
    · simp [Nat.add_assoc]
    · rename_i kind more _
      have hshort : (rest.drop more).length ≤ w.length := by
        have := congrArg List.length hrest
        simp only [List.length_drop, List.length_cons] at this ⊢
        omega
      rw [lexFrom_eq_of_length_le _ _ _ (rest.drop more) hshort,
        lexFrom_eq_of_length_le (g ++ w).length _ _ (rest.drop more)
          (by rw [List.length_append]; omega)]
      simp [Nat.add_assoc]

/-- The lexer at a byte that is no blank: one token, or a fault. -/
theorem lexAt_cons {start : Nat} {fresh : Bool} {b : UInt8} {rest : Bytes}
    (hgap : gap (b :: rest) = (0, false)) :
    lexAt start fresh (b :: rest) =
      match scan fresh b rest with
      | .error slip => ⟨[], some ⟨start + slip.ahead, slip.cause⟩⟩
      | .ok ⟨kind, more⟩ =>
        (lexAt (start + 1 + more) false (rest.drop more)).push ⟨kind, b :: rest.take more, start⟩
      := by
  rw [lexAt, List.length_cons, lexFrom, hgap]
  simp only [List.drop_zero, Bool.or_false, Nat.add_zero]
  cases scan fresh b rest with
  | error slip => rfl
  | ok extent =>
    dsimp only
    rw [lexFrom_eq_of_length_le _ _ _ (rest.drop extent.more) (by rw [List.length_drop]; omega)]
    rfl

/-- A derivation of the whole rest is what the lexer finds. -/
theorem Lexes.lexAt_eq {start : Nat} {fresh fresh' : Bool} {w : Bytes} {tokens : List Token}
    (h : Lexes start fresh w [] tokens fresh') : lexAt start fresh w = ⟨tokens, none⟩ := by
  generalize hv : ([] : Bytes) = v at h
  induction h with
  | nil => rfl
  | gap hg _ ih => rw [lexAt_gap hg, ih hv]
  | token hgap hscan _ ih =>
    subst hv
    rw [List.append_nil] at hgap hscan
    rw [lexAt_cons hgap, hscan]
    simp only [List.take_left, List.drop_left]
    rw [ih rfl]
    rfl

/-- What the lexer finds without a fault has a derivation. -/
theorem lexes_of_lexAt {start : Nat} {fresh : Bool} {w : Bytes} {tokens : List Token}
    (h : lexAt start fresh w = ⟨tokens, none⟩) :
    ∃ fresh', Lexes start fresh w [] tokens fresh' := by
  induction hn : w.length using Nat.strongRecOn generalizing start fresh w tokens with
  | _ n ih =>
    subst hn
    obtain ⟨g, rest, rfl, hg, -, hrest⟩ := exists_gap w
    rw [lexAt_gap hg] at h
    cases rest with
    | nil =>
      cases h
      exact ⟨_, .gap hg .nil⟩
    | cons b rest =>
      rw [lexAt_cons hrest] at h
      split at h
      · cases h
      · rename_i kind more hscan
        obtain ⟨x, tail, rfl, rfl⟩ : ∃ x tail, rest = x ++ tail ∧ x.length = more :=
          ⟨rest.take more, rest.drop more, (List.take_append_drop ..).symm,
            by rw [List.length_take]; exact Nat.min_eq_left (scan_more_le hscan)⟩
        simp only [List.take_left, List.drop_left, Lexed.push, Lexed.mk.injEq] at h
        obtain ⟨rfl, hfault⟩ := h
        obtain ⟨fresh', htail⟩ := ih tail.length
          (by simp only [List.length_append, List.length_cons]; omega) (by rw [← hfault]) rfl
        refine ⟨fresh', .gap hg (.token ?_ ?_ htail)⟩
        · rwa [List.append_nil]
        · rwa [List.append_nil]

/-- **A buffer tokenizes exactly when it has a derivation.** -/
theorem tokenize_eq_ok_iff {source : Bytes} {tokens : List Token} :
    tokenize source = .ok tokens ↔ ∃ fresh', Lexes 0 true source [] tokens fresh' := by
  have hlex : lex source = lexAt 0 true source := rfl
  constructor
  · intro h
    apply lexes_of_lexAt
    rw [← hlex]
    rw [tokenize] at h
    split at h
    · rename_i heq
      rw [heq, Except.ok.inj h]
    · cases h
  · rintro ⟨fresh', h⟩
    rw [tokenize, hlex, h.lexAt_eq]

/-! ## The layout of tokens -/

/-- Tokens are not empty and lie in the stretch they were read from. -/
theorem Lexes.bounds {start : Nat} {fresh fresh' : Bool} {w v : Bytes} {tokens : List Token}
    (h : Lexes start fresh w v tokens fresh') {t : Token} (ht : t ∈ tokens) :
    start ≤ t.start ∧ t.start < t.stop ∧ t.stop ≤ start + w.length := by
  induction h with
  | nil => cases ht
  | gap _ _ ih =>
    have := ih ht
    rw [List.length_append]
    omega
  | token _ _ _ ih =>
    rcases List.mem_cons.mp ht with rfl | ht
    · simp only [Token.stop, List.length_cons, List.length_append]
      omega
    · have := ih ht
      simp only [List.length_cons, List.length_append]
      omega

/-- **Tokens follow each other without overlap.** -/
theorem Lexes.pairwise {start : Nat} {fresh fresh' : Bool} {w v : Bytes} {tokens : List Token}
    (h : Lexes start fresh w v tokens fresh') :
    tokens.Pairwise fun t u => t.stop ≤ u.start := by
  induction h with
  | nil => exact .nil
  | gap _ _ ih => exact ih
  | token _ _ htail ih =>
    refine List.pairwise_cons.mpr ⟨fun u hu => ?_, ih⟩
    have := (htail.bounds hu).1
    simp only [Token.stop, List.length_cons]
    omega

end Quell.Lexer
