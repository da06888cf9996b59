import Quell.Proofs.LineBreak
import Quell.Proofs.Lexing

/-!
# Proofs/LineEnding — the lexer under the other line ending

Every token takes the same stretch of a buffer and of its `crlf` (`scan_crlf`), so both have the
same tokens (`tokenize_crlf`).  Quotes are the exception: a backslash in them takes along one byte,
not one line break (`escapesNewline`).
-/

namespace Quell

namespace Lexer

open Bytes

/-! ## One token -/

/-- **A quote of the token escapes a newline**: the token is a directive with such quotes, or a
literal that runs over a line and is no raw string. -/
def scanEscapes (fresh : Bool) (b : UInt8) (rest : Bytes) : Bool :=
  if b == Byte.hash && fresh then directiveEscapes .plain [b] rest
  else match scan fresh b rest with
    | .ok ⟨.literal, more⟩ => (rest.take more).contains Byte.newline && !opensRaw (b :: rest)
    | _ => false

/-- A directive that escapes no newline in its quotes is widened in the other line ending. -/
theorem scan_directive_crlf {rest : Bytes} (hcr : Byte.carriage ∉ rest)
    (hescape : directiveEscapes .plain [Byte.hash] rest = false) :
    (scan true Byte.hash (crlf rest)).toOption =
      (scan true Byte.hash rest).toOption.map (Extent.widen rest) := by
  have hcr' : Byte.carriage ∉ [Byte.hash].reverse ++ rest :=
    List.not_mem_cons_of_ne_of_not_mem (by decide) hcr
  have hwidth : (directiveWidth .plain [Byte.hash] (crlf rest)).toOption =
      (directiveWidth .plain [Byte.hash] rest).toOption.map (Bytes.widen (Byte.hash :: rest)) :=
    tracks (by rintro q ⟨⟩) [Byte.hash] rest hcr' hescape
  rw [scan_directive, scan_directive]
  rcases cases_of_toOption hwidth with ⟨opened, opened', h, h'⟩ | ⟨w, h, h'⟩
  · rw [h, h']
    rfl
  · have hpos : 1 ≤ w := (directiveWidth_bounds h).1
    obtain ⟨k, rfl⟩ : ∃ k, w = k + 1 := ⟨w - 1, by omega⟩
    rw [widen_cons (by decide)] at h'
    rw [h, h']
    rfl

/-- **A token ends in the same place**, if no quote of it escapes a newline. -/
theorem scan_crlf {fresh : Bool} {b : UInt8} {rest : Bytes} (hb : b ≠ Byte.newline)
    (hcr : Byte.carriage ∉ rest) (hescape : scanEscapes fresh b rest = false) :
    (scan fresh b (crlf rest)).toOption =
      (scan fresh b rest).toOption.map (Extent.widen rest) := by
  cases hhash : b == Byte.hash && fresh with
  | true =>
    obtain ⟨rfl, rfl⟩ : b = Byte.hash ∧ fresh = true := by simpa using hhash
    exact scan_directive_crlf hcr hescape
  | false =>
    have hline : ∀ more, scan fresh b rest = .ok ⟨.literal, more⟩ → Byte.newline ∈ rest.take more →
        opensRaw (b :: rest) = true := by
      intro more hscan hmem
      rw [scanEscapes, hhash, hscan] at hescape
      simpa [hmem] using hescape
    have hcomment := commentExtent?_crlf hcr
    have hsome : (commentExtent? (crlf rest)).isSome = (commentExtent? rest).isSome := by
      simpa using congrArg Option.isSome hcomment
    rw [scan_plain hhash] at hline
    rw [scan_plain hhash, scan_plain hhash, hsome, ← crlf_cons hb, numberWidth_crlf,
      head?_crlf_any (by decide)]
    split_ifs at hline ⊢ with hslash hquote hnumber hname
    · obtain ⟨r, hr⟩ := Option.isSome_iff_exists.mp (Bool.and_eq_true_iff.mp hslash).2
      obtain ⟨r', hr'⟩ := Option.isSome_iff_exists.mp (hsome.trans (by rw [hr]; rfl))
      rw [hr, hr'] at hcomment ⊢
      exact Option.some.inj hcomment
    · have hplain : opensRaw (b :: rest) = false := by
        have hname : ¬Byte.continuesName b = true := by
          rcases Bool.or_eq_true_iff.mp hquote with h | h <;> rw [beq_iff_eq.mp h] <;> decide
        rw [opensRaw, List.takeWhile_cons_of_neg hname]
        decide
      have hwidens : Widens (quotedWidth b) rest := widens_quotedWidth hquote fun n hn hmem => by
        obtain ⟨more, hmore, hin⟩ := literalExtent_newline [] hn hmem
        exact Bool.false_ne_true (hplain.symm.trans (hline more hmore hin))
      exact literalExtent_crlf (settled_quotedWidth hquote) hwidens List.not_mem_nil
    · rw [Except.toOption, Option.map_some, Extent.widen, widen_number]
    · exact wordExtent_crlf (by rw [Byte.continuesName, hname, Bool.true_or]) hcr hline
    · rw [punctuationExtent_crlf hb]
      rfl

/-! ## The whole buffer -/

/-- **A gap stays one.** -/
theorem Gap.crlf {g : Bytes} {nl : Bool} (h : Gap g nl) (hcr : Byte.carriage ∉ g) :
    Gap (Bytes.crlf g) nl := by
  induction h with
  | nil => exact .nil
  | newline _ ih => exact .spacing (by decide) (.newline (ih fun h => hcr (by simp [h])))
  | splice _ ih =>
    rw [crlf_cons (by decide), crlf_newline]
    exact .carriageSplice (ih fun h => hcr (by simp [h]))
  | carriageSplice _ _ => exact absurd (by simp) hcr
  | spacing hb _ ih =>
    rw [crlf_cons (by rintro rfl; exact absurd hb (by decide))]
    exact .spacing hb (ih fun h => hcr (List.mem_cons_of_mem _ h))

theorem crlf_ne_newline (u rest : Bytes) : Bytes.crlf u ≠ Byte.newline :: rest := by
  intro h
  have hhead := congrArg List.head? h
  rw [head?_crlf] at hhead
  cases u with
  | nil => cases hhead
  | cons b u =>
    rw [List.head?_cons, Option.map_some, List.head?_cons, Option.some_inj] at hhead
    split_ifs at hhead with hb
    · exact absurd hhead (by decide)
    · exact hb hhead

/-- Where no gap stands, none comes up. -/
theorem gap_crlf {b : UInt8} {rest : Bytes} (hcr : Byte.carriage ∉ rest)
    (h : gap (b :: rest) = (0, false)) :
    b ≠ Byte.newline ∧ gap (b :: Bytes.crlf rest) = (0, false) := by
  have hnewline : b ≠ Byte.newline := by
    rintro rfl
    rw [gap_newline] at h
    cases h
  have hspacing : ¬Byte.isSpacing b = true := fun hb => by
    rw [gap_spacing hb] at h
    cases h
  have hsplice : ∀ tail, b = Byte.backslash →
      Bytes.crlf rest ≠ Byte.carriage :: Byte.newline :: tail := by
    rintro tail rfl hline
    cases rest with
    | nil => cases hline
    | cons c rest =>
      by_cases hc : c = Byte.newline
      · rw [hc, gap_splice] at h
        cases h
      · rw [crlf_cons hc, List.cons.injEq] at hline
        exact hcr (hline.1 ▸ List.mem_cons_self)
  refine ⟨hnewline, ?_⟩
  rw [gap.eq_5 b _ hnewline (fun tail _ => crlf_ne_newline rest tail) hsplice, if_neg hspacing]

/-- A quote of some token escapes a newline. -/
def escapesFrom : (fuel : Nat) → (fresh : Bool) → Bytes → Bool
  | 0, _, _ => false
  | fuel + 1, fresh, bytes =>
    let (blank, newline) := gap bytes
    match bytes.drop blank with
    | [] => false
    | b :: rest =>
      scanEscapes (fresh || newline) b rest ||
        match scan (fresh || newline) b rest with
        | .error _ => false
        | .ok ⟨_, more⟩ => escapesFrom fuel false (rest.drop more)

/-- **The lexers of both buffers keep in step**: the same tokens, and a fault in both or in
neither. -/
theorem lexAt_crlf {fuel : Nat} (start start' : Nat) {fresh : Bool} {w : Bytes}
    (hfuel : w.length ≤ fuel) (hcr : Byte.carriage ∉ w) (h : escapesFrom fuel fresh w = false) :
    (lexAt start' fresh (Bytes.crlf w)).tokens.map (fun t => (t.kind, t.text)) =
        (lexAt start fresh w).tokens.map (fun t => (t.kind, Bytes.crlf t.text)) ∧
      (lexAt start' fresh (Bytes.crlf w)).fault.isSome = (lexAt start fresh w).fault.isSome := by
  induction fuel generalizing start start' fresh w with
  | zero =>
    rw [List.eq_nil_of_length_eq_zero (Nat.le_zero.mp hfuel)]
    exact ⟨rfl, rfl⟩
  | succ fuel ih =>
    obtain ⟨g, rest, rfl, hgap, hlen, hrest⟩ := exists_gap w
    rw [List.mem_append, not_or] at hcr
    rw [escapesFrom] at h
    dsimp only at h
    rw [hlen, List.drop_left] at h
    rw [crlf_append, lexAt_gap hgap, lexAt_gap (hgap.crlf hcr.1)]
    cases rest with
    | nil => exact ⟨rfl, rfl⟩
    | cons b rest =>
      have hcr' : Byte.carriage ∉ rest := fun h => hcr.2 (List.mem_cons_of_mem b h)
      obtain ⟨hb, hrest'⟩ := gap_crlf hcr' hrest
      obtain ⟨hhere, hlater⟩ := Bool.or_eq_false_iff.mp h
      have hscan := scan_crlf hb hcr' hhere
      rw [crlf_cons hb, lexAt_cons hrest, lexAt_cons hrest']
      rcases cases_of_toOption hscan with ⟨slip, slip', hfirst, hsecond⟩ |
        ⟨⟨kind, more⟩, hfirst, hsecond⟩
      · rw [hfirst, hsecond]
        exact ⟨rfl, rfl⟩
      · obtain ⟨x, tail, rfl, rfl⟩ : ∃ x tail, rest = x ++ tail ∧ x.length = more :=
          ⟨rest.take more, rest.drop more, (List.take_append_drop ..).symm,
            by rw [List.length_take]; exact Nat.min_eq_left (scan_more_le hfirst)⟩
        rw [hfirst] at hlater
        dsimp only at hlater
        rw [List.drop_left] at hlater
        have hnext := ih (start + g.length + 1 + x.length)
          (start' + (Bytes.crlf g).length + 1 + (Bytes.crlf x).length)
          (by simp only [List.length_append, List.length_cons] at hfuel; omega)
          (fun h => hcr' (List.mem_append_right x h)) hlater
        rw [hfirst, hsecond]
        simp only [Extent.widen, widen_append, crlf_append, List.take_left, List.drop_left,
          Lexed.push, List.map_cons, crlf_cons hb]
        exact ⟨congrArg _ hnext.1, hnext.2⟩

/-- **Some quote of the buffer escapes a newline.** -/
def escapesNewline (source : Bytes) : Bool := escapesFrom source.length true source

end Lexer

/-- **Both line endings give the same tokens**, in every buffer in which no quote escapes a
newline. -/
theorem tokenize_crlf {source : Bytes} (hcr : Byte.carriage ∉ source)
    (hquotes : Lexer.escapesNewline source = false) :
    (tokenize (Bytes.crlf source)).toOption.map (·.map fun t => (t.kind, t.text)) =
      (tokenize source).toOption.map (·.map fun t => (t.kind, Bytes.crlf t.text)) := by
  obtain ⟨htokens, hfault⟩ := Lexer.lexAt_crlf 0 0 (Nat.le_refl _) hcr hquotes
  have hresult : ∀ buffer, (tokenize buffer).toOption =
      if (Lexer.lexAt 0 true buffer).fault.isSome then none
      else some (Lexer.lexAt 0 true buffer).tokens := by
    intro buffer
    rw [tokenize, show lex buffer = Lexer.lexAt 0 true buffer from rfl]
    rcases Lexer.lexAt 0 true buffer with ⟨tokens, _ | fault⟩ <;> rfl
  rw [hresult, hresult, hfault]
  split_ifs
  · rfl
  · exact congrArg some htokens

/-- A directive spliced and commented over lines, a spliced comment and a raw string. -/
theorem tokenize_crlf_spliced :
    ∃ source, source = utf8 ("#define A \"\\\"\" \\\n 1 /* \n */ \n// a \\\n b\nx \\\n = "
        ++ "R\"(\n)\"; '\\''\n") ∧
      Byte.carriage ∉ source ∧ Lexer.escapesNewline source = false ∧
      (tokenize source).toOption.map (·.map (·.kind)) =
        some [.directive, .comment, .identifier, .punctuation, .literal, .punctuation, .literal] ∧
      (tokenize (Bytes.crlf source)).toOption.map (·.map fun t => (t.kind, t.text)) =
        (tokenize source).toOption.map (·.map fun t => (t.kind, Bytes.crlf t.text)) :=
  ⟨_, rfl, by decide +kernel, by decide +kernel, by decide +kernel,
    tokenize_crlf (by decide +kernel) (by decide +kernel)⟩

/-- A newline escaped in a literal, or in the quotes of a directive, is escaped in one of the two
line endings only. -/
theorem tokenize_crlf_escaped :
    (tokenize (utf8 "\"a\\\nb\"") = .ok [⟨.literal, utf8 "\"a\\\nb\"", 0⟩] ∧
      tokenize (Bytes.crlf (utf8 "\"a\\\nb\"")) = .error ⟨0, .brokenLiteral .string⟩) ∧
    (tokenize (utf8 "#d \"\\\n\"/*") = .error ⟨7, .openComment⟩ ∧
      tokenize (Bytes.crlf (utf8 "#d \"\\\n\"/*")) =
        .ok [⟨.directive, utf8 "#d \"\\\r\n\"/*", 0⟩]) := by
  decide +kernel

end Quell
