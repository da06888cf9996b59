import Mathlib.Tactic.Common
import Quell.Proofs.Scan

/-!
# Proofs/Crlf — a buffer under the other line ending

`crlf` puts a carriage return before every newline, and `widen` says how wide the front of a buffer
becomes by that.  Names, numbers and marks hold no line ending and stay as they are; a raw string
widens with the lines it runs over (`widens_rawWidth`), and so does every literal and word that
escapes no newline (`literalExtent_crlf`, `wordExtent_crlf`).
-/

namespace Quell

namespace Bytes

/-! ## Both line endings -/

/-- The buffer with a carriage return before every newline. -/
def crlf : Bytes → Bytes
  | [] => []
  | b :: rest =>
    if b = Byte.newline then Byte.carriage :: Byte.newline :: crlf rest else b :: crlf rest

theorem crlf_newline (rest : Bytes) :
    crlf (Byte.newline :: rest) = Byte.carriage :: Byte.newline :: crlf rest := rfl

theorem crlf_cons {b : UInt8} (h : b ≠ Byte.newline) (rest : Bytes) :
    crlf (b :: rest) = b :: crlf rest := if_neg h

theorem crlf_append (u w : Bytes) : crlf (u ++ w) = crlf u ++ crlf w := by
  induction u with
  | nil => rfl
  | cons b u ih =>
    rw [List.cons_append, crlf, crlf, ih]
    split_ifs <;> rfl

/-- A stretch without newlines stays as it is. -/
theorem crlf_eq_self {u : Bytes} (h : Byte.newline ∉ u) : crlf u = u := by
  induction u with
  | nil => rfl
  | cons b u ih =>
    rw [List.mem_cons, not_or] at h
    rw [crlf_cons (Ne.symm h.1), ih h.2]

/-- Carriage returns apart, the same bytes are there. -/
theorem mem_crlf_iff {c : UInt8} (hc : c ≠ Byte.carriage) {u : Bytes} : c ∈ crlf u ↔ c ∈ u := by
  induction u with
  | nil => rfl
  | cons b u ih =>
    rw [crlf]
    split_ifs with hb
    · rw [List.mem_cons, or_iff_right hc, List.mem_cons, List.mem_cons, ih, hb]
    · rw [List.mem_cons, List.mem_cons, ih]

/-- What stands early in the buffer stood no later before. -/
theorem mem_take_crlf {c : UInt8} (hc : c ≠ Byte.carriage) {u : Bytes} {n : Nat}
    (h : c ∈ (crlf u).take n) : c ∈ u.take n := by
  induction u generalizing n with
  | nil => exact h
  | cons b u ih =>
    cases n with
    | zero => exact h
    | succ n =>
      rw [crlf] at h
      rw [List.take_succ_cons, List.mem_cons]
      split_ifs at h with hb
      · rw [List.take_succ_cons, List.mem_cons, or_iff_right hc] at h
        cases n with
        | zero => cases h
        | succ n =>
          rw [List.take_succ_cons, List.mem_cons, ← hb] at h
          exact h.imp_right fun h => List.take_subset_take_left u (Nat.le_succ n) (ih h)
      · rw [List.take_succ_cons, List.mem_cons] at h
        exact h.imp_right ih

theorem head?_crlf (u : Bytes) :
    (crlf u).head? = u.head?.map fun b => if b = Byte.newline then Byte.carriage else b := by
  cases u with
  | nil => rfl
  | cons b u =>
    rw [crlf, List.head?_cons, Option.map_some]
    split_ifs <;> rfl

/-- A byte of no line ending stands in front of both or of neither. -/
theorem head?_crlf_eq_some_iff {c : UInt8} (hc : c ≠ Byte.newline ∧ c ≠ Byte.carriage) {u : Bytes} :
    (crlf u).head? = some c ↔ u.head? = some c := by
  cases u with
  | nil => rfl
  | cons b u =>
    rw [head?_crlf, List.head?_cons, Option.map_some, Option.some_inj, Option.some_inj]
    split_ifs with hb
    · rw [hb]
      exact ⟨fun h => absurd h.symm hc.2, fun h => absurd h.symm hc.1⟩
    · rfl

/-- A test that does not tell a newline from a carriage return gives the same on the first byte. -/
theorem head?_crlf_any {P : UInt8 → Bool} (hP : P Byte.newline = P Byte.carriage) (u : Bytes) :
    (crlf u).head?.any P = u.head?.any P := by
  cases u with
  | nil => rfl
  | cons b u =>
    rw [head?_crlf, List.head?_cons, Option.map_some, Option.any_some, Option.any_some]
    split_ifs with hb
    · rw [hb, hP]
    · rfl

/-- A mark without line endings stands at the front of both or of neither. -/
theorem isPrefixOf_crlf {p : Bytes} (hp : ∀ c ∈ p, c ≠ Byte.newline ∧ c ≠ Byte.carriage)
    (u : Bytes) : p.isPrefixOf (crlf u) = p.isPrefixOf u := by
  induction p generalizing u with
  | nil => rfl
  | cons c p ih =>
    obtain ⟨hc, hp⟩ := List.forall_mem_cons.mp hp
    cases u with
    | nil => rfl
    | cons b u =>
      rw [crlf]
      split_ifs with hb
      · rw [List.isPrefixOf, List.isPrefixOf, hb, beq_false_of_ne hc.1, beq_false_of_ne hc.2]
        rfl
      · rw [List.isPrefixOf, List.isPrefixOf, ih hp]

/-- The width of the first `n` bytes of a buffer after `crlf`. -/
def widen (bytes : Bytes) (n : Nat) : Nat := (crlf (bytes.take n)).length

/-- The width of a front part is its length in the other line ending. -/
theorem widen_append (u w : Bytes) : widen (u ++ w) u.length = (crlf u).length := by
  rw [widen, List.take_left]

theorem widen_append_add (u w : Bytes) (n : Nat) :
    widen (u ++ w) (u.length + n) = (crlf u).length + widen w n := by
  rw [widen, List.take_length_add_append, crlf_append, List.length_append, widen]

/-- A stretch without newlines keeps its width. -/
theorem widen_eq_self {bytes : Bytes} {n : Nat} (h : Byte.newline ∉ bytes.take n)
    (hn : n ≤ bytes.length) : widen bytes n = n := by
  rw [widen, crlf_eq_self h, List.length_take, Nat.min_eq_left hn]

theorem widen_newline (rest : Bytes) (n : Nat) :
    widen (Byte.newline :: rest) (n + 1) = widen rest n + 2 := rfl

theorem widen_cons {b : UInt8} (h : b ≠ Byte.newline) (rest : Bytes) (n : Nat) :
    widen (b :: rest) (n + 1) = widen rest n + 1 := by
  rw [widen, List.take_succ_cons, crlf_cons h, List.length_cons, widen]

/-- A mark without line endings is first found in the same place. -/
theorem indexOf?_crlf {p : Bytes} (hp : ∀ c ∈ p, c ≠ Byte.newline ∧ c ≠ Byte.carriage)
    (hne : p ≠ []) (u : Bytes) : indexOf? p (crlf u) = (indexOf? p u).map (widen u) := by
  induction u with
  | nil =>
    have hempty : p.isEmpty = false := by simpa using hne
    rw [crlf, indexOf?, hempty]
    rfl
  | cons b u ih =>
    have hfront := isPrefixOf_crlf hp (b :: u)
    by_cases hb : b = Byte.newline
    · subst hb
      have hstart : ∀ d, d = Byte.newline ∨ d = Byte.carriage → ∀ w,
          p.isPrefixOf (d :: w) = false := by
        intro d hd w
        cases p with
        | nil => exact absurd rfl hne
        | cons c p =>
          obtain ⟨hc, -⟩ := List.forall_mem_cons.mp hp
          have hcd : c ≠ d := by
            rcases hd with rfl | rfl
            · exact hc.1
            · exact hc.2
          rw [List.isPrefixOf, beq_false_of_ne hcd, Bool.false_and]
      rw [crlf_newline, indexOf?, hstart _ (.inr rfl), indexOf?, hstart _ (.inl rfl), indexOf?,
        hstart _ (.inl rfl), if_neg Bool.false_ne_true, if_neg Bool.false_ne_true,
        if_neg Bool.false_ne_true, ih]
      cases indexOf? p u with
      | none => rfl
      | some k => simp only [Option.map_some, widen_newline]
    · rw [crlf_cons hb] at hfront ⊢
      rw [indexOf?, indexOf?, hfront, ih]
      split_ifs
      · rfl
      · cases indexOf? p u with
        | none => rfl
        | some k => simp only [Option.map_some, widen_cons hb]

end Bytes

namespace Lexer

open Bytes

/-! ## Names and numbers -/

/-- Bytes with a test that fails at a newline hold none. -/
theorem newline_not_mem {u : Bytes} {P : UInt8 → Bool} (hP : P Byte.newline = false)
    (hu : ∀ b ∈ u, P b = true) : Byte.newline ∉ u := fun h =>
  Bool.false_ne_true (hP.symm.trans (hu _ h))

/-- A name is as long as it was. -/
theorem nameWidth_crlf (u : Bytes) : nameWidth (crlf u) = nameWidth u := by
  obtain ⟨y, r, rfl, hy⟩ := exists_nameWidth u
  rw [hy]
  obtain ⟨hnames, hend⟩ := nameWidth_append_eq_iff.mp hy
  rw [crlf_append, crlf_eq_self (newline_not_mem (by decide) hnames)]
  refine nameWidth_append_eq_iff.mpr ⟨hnames, ?_⟩
  rwa [head?_crlf_any (by decide)]

/-- A byte that a test lets through at the front stays there. -/
theorem tail_crlf {P : UInt8 → Bool} (hP : P Byte.newline = false) {u : Bytes}
    (h : u.head?.any P = true) : (crlf u).tail = crlf u.tail := by
  cases u with
  | nil => rfl
  | cons b u =>
    have hb : b ≠ Byte.newline := by
      rintro rfl
      exact Bool.false_ne_true (hP.symm.trans h)
    rw [crlf_cons hb]
    rfl

theorem numberWidth_lineEnd {b : UInt8} (h : b = Byte.newline ∨ b = Byte.carriage) (rest : Bytes) :
    numberWidth (b :: rest) = 0 := by
  have hne : b ≠ Byte.tick ∧ isNumberByte b = false := by
    rcases h with rfl | rfl <;> decide
  refine numberWidth_eq_zero_iff.mpr ⟨hne.2, fun c _ htick => hne.1 ?_⟩
  exact ((List.cons_prefix_cons.mp htick).1).symm

/-- A number is as long as it was. -/
theorem numberWidth_crlf (u : Bytes) : numberWidth (crlf u) = numberWidth u := by
  induction hn : u.length using Nat.strongRecOn generalizing u with
  | _ n ih =>
    subst hn
    cases u with
    | nil => rfl
    | cons b u =>
      by_cases hb : b = Byte.newline
      · rw [hb, crlf_newline, numberWidth_lineEnd (.inr rfl), numberWidth_lineEnd (.inl rfl)]
      · have hrest := ih u.length (by simp) u rfl
        have htail := ih u.tail.length (by rw [List.length_tail, List.length_cons]; omega) _ rfl
        rw [crlf_cons hb, numberWidth_cons, numberWidth_cons, head?_crlf_any (by decide),
          head?_crlf_any (by decide), hrest]
        split_ifs with hexponent _ htick
        · rw [tail_crlf (by decide) (Bool.and_eq_true_iff.mp hexponent).2, htail]
        · rfl
        · rw [tail_crlf (by decide) (Bool.and_eq_true_iff.mp htick).2, htail]
        · rfl

theorem newline_not_mem_number (u : Bytes) : Byte.newline ∉ u.take (numberWidth u) := by
  intro h
  rcases mem_take_numberWidth h with h | h | h
  · exact absurd h (by decide)
  · exact absurd h (by decide)
  · exact absurd h (by decide)

theorem widen_number (b : UInt8) (rest : Bytes) :
    Bytes.widen rest (numberWidth (b :: rest) - 1) = numberWidth (b :: rest) - 1 := by
  have hline := newline_not_mem_number (b :: rest)
  have hlen := numberWidth_le (b :: rest)
  rw [List.length_cons] at hlen
  refine widen_eq_self (fun hmem => hline ?_) (by omega)
  cases hwidth : numberWidth (b :: rest) with
  | zero =>
    rw [hwidth] at hmem
    cases hmem
  | succ k =>
    rw [hwidth] at hmem
    exact List.mem_cons_of_mem b hmem

/-! ## Literals -/

/-- No quoted literal goes on over a newline, in either line ending. -/
theorem quotedWidth_crlf_newline {q : UInt8} (hq : isQuote q = true) (rest : Bytes) :
    (quotedWidth q (crlf (Byte.newline :: rest))).toOption = none := by
  have hne : (Byte.carriage == q) = false := by
    rw [beq_eq_false_iff_ne]
    rintro rfl
    exact absurd hq (by decide)
  rw [crlf_newline, quotedWidth_plain (by decide), hne, quotedWidth_plain (by decide)]
  rfl

theorem toOption_map_eq_none {ε α β : Type} {r : Except ε α} {f : α → β} :
    (r.map f).toOption = none ↔ r.toOption = none := by
  cases r <;> simp [Except.map, Except.toOption]

/-- Two results agree if they are errors, or one is the image of the other. -/
theorem cases_of_toOption {ε α β : Type} {r : Except ε α} {r' : Except ε β} {f : α → β}
    (h : r'.toOption = r.toOption.map f) :
    (∃ e e', r = .error e ∧ r' = .error e') ∨ ∃ a, r = .ok a ∧ r' = .ok (f a) := by
  cases r with
  | error e =>
    cases r' with
    | error e' => exact .inl ⟨e, e', rfl, rfl⟩
    | ok b => cases h
  | ok a =>
    cases r' with
    | error e' => cases h
    | ok b => exact .inr ⟨a, rfl, congrArg Except.ok (Option.some.inj h)⟩

/-- A quoted part that is not closed is closed under neither line ending. -/
theorem quotedWidth_crlf_none {q : UInt8} (hq : isQuote q = true) {u : Bytes}
    (h : (quotedWidth q u).toOption = none) : (quotedWidth q (crlf u)).toOption = none := by
  induction hn : u.length using Nat.strongRecOn generalizing u with
  | _ n ih =>
    subst hn
    match u with
    | [] => exact h
    | b :: rest =>
      by_cases hb : b = Byte.backslash
      · subst hb
        match rest with
        | [] => exact h
        | c :: rest =>
          rw [quotedWidth_escape, toOption_map_eq_none] at h
          rw [crlf_cons (by decide)]
          by_cases hc : c = Byte.newline
          · rw [hc, crlf_newline, quotedWidth_escape, quotedWidth_plain (by decide)]
            rfl
          · rw [crlf_cons hc, quotedWidth_escape, toOption_map_eq_none]
            exact ih rest.length (by simp only [List.length_cons]; omega) h rfl
      · by_cases hnewline : b = Byte.newline
        · rw [hnewline]
          exact quotedWidth_crlf_newline hq rest
        · rw [quotedWidth_plain hb, if_neg (by simpa using hnewline)] at h
          rw [crlf_cons hnewline, quotedWidth_plain hb, if_neg (by simpa using hnewline)]
          split_ifs at h ⊢
          · exact h
          · rw [toOption_map_eq_none] at h ⊢
            exact ih rest.length (by simp) h rfl

/-- A scanner that takes the same stretch under both line endings. -/
def Widens (width : Bytes → Except LexCause Nat) (u : Bytes) : Prop :=
  (width (crlf u)).toOption = (width u).toOption.map (widen u)

/-- A quoted part that holds no newline. -/
theorem widens_quotedWidth {q : UInt8} (hq : isQuote q = true) {u : Bytes}
    (hline : ∀ n, quotedWidth q u = .ok n → Byte.newline ∉ u.take n) :
    Widens (quotedWidth q) u := by
  rw [Widens]
  cases h : quotedWidth q u with
  | error cause => exact quotedWidth_crlf_none hq (by rw [h]; rfl)
  | ok n =>
    obtain ⟨x, v, rfl, rfl, -, hall⟩ := exists_of_quotedWidth h
    have hx := hline _ h
    rw [List.take_left] at hx
    rw [crlf_append, crlf_eq_self hx, hall]
    simp only [Except.toOption, Option.map_some, widen_append, crlf_eq_self hx]

/-- Nothing allows a byte that a delimiter must not hold. -/
theorem rawWidth_forbidden {d : Bytes} (hd : ∀ b ∈ d, (b == Byte.paren) = false)
    (hforbidden : d.any forbiddenDelimiter = true) (r : Bytes) :
    (rawWidth (d ++ Byte.paren :: r)).toOption = none := by
  by_cases hlen : d.length ≤ maxDelimiter
  · rw [rawWidth_append hd hlen, if_pos hforbidden]
    rfl
  · have hnone : ((d ++ Byte.paren :: r).take (maxDelimiter + 1)).findIdx? (· == Byte.paren)
        = none := by
      rw [List.take_append_of_le_length (by omega), List.findIdx?_eq_none_iff]
      exact fun b hb => hd b (List.mem_of_mem_take hb)
    rw [rawWidth, hnone]
    rfl

/-- Without an opening parenthesis in reach there is none under the other line ending. -/
theorem findIdx?_paren_crlf {u : Bytes} {n : Nat}
    (h : (u.take n).findIdx? (· == Byte.paren) = none) :
    ((crlf u).take n).findIdx? (· == Byte.paren) = none := by
  rw [List.findIdx?_eq_none_iff] at h ⊢
  intro b hb
  rw [beq_eq_false_iff_ne]
  rintro rfl
  exact absurd (h _ (mem_take_crlf (by decide) hb)) (by decide)

/-- A bad delimiter is bad under both line endings. -/
theorem rawWidth_forbidden_crlf {d : Bytes} (hd : ∀ b ∈ d, (b == Byte.paren) = false)
    (hforbidden : d.any forbiddenDelimiter = true) (r : Bytes) :
    (rawWidth (crlf d ++ Byte.paren :: crlf r)).toOption = none := by
  refine rawWidth_forbidden (fun b hb => ?_) ?_ (crlf r)
  · rw [beq_eq_false_iff_ne]
    rintro rfl
    exact absurd (hd _ ((mem_crlf_iff (by decide)).mp hb)) (by decide)
  · obtain ⟨b, hb, hbad⟩ := List.any_eq_true.mp hforbidden
    refine List.any_eq_true.mpr ⟨b, (mem_crlf_iff ?_).mpr hb, hbad⟩
    rintro rfl
    exact absurd hbad (by decide)

/-- The closing part of a raw string, and the whole width with it. -/
theorem widen_raw {d closing r : Bytes} {k : Nat} (hd : Byte.newline ∉ d)
    (hclosing : Byte.newline ∉ closing) (hne : closing ≠ []) (h : indexOf? closing r = some k) :
    Bytes.widen (d ++ Byte.paren :: r) (d.length + 1 + k + closing.length) =
      d.length + 1 + Bytes.widen r k + closing.length := by
  obtain ⟨x, v, rfl, hx, ⟨y, rfl⟩, -⟩ := exists_of_indexOf? hne h
  obtain rfl : y.length = k := by
    rw [List.length_append] at hx
    omega
  have hfront : Bytes.widen (y ++ closing ++ v) y.length = (crlf y).length := by
    rw [List.append_assoc, widen_append]
  rw [hfront, Nat.add_assoc, Nat.add_assoc, widen_append_add, crlf_eq_self hd, Nat.add_comm 1,
    widen_cons (by decide), ← List.length_append, widen_append, crlf_append,
    crlf_eq_self hclosing, List.length_append]
  omega

/-- **A raw string may run over lines.** -/
theorem widens_rawWidth {u : Bytes} (hcr : Byte.carriage ∉ u) : Widens rawWidth u := by
  rw [Widens]
  cases hfind : (u.take (maxDelimiter + 1)).findIdx? (· == Byte.paren) with
  | none =>
    rw [rawWidth, rawWidth, hfind, findIdx?_paren_crlf hfind]
    rfl
  | some m =>
    obtain ⟨d, r, rfl, hd, hlen⟩ := exists_delimiter hfind
    rw [crlf_append, crlf_cons (by decide)]
    cases hforbidden : d.any forbiddenDelimiter with
    | true => rw [rawWidth_forbidden hd hforbidden, rawWidth_forbidden_crlf hd hforbidden]; rfl
    | false =>
      have hplain : ∀ b ∈ d, forbiddenDelimiter b = false := by simpa using hforbidden
      have hline : Byte.newline ∉ d := fun h => absurd (hplain _ h) (by decide)
      have hclosing : ∀ c ∈ 41 :: d ++ [Byte.quote], c ≠ Byte.newline ∧ c ≠ Byte.carriage := by
        simp only [List.cons_append, List.forall_mem_cons, List.forall_mem_append]
        refine ⟨by decide, fun c hc => ⟨?_, ?_⟩, by decide, List.forall_mem_nil _⟩
        · rintro rfl
          exact hline hc
        · rintro rfl
          exact hcr (List.mem_append_left _ hc)
      rw [crlf_eq_self hline, rawWidth_append hd hlen, rawWidth_append hd hlen, hforbidden,
        if_neg Bool.false_ne_true, if_neg Bool.false_ne_true, indexOf?_crlf hclosing (by simp)]
      cases hindex : indexOf? (41 :: d ++ [Byte.quote]) r with
      | none => rfl
      | some k =>
        simp only [Option.map_some, Option.elim_some, Except.toOption,
          widen_raw hline (fun h => (hclosing _ h).1 rfl) (by simp) hindex]

theorem newline_not_mem_name (u : Bytes) : Byte.newline ∉ u.take (nameWidth u) := by
  obtain ⟨y, r, rfl, hy⟩ := exists_nameWidth u
  rw [hy, List.take_left]
  exact newline_not_mem (by decide) (nameWidth_append_eq_iff.mp hy).1

/-- The extent of the same token under the other line ending. -/
def Extent.widen (u : Bytes) (e : Extent) : Extent := { e with more := Bytes.widen u e.more }

/-- A literal after the bytes `pre`, which hold no newline. -/
theorem literalExtent_crlf {width : Bytes → Except LexCause Nat} (hsettled : Settled width)
    {u : Bytes} (hwidth : Widens width u) {pre : Bytes} (hpre : Byte.newline ∉ pre) :
    (literalExtent width pre.length (crlf u)).toOption =
      (literalExtent width pre.length u).toOption.map (Extent.widen (pre ++ u)) := by
  rw [literalExtent, literalExtent]
  rcases cases_of_toOption hwidth with ⟨cause, cause', h, h'⟩ | ⟨n, h, h'⟩
  · rw [h, h']
    rfl
  · obtain ⟨x, v, rfl, rfl, -, -⟩ := hsettled _ _ h
    rw [widen_append] at h'
    have hmore : Bytes.widen (pre ++ (x ++ v)) (pre.length + x.length + nameWidth v) =
        pre.length + (crlf x).length + nameWidth v := by
      rw [Nat.add_assoc, widen_append_add, widen_append_add, crlf_eq_self hpre,
        widen_eq_self (newline_not_mem_name v) (nameWidth_le v), Nat.add_assoc]
    rw [h, h']
    simp only [crlf_append, List.drop_left, nameWidth_crlf, Except.toOption, Option.map_some,
      Extent.widen, hmore]

/-! ## Words -/

/-- The word in front of a quote opens a raw string. -/
def opensRaw (text : Bytes) : Bool := rawMarks.contains (text.takeWhile Byte.continuesName)

/-- The same literal opens after a word. -/
theorem opened?_crlf (word u : Bytes) :
    opened? word (crlf u).head? = opened? word u.head? := by
  simp only [opened?, head?_crlf_eq_some_iff (c := Byte.quote) (by decide),
    head?_crlf_eq_some_iff (c := Byte.tick) (by decide)]

theorem newline_ne_of_isQuote {q : UInt8} (h : isQuote q = true) : q ≠ Byte.newline := by
  rintro rfl
  exact absurd h (by decide)

/-- The word at the front is the run of name bytes. -/
theorem takeWhile_name {b : UInt8} {y r : Bytes} (hb : Byte.continuesName b = true)
    (hy : nameWidth (y ++ r) = y.length) :
    (b :: (y ++ r)).takeWhile Byte.continuesName = b :: y := by
  obtain ⟨hnames, hend⟩ := nameWidth_append_eq_iff.mp hy
  have hr : r.takeWhile Byte.continuesName = [] := by
    cases r with
    | nil => rfl
    | cons c r => exact List.takeWhile_cons_of_neg (by simpa using hend)
  rw [List.takeWhile_cons_of_pos hb, List.takeWhile_append_of_pos hnames, hr, List.append_nil]

/-- A newline in the quoted part stands in the literal. -/
theorem literalExtent_newline {q : UInt8} (pre : Bytes) {u : Bytes} {n : Nat}
    (h : quotedWidth q u = .ok n) (hline : Byte.newline ∈ u.take n) : ∃ more,
      literalExtent (quotedWidth q) pre.length u = .ok ⟨.literal, more⟩ ∧
        Byte.newline ∈ (pre ++ u).take more := by
  refine ⟨_, literalExtent_eq_ok_iff.mpr ⟨n, h, rfl, rfl⟩, ?_⟩
  rw [Nat.add_assoc, List.take_length_add_append, List.mem_append]
  exact .inr (List.take_subset_take_left u (Nat.le_add_right ..) hline)

/-- A word, or the literal it opens: no newline stands in one that is not raw. -/
theorem wordExtent_crlf {b : UInt8} {rest : Bytes} (hb : Byte.continuesName b = true)
    (hcr : Byte.carriage ∉ rest)
    (hline : ∀ more, wordExtent b rest = .ok ⟨.literal, more⟩ → Byte.newline ∈ rest.take more →
      opensRaw (b :: rest) = true) :
    (wordExtent b (crlf rest)).toOption = (wordExtent b rest).toOption.map (Extent.widen rest) := by
  obtain ⟨y, r, rfl, hy⟩ := exists_nameWidth rest
  have hnames := (nameWidth_append_eq_iff.mp hy).1
  have hyline : Byte.newline ∉ y := newline_not_mem (by decide) hnames
  have hy' : nameWidth (y ++ crlf r) = y.length := by
    rw [← hy, ← nameWidth_crlf (y ++ r), crlf_append, crlf_eq_self hyline]
  rw [crlf_append, crlf_eq_self hyline, wordExtent_append hy', wordExtent_append hy, opened?_crlf]
  cases hopened : opened? (b :: y) r.head? with
  | none =>
    simp only [Except.toOption, Option.map_some, Extent.widen, widen_append, crlf_eq_self hyline]
  | some width =>
    obtain ⟨q, hnext, hq, hwidth⟩ := opened?_eq_some hopened
    obtain ⟨tail, rfl⟩ := List.head?_eq_some_iff.mp hnext
    have hqline := newline_ne_of_isQuote hq
    have hsettled := (settled_of_opened? hopened).1
    have hwhole : y ++ q :: tail = (y ++ [q]) ++ tail := by rw [List.append_assoc]; rfl
    have hlen : y.length + 1 = (y ++ [q]).length := by simp
    have hwiden : Widens width tail := by
      rcases hwidth with rfl | ⟨rfl, hraw⟩
      · exact widens_rawWidth fun h =>
          hcr (List.mem_append_right y (List.mem_cons_of_mem q h))
      · refine widens_quotedWidth hq fun n hn hmem => ?_
        obtain ⟨more, hmore, hin⟩ := literalExtent_newline (y ++ [q]) hn hmem
        have := hline more (by rw [wordExtent_append hy, hopened, hlen]; exact hmore)
          (by rwa [hwhole])
        rw [opensRaw, takeWhile_name hb hy, hraw] at this
        cases this
    have hpre : Byte.newline ∉ y ++ [q] := by simp [hyline, hqline.symm]
    rw [crlf_cons hqline, hwhole, hlen]
    exact literalExtent_crlf hsettled hwiden hpre

end Lexer

end Quell
