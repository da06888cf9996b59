import Quell.Proofs.Crlf

/-!
# Proofs/LineBreak — tokens that end with their line, under the other line ending

Comments and directives look back over the bytes they have `seen`.  Both buffers as a whole stay the
same while bytes pass from what is ahead to what is seen, so a directive `Tracks` its own end stride
by stride: the carriage return before a newline is one byte more on the way, and what the newline
then does depends on the same byte before it (`passNewline?`).
-/

namespace Quell

namespace Lexer

open Bytes

/-! ## Lines -/

/-- The bytes seen, last byte first, under the other line ending. -/
def back (seen : Bytes) : Bytes := (crlf seen.reverse).reverse

/-- Read backwards, a newline comes before its carriage return. -/
theorem back_newline (seen : Bytes) :
    back (Byte.newline :: seen) = Byte.newline :: Byte.carriage :: back seen := by
  rw [back, List.reverse_cons, crlf_append, List.reverse_append]
  rfl

theorem back_cons {b : UInt8} (h : b ≠ Byte.newline) (seen : Bytes) :
    back (b :: seen) = b :: back seen := by
  rw [back, List.reverse_cons, crlf_append, List.reverse_append, crlf_cons h]
  rfl

theorem head?_back (seen : Bytes) : (back seen).head? = seen.head? := by
  cases seen with
  | nil => rfl
  | cons b seen =>
    by_cases hb : b = Byte.newline
    · rw [hb, back_newline]
      rfl
    · rw [back_cons hb]
      rfl

/-- What was seen is widened to its length in the other line ending. -/
theorem length_back (seen u : Bytes) :
    (back seen).length = Bytes.widen (seen.reverse ++ u) seen.length := by
  have := widen_append seen.reverse u
  rw [List.length_reverse] at this
  rw [this, back, List.length_reverse]

/-- A newline ends the line unless a backslash stands before it. -/
theorem lineBreak_of_head {seen : Bytes} (h : seen.head? ≠ some Byte.carriage) :
    lineBreak seen = if seen.head? = some Byte.backslash then none else some 0 := by
  unfold lineBreak
  split
  · exact absurd rfl h
  · exact absurd rfl h
  · rfl
  · rename_i hsplice
    rw [if_neg]
    intro hhead
    obtain ⟨rest, rfl⟩ := List.head?_eq_some_iff.mp hhead
    exact hsplice rest rfl

/-- A newline after a carriage return ends the line unless a backslash stands before both. -/
theorem lineBreak_carriage (seen : Bytes) : lineBreak (Byte.carriage :: seen) =
    if seen.head? = some Byte.backslash then none else some 1 := by
  unfold lineBreak
  split
  · rename_i heq
    cases heq
    rfl
  · rename_i hsplice heq
    cases heq
    rw [if_neg]
    intro hhead
    obtain ⟨rest, rfl⟩ := List.head?_eq_some_iff.mp hhead
    exact hsplice rest rfl
  · rename_i heq
    cases heq
  · rename_i hcarriage _
    exact absurd rfl (hcarriage seen)

theorem lineWidth_newline (seen rest : Bytes) : lineWidth seen (Byte.newline :: rest) =
    match lineBreak seen with
    | some back => seen.length - back
    | none => lineWidth (Byte.newline :: seen) rest := rfl

/-- **A line ends in the same place**, and the carriage return of its end is left out. -/
theorem lineWidth_crlf (seen u : Bytes) (hcr : Byte.carriage ∉ seen.reverse ++ u) :
    lineWidth (back seen) (crlf u) = Bytes.widen (seen.reverse ++ u) (lineWidth seen u) := by
  induction u generalizing seen with
  | nil => exact length_back seen []
  | cons b rest ih =>
    have hwhole : (b :: seen).reverse ++ rest = seen.reverse ++ b :: rest := by simp
    have hnext := ih (b :: seen) (by rwa [hwhole])
    rw [hwhole] at hnext
    by_cases hb : b = Byte.newline
    · subst hb
      have hhead : seen.head? ≠ some Byte.carriage := fun h =>
        hcr (List.mem_append_left _ (List.mem_reverse.mpr (List.mem_of_head? h)))
      rw [back_newline] at hnext
      rw [crlf_newline, lineWidth, if_neg (by decide), lineWidth_newline, lineBreak_carriage,
        head?_back, lineWidth_newline, lineBreak_of_head hhead]
      split_ifs
      · exact hnext
      · exact length_back seen _
    · rw [back_cons hb] at hnext
      rw [crlf_cons hb, lineWidth, if_neg (by simpa using hb), lineWidth,
        if_neg (by simpa using hb), hnext]

/-! ## Comments and marks -/

theorem lineComment_crlf {tail : Bytes} (hcr : Byte.carriage ∉ tail) :
    lineWidth [Byte.slash, Byte.slash] (crlf tail) - 1 =
      Bytes.widen (Byte.slash :: tail) (lineWidth [Byte.slash, Byte.slash] tail - 1) := by
  have hcr' : Byte.carriage ∉ [Byte.slash, Byte.slash].reverse ++ tail :=
    List.not_mem_cons_of_ne_of_not_mem (by decide)
      (List.not_mem_cons_of_ne_of_not_mem (by decide) hcr)
  have hwide : 2 ≤ lineWidth [Byte.slash, Byte.slash] tail :=
    slack_le_lineWidth [Byte.slash, Byte.slash] tail
  obtain ⟨k, hk⟩ : ∃ k, lineWidth [Byte.slash, Byte.slash] tail = k + 1 :=
    ⟨_, (Nat.sub_add_cancel (Nat.le_of_succ_le hwide)).symm⟩
  have hline : lineWidth [Byte.slash, Byte.slash] (crlf tail) =
      Bytes.widen (Byte.slash :: Byte.slash :: tail) (k + 1) :=
    hk ▸ lineWidth_crlf [Byte.slash, Byte.slash] tail hcr'
  rw [hline, hk, widen_cons (by decide)]
  rfl

theorem blockComment_crlf (tail : Bytes) :
    indexOf? [Byte.star, Byte.slash] (crlf tail) =
      (indexOf? [Byte.star, Byte.slash] tail).map (Bytes.widen tail) ∧
    ∀ n, indexOf? [Byte.star, Byte.slash] tail = some n →
      Bytes.widen (Byte.star :: tail) (n + 3) = Bytes.widen tail n + 3 := by
  refine ⟨indexOf?_crlf (forall_mem_of_all (by decide)) (by decide) tail, fun n hindex => ?_⟩
  obtain ⟨x, v, rfl, hx, ⟨y, rfl⟩, -⟩ := exists_of_indexOf? (by simp) hindex
  obtain rfl : y.length = n := by
    rw [List.length_append] at hx
    omega
  rw [widen_cons (by decide), List.append_assoc, widen_append_add, widen_append]
  rfl

/-- **A comment is widened in the other line ending.** -/
theorem commentExtent?_crlf {rest : Bytes} (hcr : Byte.carriage ∉ rest) :
    (commentExtent? (crlf rest)).map Except.toOption =
      (commentExtent? rest).map fun r => r.toOption.map (Extent.widen rest) := by
  by_cases hslash : rest.head? = some Byte.slash
  · obtain ⟨tail, rfl⟩ := List.head?_eq_some_iff.mp hslash
    rw [crlf_cons (by decide), commentExtent?_line, commentExtent?_line,
      lineComment_crlf fun h => hcr (List.mem_cons_of_mem _ h)]
    rfl
  by_cases hstar : rest.head? = some Byte.star
  · obtain ⟨tail, rfl⟩ := List.head?_eq_some_iff.mp hstar
    obtain ⟨hcrlf, hwiden⟩ := blockComment_crlf tail
    rw [crlf_cons (by decide), commentExtent?_block, commentExtent?_block, hcrlf]
    cases hindex : indexOf? [Byte.star, Byte.slash] tail with
    | none => rfl
    | some n =>
      simp only [Option.map_some, Except.toOption, Extent.widen, hwiden n hindex]
  rw [commentExtent?_eq_none_iff.mpr ⟨hslash, hstar⟩, commentExtent?_eq_none_iff.mpr]
  · rfl
  · rw [ne_eq, ne_eq, head?_crlf_eq_some_iff (by decide), head?_crlf_eq_some_iff (by decide)]
    exact ⟨hslash, hstar⟩

theorem punctuationExtent_crlf {b : UInt8} (hb : b ≠ Byte.newline) (rest : Bytes) :
    punctuationExtent b (crlf rest) = (punctuationExtent b rest).widen rest := by
  have hbytes : ∀ p ∈ [utf8 "...", utf8 "::", utf8 "->"],
      p.all (fun c => c ≠ Byte.newline ∧ c ≠ Byte.carriage) = true := by decide
  have hmark : ∀ p ∈ [utf8 "...", utf8 "::", utf8 "->"],
      p.isPrefixOf (b :: crlf rest) = p.isPrefixOf (b :: rest) := fun p hp => by
    rw [← crlf_cons hb, isPrefixOf_crlf (forall_mem_of_all (hbytes p hp))]
  have hwide : ∀ p ∈ [utf8 "...", utf8 "::", utf8 "->"], p.isPrefixOf (b :: rest) = true →
      Bytes.widen rest (p.length - 1) = p.length - 1 := by
    intro p hp hfront
    obtain ⟨u, hu⟩ := List.isPrefixOf_iff_prefix.mp hfront
    cases p with
    | nil => rfl
    | cons c p =>
      rw [List.cons_append, List.cons.injEq] at hu
      have hline : Byte.newline ∉ p := fun h =>
        (forall_mem_of_all (hbytes _ hp) _ (List.mem_cons_of_mem c h)).1 rfl
      rw [← hu.2, List.length_cons, Nat.add_sub_cancel, widen_append, crlf_eq_self hline]
  have hpair : (utf8 "::").isPrefixOf (b :: rest) = true ∨
      (utf8 "->").isPrefixOf (b :: rest) = true → Bytes.widen rest 1 = 1 := by
    rintro (h | h)
    · exact hwide _ (by simp) h
    · exact hwide _ (by simp) h
  rw [punctuationExtent, punctuationExtent, hmark _ (by simp), hmark _ (by simp),
    hmark _ (by simp)]
  split_ifs with hthree htwo
  · exact congrArg (Extent.mk _) (hwide _ (by simp) hthree).symm
  · exact congrArg (Extent.mk _) (hpair (Bool.or_eq_true_iff.mp htwo)).symm
  · rfl

/-! ## Directives -/

/-- A backslash in the quotes of a directive takes a newline along. -/
def directiveEscapes : Within → (seen : Bytes) → Bytes → Bool
  | _, _, [] => false
  | m, seen, b :: rest =>
    match stride m seen b rest.head? with
    | .stop _ | .line => false
    | .one m' => directiveEscapes m' (b :: seen) rest
    | .two m' =>
      match rest with
      | [] => false
      | c :: rest => c == Byte.newline || directiveEscapes m' (c :: b :: seen) rest

/-- The same place in the directive `u` under the other line ending. -/
def Within.widen (u : Bytes) : Within → Within
  | .plain => .plain
  | .comment opened => .comment (Bytes.widen u opened)
  | .quoted q => .quoted q

/-- The same stride in the directive `u` under the other line ending. -/
def Stride.widen (u : Bytes) : Stride → Stride
  | .one m => .one (m.widen u)
  | .two m => .two (m.widen u)
  | s => s

/-- **At a byte that is no newline a directive goes on the same way.** -/
theorem stride_crlf (m : Within) (seen : Bytes) {b : UInt8} (hb : b ≠ Byte.newline)
    (u rest : Bytes) : stride (m.widen (seen.reverse ++ u)) (back seen) b (crlf rest).head? =
      (stride m seen b rest.head?).widen (seen.reverse ++ u) := by
  have hnewline : (b == Byte.newline) = false := beq_false_of_ne hb
  have hnext : stride (m.widen (seen.reverse ++ u)) (back seen) b (crlf rest).head? =
      stride (m.widen (seen.reverse ++ u)) (back seen) b rest.head? := by
    refine stride_congr (head?_crlf_eq_some_iff (by decide)) (head?_crlf_eq_some_iff (by decide))
      ?_ _ _ _
    rw [head?_crlf, Option.isSome_map]
  rw [hnext]
  cases m with
  | plain =>
    simp only [Within.widen, stride, hnewline, Bool.false_eq_true, if_false, length_back seen u]
    split_ifs <;> rfl
  | comment opened =>
    simp only [Within.widen, stride]
    split_ifs <;> rfl
  | quoted q =>
    simp only [Within.widen, stride, hnewline, Bool.false_eq_true, if_false]
    split_ifs <;> rfl

/-- A directive that is in quotes is in quotes of one of the two kinds. -/
def Within.Proper (m : Within) : Prop := ∀ q, m = .quoted q → isQuote q = true

/-- A newline opens no quote. -/
theorem strideNewline_ne (seen : Bytes) (q : UInt8) :
    strideNewline seen ≠ .one (.quoted q) ∧ strideNewline seen ≠ .two (.quoted q) := by
  rw [strideNewline]
  cases lineBreak seen <;> simp

/-- Quotes are opened by a quote. -/
theorem Within.Proper.stride {m m' : Within} (hm : m.Proper) {seen : Bytes} {b : UInt8}
    {next : Option UInt8} (h : Lexer.stride m seen b next = .one m' ∨
      Lexer.stride m seen b next = .two m') : m'.Proper := by
  rintro q rfl
  have hnewline := strideNewline_ne seen q
  cases m with
  | plain =>
    simp only [Lexer.stride] at h
    split_ifs at h with _ _ _ _ hquote
    all_goals simp_all [isQuote]
  | comment opened =>
    simp only [Lexer.stride] at h
    split_ifs at h
    all_goals simp_all
  | quoted q' =>
    have hq := hm q' rfl
    simp only [Lexer.stride] at h
    split_ifs at h
    all_goals simp_all

/-- A carriage return is a byte like any other. -/
theorem stride_carriage {m : Within} (hm : m.Proper) (seen : Bytes) (next : Option UInt8) :
    stride m seen Byte.carriage next = .one m := by
  cases m with
  | plain => rfl
  | comment opened => rfl
  | quoted q =>
    have hq : (Byte.carriage == q) = false := by
      rw [beq_eq_false_iff_ne]
      rintro rfl
      exact absurd (hm _ rfl) (by decide)
    rw [stride, hq]
    rfl

theorem Within.Proper.widen {m : Within} (hm : m.Proper) (u : Bytes) : (m.widen u).Proper := by
  cases m with
  | plain => exact hm
  | comment opened => nofun
  | quoted q => exact hm

/-- **How a directive goes on after a newline**, if it does: a comment takes it in, and elsewhere it
must be spliced. -/
def Within.passNewline? (m : Within) (seen : Bytes) : Option Within :=
  match m with
  | .comment opened => some (.comment opened)
  | .plain | .quoted _ => if seen.head? = some Byte.backslash then some .plain else none

/-- A state after a newline is proper. -/
theorem Within.Proper.passNewline? {m m' : Within} {seen : Bytes}
    (h : m.passNewline? seen = some m') : m'.Proper := by
  cases m with
  | comment opened =>
    cases h
    nofun
  | plain | quoted _ =>
    rw [Within.passNewline?] at h
    split_ifs at h
    cases h
    nofun

/-- The step over a newline is the same in both line endings. -/
theorem Within.passNewline?_widen (m : Within) (u seen : Bytes) :
    (m.widen u).passNewline? (back seen) = (m.passNewline? seen).map (Within.widen u) := by
  cases m with
  | comment opened => rfl
  | plain | quoted _ =>
    rw [Within.widen, Within.passNewline?, Within.passNewline?, head?_back]
    split_ifs <;> rfl

/-- What a newline does where a backslash before it makes a splice. -/
theorem stride_newline_of_lineBreak {seen seen' : Bytes} {k : Nat}
    (h : lineBreak seen' = if seen.head? = some Byte.backslash then none else some k) (m : Within)
    (next : Option UInt8) : stride m seen' Byte.newline next =
      (m.passNewline? seen).elim (.stop k) .one := by
  cases m with
  | comment opened => rfl
  | plain | quoted _ =>
    rw [stride_newline (by simp), strideNewline, h, Within.passNewline?]
    split_ifs <;> rfl

/-- A directive goes on over a newline if its state does, and ends there otherwise. -/
theorem directiveWidth_newline {seen : Bytes} (hhead : seen.head? ≠ some Byte.carriage) (m : Within)
    (rest : Bytes) : directiveWidth m seen (Byte.newline :: rest) =
      (m.passNewline? seen).elim (.ok seen.length)
        (directiveWidth · (Byte.newline :: seen) rest) := by
  rw [directiveWidth_cons, stride_newline_of_lineBreak (lineBreak_of_head hhead)]
  cases m.passNewline? seen <;> rfl

theorem directiveEscapes_newline {seen : Bytes} (hhead : seen.head? ≠ some Byte.carriage)
    (m : Within) (rest : Bytes) : directiveEscapes m seen (Byte.newline :: rest) =
      (m.passNewline? seen).elim false (directiveEscapes · (Byte.newline :: seen) rest) := by
  rw [directiveEscapes, stride_newline_of_lineBreak (lineBreak_of_head hhead)]
  cases m.passNewline? seen <;> rfl

/-- A carriage return and a newline do what a newline does. -/
theorem directiveWidth_carriage_newline {m : Within} (hm : m.Proper) (seen rest : Bytes) :
    directiveWidth m seen (Byte.carriage :: Byte.newline :: rest) =
      (m.passNewline? seen).elim (.ok seen.length)
        (directiveWidth · (Byte.newline :: Byte.carriage :: seen) rest) := by
  rw [directiveWidth_cons, stride_carriage hm]
  dsimp only
  rw [directiveWidth_cons, stride_newline_of_lineBreak (lineBreak_carriage seen)]
  cases m.passNewline? seen <;> rfl

/-- **The directive `u` after the bytes `seen` ends in the same place** under both line endings. -/
def Tracks (m : Within) (seen u : Bytes) : Prop :=
  (directiveWidth (m.widen (seen.reverse ++ u)) (back seen) (crlf u)).toOption =
    (directiveWidth m seen u).toOption.map (Bytes.widen (seen.reverse ++ u))

namespace Tracks

variable {m m' : Within} {seen rest : Bytes} {b : UInt8}

theorem nil (m : Within) (seen : Bytes) : Tracks m seen [] := by
  have hlen := congrArg some (length_back seen [])
  cases m with
  | plain => exact hlen
  | comment opened => rfl
  | quoted q => exact hlen

/-- The scans of a directive keep together over a newline. -/
theorem newline (hm : m.Proper) (hhead : seen.head? ≠ some Byte.carriage)
    (h : ∀ m', m.passNewline? seen = some m' → Tracks m' (Byte.newline :: seen) rest) :
    Tracks m seen (Byte.newline :: rest) := by
  rw [Tracks, crlf_newline, directiveWidth_carriage_newline (hm.widen _),
    Within.passNewline?_widen, directiveWidth_newline hhead]
  cases hnext : m.passNewline? seen with
  | none => exact congrArg some (length_back seen _)
  | some m' =>
    have := h m' hnext
    rwa [Tracks, List.reverse_cons, List.append_assoc, back_newline] at this

theorem one (hb : b ≠ Byte.newline) (hstride : stride m seen b rest.head? = .one m')
    (h : Tracks m' (b :: seen) rest) : Tracks m seen (b :: rest) := by
  rw [Tracks, List.reverse_cons, List.append_assoc, back_cons hb] at h
  rw [Tracks, crlf_cons hb, directiveWidth_cons, stride_crlf m seen hb, directiveWidth_cons,
    hstride]
  exact h

/-- The scans of a directive keep together over two bytes at once. -/
theorem two {c : UInt8} (hb : b ≠ Byte.newline) (hc : c ≠ Byte.newline)
    (hstride : stride m seen b (some c) = .two m') (h : Tracks m' (c :: b :: seen) rest) :
    Tracks m seen (b :: c :: rest) := by
  rw [Tracks, List.reverse_cons, List.append_assoc, List.reverse_cons, List.append_assoc,
    back_cons hc, back_cons hb] at h
  rw [Tracks, crlf_cons hb, directiveWidth_cons, stride_crlf m seen hb, directiveWidth_cons,
    List.head?_cons, hstride, crlf_cons hc]
  exact h

theorem line (hb : b ≠ Byte.newline) (hstride : stride m seen b rest.head? = .line)
    (hcr : Byte.carriage ∉ seen.reverse ++ b :: rest) : Tracks m seen (b :: rest) := by
  obtain ⟨tail, rfl⟩ := List.head?_eq_some_iff.mp (stride_eq_line hstride)
  have hline := lineWidth_crlf (Byte.slash :: b :: seen) tail (by simpa using hcr)
  rw [List.reverse_cons, List.append_assoc, List.reverse_cons, List.append_assoc,
    back_cons (by decide), back_cons hb] at hline
  rw [Tracks, crlf_cons hb, directiveWidth_cons, stride_crlf m seen hb, directiveWidth_cons,
    hstride, crlf_cons (by decide)]
  exact congrArg some hline

end Tracks

/-- **A directive ends in the same place**, if no quote in it escapes a newline. -/
theorem tracks {m : Within} (hm : m.Proper) (seen u : Bytes)
    (hcr : Byte.carriage ∉ seen.reverse ++ u) (hescape : directiveEscapes m seen u = false) :
    Tracks m seen u := by
  induction hn : u.length using Nat.strongRecOn generalizing m seen u with
  | _ n ih =>
    subst hn
    cases u with
    | nil => exact .nil m seen
    | cons b rest =>
      have hcr' : Byte.carriage ∉ (b :: seen).reverse ++ rest := by simpa using hcr
      by_cases hb : b = Byte.newline
      · subst hb
        have hhead : seen.head? ≠ some Byte.carriage := fun h =>
          hcr (List.mem_append_left _ (List.mem_reverse.mpr (List.mem_of_head? h)))
        rw [directiveEscapes_newline hhead] at hescape
        refine .newline hm hhead fun m' hnext => ?_
        rw [hnext] at hescape
        exact ih rest.length (by simp) (Within.Proper.passNewline? hnext) _ rest hcr' hescape rfl
      · rw [directiveEscapes] at hescape
        cases hstride : stride m seen b rest.head? with
        | stop k => exact absurd (stride_eq_stop hstride).1 hb
        | one m' =>
          rw [hstride] at hescape
          exact .one hb hstride
            (ih rest.length (by simp) (hm.stride (.inl hstride)) _ rest hcr' hescape rfl)
        | two m' =>
          obtain ⟨c, tail, rfl⟩ := exists_cons_of_stride_eq_two hstride
          rw [hstride] at hescape
          obtain ⟨hc, hescape⟩ := Bool.or_eq_false_iff.mp hescape
          exact .two hb (by simpa using hc) hstride
            (ih tail.length (by simp only [List.length_cons]; omega) (hm.stride (.inr hstride)) _
              tail (by simpa using hcr) hescape rfl)
        | line => exact .line hb hstride hcr

end Lexer

end Quell
