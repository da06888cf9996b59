import Mathlib.Tactic.Common
import Quell.Proofs.Directive

/-!
# Proofs/Scan — one token, and the bytes after it

No token leaves the buffer (`scan_more_le`), and the bytes after a token may give way to any others
that no token can tell from them (`scan_congr`).  Both are read off the scanners of `scan` one by
one.
-/

namespace Quell.Lexer

/-! ## Literals -/

/-- A quote of either kind. -/
def isQuote (b : UInt8) : Bool := b == Byte.quote || b == Byte.tick

/-- A width that is settled by the bytes it covers, of which the last is a quote. -/
def Settled (width : Bytes → Except LexCause Nat) : Prop :=
  ∀ bytes n, width bytes = .ok n →
    ∃ x v, bytes = x ++ v ∧ x.length = n ∧ x.getLast?.any isQuote = true ∧
      ∀ v', width (x ++ v') = .ok n

/-- A quoted literal is settled by its own bytes. -/
theorem settled_quotedWidth {q : UInt8} (hq : isQuote q = true) : Settled (quotedWidth q) := by
  intro bytes n h
  obtain ⟨x, v, hbytes, hlen, hlast, hall⟩ := exists_of_quotedWidth h
  exact ⟨x, v, hbytes, hlen, by rw [hlast]; exact hq, hall⟩

theorem settled_rawWidth : Settled rawWidth := by
  intro bytes n h
  obtain ⟨x, v, hbytes, hlen, hlast, hall⟩ := exists_of_rawWidth h
  exact ⟨x, v, hbytes, hlen, by rw [hlast]; rfl, hall⟩

/-- A literal is what stands in its quotes and a suffix. -/
theorem literalExtent_eq_ok_iff {width : Bytes → Except LexCause Nat} {ahead : Nat} {bytes : Bytes}
    {kind : Kind} {more : Nat} : literalExtent width ahead bytes = .ok ⟨kind, more⟩ ↔
      ∃ n, width bytes = .ok n ∧ kind = .literal ∧ more = ahead + n + nameWidth (bytes.drop n) := by
  rw [literalExtent]
  cases width bytes with
  | error cause => simp
  | ok n =>
    simp only [Except.ok.injEq, Extent.mk.injEq, exists_eq_left']
    exact and_congr eq_comm eq_comm

/-- A literal ends inside the buffer. -/
theorem literalExtent_more_le {width : Bytes → Except LexCause Nat} (hwidth : Settled width)
    {ahead : Nat} {bytes : Bytes} {kind : Kind} {more : Nat}
    (h : literalExtent width ahead bytes = .ok ⟨kind, more⟩) : more ≤ ahead + bytes.length := by
  obtain ⟨n, hn, -, rfl⟩ := literalExtent_eq_ok_iff.mp h
  obtain ⟨x, v, rfl, rfl, -, -⟩ := hwidth _ _ hn
  have := nameWidth_le v
  rw [List.drop_left, List.length_append]
  omega

/-- What follows a literal may give way. -/
theorem literalExtent_congr {width : Bytes → Except LexCause Nat} (hwidth : Settled width)
    {ahead : Nat} {x v v' : Bytes} {kind : Kind}
    (h : literalExtent width ahead (x ++ v) = .ok ⟨kind, ahead + x.length⟩)
    (hv : Yields v v') :
    literalExtent width ahead (x ++ v') = .ok ⟨kind, ahead + x.length⟩ := by
  obtain ⟨n, hn, hkind, hmore⟩ := literalExtent_eq_ok_iff.mp h
  obtain ⟨q, r, hqr, rfl, -, hall⟩ := hwidth _ _ hn
  -- The quoted part lies in `x`, and what is left of `x` is the suffix.
  obtain ⟨y, rfl⟩ : q <+: x :=
    List.prefix_of_prefix_length_le (hqr ▸ List.prefix_append q r) (List.prefix_append x v)
      (by omega)
  rw [List.append_assoc, List.drop_left, List.length_append] at hmore
  have hsuffix : nameWidth (y ++ v') = y.length := nameWidth_congr (by omega) hv
  refine literalExtent_eq_ok_iff.mpr ⟨q.length, by rw [List.append_assoc, hall], hkind, ?_⟩
  rw [List.append_assoc, List.drop_left, hsuffix, List.length_append, Nat.add_assoc]

/-! ## Words -/

/-- The literal that a word opens before the byte after it, by the width of its quoted part. -/
def opened? (word : Bytes) (next : Option UInt8) : Option (Bytes → Except LexCause Nat) :=
  if next = some Byte.quote then
    if rawMarks.contains word then some rawWidth
    else if encodingMarks.contains word then some (quotedWidth Byte.quote)
    else none
  else if next = some Byte.tick && encodingMarks.contains word then
    some (quotedWidth Byte.tick)
  else none

/-- What a word opens is raw by the word, or quoted by the quote after it. -/
theorem opened?_eq_some {word : Bytes} {next : Option UInt8}
    {width : Bytes → Except LexCause Nat} (h : opened? word next = some width) :
    ∃ q, next = some q ∧ isQuote q = true ∧
      (width = rawWidth ∨ width = quotedWidth q ∧ rawMarks.contains word = false) := by
  have hmarks : ∀ w ∈ encodingMarks, rawMarks.contains w = false := by decide
  rw [opened?] at h
  split_ifs at h with hquote hraw _ htick
  · cases h
    exact ⟨_, hquote, by decide, .inl rfl⟩
  · cases h
    exact ⟨_, hquote, by decide, .inr ⟨rfl, by simpa using hraw⟩⟩
  · cases h
    obtain ⟨hnext, hmark⟩ := Bool.and_eq_true_iff.mp htick
    exact ⟨_, of_decide_eq_true hnext, by decide, .inr ⟨rfl, hmarks word (by simpa using hmark)⟩⟩

theorem settled_of_opened? {word : Bytes} {next : Option UInt8}
    {width : Bytes → Except LexCause Nat} (h : opened? word next = some width) :
    Settled width ∧ next.isSome := by
  obtain ⟨q, rfl, hq, rfl | ⟨rfl, -⟩⟩ := opened?_eq_some h
  · exact ⟨settled_rawWidth, rfl⟩
  · exact ⟨settled_quotedWidth hq, rfl⟩

/-- A word, read off the bytes that belong to it and the byte after them. -/
theorem wordExtent_append {b : UInt8} {y r : Bytes} (hy : nameWidth (y ++ r) = y.length) :
    wordExtent b (y ++ r) =
      match opened? (b :: y) r.head? with
      | some width => literalExtent width (y.length + 1) r.tail
      | none => .ok ⟨Kind.ofWord (b :: y), y.length⟩ := by
  rw [wordExtent, hy, List.take_left, List.drop_left]
  by_cases hquote : r.head? = some Byte.quote
  · obtain ⟨tail, rfl⟩ := List.head?_eq_some_iff.mp hquote
    rw [opened?, if_pos hquote]
    split_ifs <;> rfl
  · by_cases htick : r.head? = some Byte.tick
    · obtain ⟨tail, rfl⟩ := List.head?_eq_some_iff.mp htick
      rw [opened?, if_neg hquote, decide_eq_true htick, Bool.true_and]
      split_ifs <;> rfl
    · rw [opened?, if_neg hquote, decide_eq_false htick, Bool.false_and,
        if_neg Bool.false_ne_true]
      split
      · exact absurd rfl hquote
      · exact absurd rfl htick
      · rfl

theorem exists_nameWidth (bytes : Bytes) :
    ∃ y r, bytes = y ++ r ∧ nameWidth (y ++ r) = y.length :=
  ⟨bytes.takeWhile Byte.continuesName, bytes.dropWhile Byte.continuesName,
    (List.takeWhile_append_dropWhile ..).symm, by rw [List.takeWhile_append_dropWhile]; rfl⟩

theorem wordExtent_more_le {b : UInt8} {rest : Bytes} {kind : Kind} {more : Nat}
    (h : wordExtent b rest = .ok ⟨kind, more⟩) : more ≤ rest.length := by
  obtain ⟨y, r, rfl, hy⟩ := exists_nameWidth rest
  rw [wordExtent_append hy] at h
  split at h
  · rename_i width hwidth
    obtain ⟨hsettled, hsome⟩ := settled_of_opened? hwidth
    obtain ⟨c, hc⟩ := Option.isSome_iff_exists.mp hsome
    obtain ⟨tail, rfl⟩ := List.head?_eq_some_iff.mp hc
    have := literalExtent_more_le hsettled h
    simp only [List.tail_cons, List.length_append, List.length_cons] at this ⊢
    omega
  · cases h
    simp

theorem wordExtent_congr {b : UInt8} {x v v' : Bytes} {kind : Kind}
    (h : wordExtent b (x ++ v) = .ok ⟨kind, x.length⟩) (hv : Yields v v') :
    wordExtent b (x ++ v') = .ok ⟨kind, x.length⟩ := by
  obtain ⟨y, r, hyr, hy⟩ := exists_nameWidth (x ++ v)
  rw [hyr, wordExtent_append hy] at h
  have hlen : y.length ≤ x.length := by
    split at h
    · obtain ⟨n, -, -, hmore⟩ := literalExtent_eq_ok_iff.mp h
      omega
    · simp only [Except.ok.injEq, Extent.mk.injEq] at h
      omega
  obtain ⟨z, rfl⟩ : y <+: x :=
    List.prefix_of_prefix_length_le (hyr ▸ List.prefix_append y r) (List.prefix_append x v) hlen
  obtain rfl : r = z ++ v := by
    rw [List.append_assoc] at hyr
    exact (List.append_cancel_left hyr).symm
  rw [List.append_assoc]
  cases z with
  | nil =>
    -- The word ends where `v` begins, so no literal is opened, before `v'` as before `v`.
    have hy' : nameWidth (y ++ ([] ++ v')) = y.length := nameWidth_congr hy hv
    have hopened : opened? (b :: y) v.head? = opened? (b :: y) v'.head? := by
      simp only [opened?, hv.head?_eq_some_iff (c := Byte.quote) (by decide),
        hv.head?_eq_some_iff (c := Byte.tick) (by decide)]
    rw [wordExtent_append hy']
    simp only [List.nil_append, List.append_nil] at h ⊢
    rw [← hopened]
    split at h
    · obtain ⟨n, -, -, hmore⟩ := literalExtent_eq_ok_iff.mp h
      omega
    · exact h
  | cons c z =>
    have hy' : nameWidth (y ++ (c :: z ++ v')) = y.length := by
      rw [nameWidth_append_eq_iff] at hy ⊢
      exact hy
    have hsum : (y ++ c :: z).length = y.length + 1 + z.length := by
      simp only [List.length_append, List.length_cons]
      omega
    rw [wordExtent_append hy']
    rw [hsum] at h ⊢
    simp only [List.cons_append, List.head?_cons, List.tail_cons] at h ⊢
    split at h
    · rename_i width hwidth
      exact literalExtent_congr (settled_of_opened? hwidth).1 h hv
    · simp only [Except.ok.injEq, Extent.mk.injEq] at h
      omega

/-! ## Comments and marks -/

/-- Two slashes open a comment up to the end of the line. -/
theorem commentExtent?_line (rest : Bytes) : commentExtent? (Byte.slash :: rest) =
    some (.ok ⟨.comment, lineWidth [Byte.slash, Byte.slash] rest - 1⟩) := rfl

theorem commentExtent?_block (rest : Bytes) : commentExtent? (Byte.star :: rest) =
    some (match Bytes.indexOf? [Byte.star, Byte.slash] rest with
      | some n => .ok ⟨.comment, n + 3⟩
      | none => .error ⟨0, .openComment⟩) := rfl

/-- No comment opens unless a slash or a star follows. -/
theorem commentExtent?_eq_none_iff {rest : Bytes} : commentExtent? rest = none ↔
    rest.head? ≠ some Byte.slash ∧ rest.head? ≠ some Byte.star := by
  constructor
  · intro h
    constructor
    · intro hslash
      obtain ⟨tail, rfl⟩ := List.head?_eq_some_iff.mp hslash
      cases h
    · intro hstar
      obtain ⟨tail, rfl⟩ := List.head?_eq_some_iff.mp hstar
      cases h
  · rintro ⟨hslash, hstar⟩
    unfold commentExtent?
    split
    · exact absurd rfl hslash
    · exact absurd rfl hstar
    · rfl

/-- A line comment, or a block comment with its end. -/
theorem commentExtent?_eq_ok_iff {rest : Bytes} {kind : Kind} {more : Nat} :
    commentExtent? rest = some (.ok ⟨kind, more⟩) ↔ kind = .comment ∧
      ((∃ tail, rest = Byte.slash :: tail ∧
          lineWidth [Byte.slash, Byte.slash] tail = more + 1) ∨
        ∃ tail n, rest = Byte.star :: tail ∧
          Bytes.indexOf? [Byte.star, Byte.slash] tail = some n ∧ more = n + 3) := by
  constructor
  · intro h
    cases rest with
    | nil => cases h
    | cons c tail =>
      by_cases hslash : c = Byte.slash
      · subst hslash
        rw [commentExtent?_line] at h
        cases h
        have hwide : 2 ≤ lineWidth [Byte.slash, Byte.slash] tail :=
          slack_le_lineWidth [Byte.slash, Byte.slash] tail
        exact ⟨rfl, .inl ⟨tail, rfl, by omega⟩⟩
      · by_cases hstar : c = Byte.star
        · subst hstar
          rw [commentExtent?_block] at h
          cases hindex : Bytes.indexOf? [Byte.star, Byte.slash] tail with
          | none => rw [hindex] at h; cases h
          | some n =>
            rw [hindex] at h
            cases h
            exact ⟨rfl, .inr ⟨tail, n, rfl, hindex, rfl⟩⟩
        · rw [commentExtent?_eq_none_iff.mpr (by simp [hslash, hstar])] at h
          cases h
  · rintro ⟨rfl, ⟨tail, rfl, hline⟩ | ⟨tail, n, rfl, hindex, rfl⟩⟩
    · rw [commentExtent?_line, hline]
      rfl
    · rw [commentExtent?_block, hindex]

theorem commentExtent?_more_le {rest : Bytes} {kind : Kind} {more : Nat}
    (h : commentExtent? rest = some (.ok ⟨kind, more⟩)) : more ≤ rest.length := by
  obtain ⟨-, ⟨tail, rfl, hline⟩ | ⟨tail, n, rfl, hindex, rfl⟩⟩ := commentExtent?_eq_ok_iff.mp h
  · have := lineWidth_le [Byte.slash, Byte.slash] tail
    simp only [List.length_cons, List.length_nil] at this ⊢
    omega
  · obtain ⟨x, v, rfl, hx, -, -⟩ := exists_of_indexOf? (by simp) hindex
    simp only [List.length_cons, List.length_nil, List.length_append] at hx ⊢
    omega

theorem commentExtent?_congr {x v v' : Bytes} {kind : Kind}
    (h : commentExtent? (x ++ v) = some (.ok ⟨kind, x.length⟩)) (hv : Yields v v') :
    commentExtent? (x ++ v') = some (.ok ⟨kind, x.length⟩) := by
  rw [commentExtent?_eq_ok_iff] at h ⊢
  obtain ⟨hkind, ⟨tail, htail, hline⟩ | ⟨tail, n, htail, hindex, hlen⟩⟩ := h
  · cases x with
    | nil =>
      have hwide : 2 ≤ lineWidth [Byte.slash, Byte.slash] tail :=
        slack_le_lineWidth [Byte.slash, Byte.slash] tail
      rw [List.length_nil] at hline
      omega
    | cons c x =>
      rw [List.cons_append, List.cons.injEq] at htail
      obtain ⟨rfl, rfl⟩ := htail
      refine ⟨hkind, .inl ⟨x ++ v', rfl, ?_⟩⟩
      have hsum : (Byte.slash :: x).length + 1 = [Byte.slash, Byte.slash].length + x.length := by
        simp only [List.length_cons, List.length_nil]
        omega
      rw [hsum] at hline ⊢
      obtain ⟨hends, hall⟩ := lineWidth_append hline
      exact hall v' (hv.line (.inl hends))
  · cases x with
    | nil => cases hlen
    | cons c x =>
      rw [List.cons_append, List.cons.injEq] at htail
      obtain ⟨rfl, rfl⟩ := htail
      obtain ⟨q, r, hqr, hq, -, hall⟩ := exists_of_indexOf? (by simp) hindex
      simp only [List.length_cons, List.length_nil] at hq hlen
      obtain ⟨rfl, -⟩ := List.append_inj hqr (by omega)
      exact ⟨hkind, .inr ⟨x ++ v', n, rfl, hall v', by simp only [List.length_cons]; omega⟩⟩

/-- A mark that reaches at most two bytes behind the token is there before and after. -/
theorem isPrefixOf_congr {v v' : Bytes} (hv : Yields v v') {p : Bytes}
    (hp : ∀ c ∈ p, joins c = true) (x : Bytes) (hlen : p.length ≤ x.length + 2) :
    p.isPrefixOf (x ++ v) = p.isPrefixOf (x ++ v') := by
  induction x generalizing p with
  | nil =>
    rw [Bool.eq_iff_iff, List.isPrefixOf_iff_prefix, List.isPrefixOf_iff_prefix]
    exact hv.front p hlen hp
  | cons b x ih =>
    cases p with
    | nil => rfl
    | cons c p =>
      rw [List.cons_append, List.cons_append, List.isPrefixOf, List.isPrefixOf,
        ih (fun d hd => hp d (List.mem_cons_of_mem c hd))]
      simp only [List.length_cons] at hlen
      omega

theorem punctuationExtent_congr {v v' : Bytes} (hv : Yields v v') (b : UInt8)
    (x : Bytes) : punctuationExtent b (x ++ v) = punctuationExtent b (x ++ v') := by
  have hmark : ∀ p ∈ [utf8 "...", utf8 "::", utf8 "->"],
      p.isPrefixOf (b :: (x ++ v)) = p.isPrefixOf (b :: (x ++ v')) := by
    intro p hp
    have hbytes : ∀ q ∈ [utf8 "...", utf8 "::", utf8 "->"], q.length ≤ 3 ∧
        q.all (fun c => joins c = true) = true := by decide
    refine isPrefixOf_congr hv (forall_mem_of_all (hbytes p hp).2) (b :: x) ?_
    have := (hbytes p hp).1
    rw [List.length_cons]
    omega
  rw [punctuationExtent, punctuationExtent, hmark _ (by simp), hmark _ (by simp),
    hmark _ (by simp)]

theorem punctuationExtent_kind (b : UInt8) (rest : Bytes) :
    (punctuationExtent b rest).kind = .punctuation := by
  rw [punctuationExtent]
  split_ifs <;> rfl

theorem punctuationExtent_more_le (b : UInt8) (rest : Bytes) :
    (punctuationExtent b rest).more ≤ rest.length := by
  have hmark : ∀ p : Bytes, p.isPrefixOf (b :: rest) = true → p.length ≤ rest.length + 1 :=
    fun p hp => (List.isPrefixOf_iff_prefix.mp hp).length_le
  rw [punctuationExtent]
  split_ifs with hdots hpair
  · exact Nat.le_of_succ_le_succ (hmark _ hdots)
  · rw [Bool.or_eq_true] at hpair
    rcases hpair with hpair | hpair <;> exact Nat.le_of_succ_le_succ (hmark _ hpair)
  · exact Nat.zero_le _

/-! ## One token -/

/-- A directive, where a hash stands first on its line. -/
theorem scan_directive (rest : Bytes) : scan true Byte.hash rest =
    match directiveWidth .plain [Byte.hash] rest with
    | .ok width => .ok ⟨.directive, width - 1⟩
    | .error opened => .error ⟨opened, .openComment⟩ := rfl

/-- Any other token. -/
theorem scan_plain {fresh : Bool} {b : UInt8} (h : (b == Byte.hash && fresh) = false)
    (rest : Bytes) : scan fresh b rest =
      if b == Byte.slash && (commentExtent? rest).isSome then
        (commentExtent? rest).getD (.ok ⟨.comment, 0⟩)
      else if b == Byte.quote || b == Byte.tick then literalExtent (quotedWidth b) 0 rest
      else if Byte.isDigit b || (b == Byte.dot && rest.head?.any Byte.isDigit) then
        .ok ⟨.literal, numberWidth (b :: rest) - 1⟩
      else if Byte.opensName b then wordExtent b rest
      else .ok (punctuationExtent b rest) := by
  rw [scan, h, if_neg Bool.false_ne_true]
  cases hslash : b == Byte.slash with
  | false => rfl
  | true =>
    rw [if_pos rfl, Bool.true_and]
    cases commentExtent? rest <;> rfl

theorem numberWidth_pos {b : UInt8} (h : Byte.isDigit b = true ∨ b = Byte.dot) (rest : Bytes) :
    0 < numberWidth (b :: rest) := by
  have hb : isNumberByte b = true := by
    rw [isNumberByte, Byte.isAlphanumeric]
    rcases h with h | rfl
    · rw [h]
      rfl
    · rfl
  rw [numberWidth_cons]
  split_ifs <;> omega

/-- **No token leaves the buffer.** -/
theorem scan_more_le {fresh : Bool} {b : UInt8} {rest : Bytes} {kind : Kind} {more : Nat}
    (h : scan fresh b rest = .ok ⟨kind, more⟩) : more ≤ rest.length := by
  cases hhash : b == Byte.hash && fresh with
  | true =>
    obtain ⟨rfl, rfl⟩ : b = Byte.hash ∧ fresh = true := by simpa using hhash
    rw [scan_directive] at h
    split at h
    · rename_i width hwidth
      cases h
      have := (directiveWidth_bounds hwidth).2
      simp only [List.length_cons, List.length_nil] at this
      omega
    · cases h
  | false =>
    rw [scan_plain hhash] at h
    split_ifs at h with hcomment hquote hnumber hname
    · obtain ⟨result, hresult⟩ := Option.isSome_iff_exists.mp (Bool.and_eq_true_iff.mp hcomment).2
      rw [hresult, Option.getD_some] at h
      exact commentExtent?_more_le (h ▸ hresult)
    · have := literalExtent_more_le (settled_quotedWidth hquote) h
      omega
    · cases h
      have := numberWidth_le (b :: rest)
      rw [List.length_cons] at this
      omega
    · exact wordExtent_more_le h
    · have := punctuationExtent_more_le b rest
      rwa [Except.ok.inj h] at this

theorem joins_of_isDigit (b : UInt8) (h : Byte.isDigit b = true) : joins b = true :=
  joins_of_isAlphanumeric b (by rw [Byte.isAlphanumeric, h]; rfl)

/-- What follows a slash decides whether it opens a comment. -/
theorem opensComment_congr {fresh : Bool} {b : UInt8} {x v v' : Bytes} {kind : Kind}
    (hhash : (b == Byte.hash && fresh) = false)
    (h : scan fresh b (x ++ v) = .ok ⟨kind, x.length⟩) (hv : Yields v v') :
    (b == Byte.slash && (commentExtent? (x ++ v')).isSome)
      = (b == Byte.slash && (commentExtent? (x ++ v)).isSome) := by
  cases hslash : b == Byte.slash with
  | false => rfl
  | true =>
    rw [scan_plain hhash, hslash, Bool.true_and] at h
    simp only [Bool.true_and]
    cases x with
    | cons c x =>
      rw [Bool.eq_iff_iff, ← Option.ne_none_iff_isSome, ← Option.ne_none_iff_isSome, ne_eq, ne_eq,
        commentExtent?_eq_none_iff, commentExtent?_eq_none_iff]
      rfl
    | nil =>
      -- A slash alone opens no comment before `v`, and before `v'` nothing new can make it one.
      have hnone : commentExtent? v = none := by
        by_contra hsome
        obtain ⟨result, hresult⟩ := Option.ne_none_iff_exists'.mp hsome
        rw [List.nil_append, hresult, if_pos (by rfl), Option.getD_some] at h
        obtain ⟨-, ⟨tail, -, hline⟩ | ⟨tail, n, -, -, hlen⟩⟩ :=
          commentExtent?_eq_ok_iff.mp (h ▸ hresult)
        · have hwide : 2 ≤ lineWidth [Byte.slash, Byte.slash] tail :=
            slack_le_lineWidth [Byte.slash, Byte.slash] tail
          rw [List.length_nil] at hline
          omega
        · cases hlen
      obtain ⟨hnoSlash, hnoStar⟩ := commentExtent?_eq_none_iff.mp hnone
      have hnone' : commentExtent? v' = none :=
        commentExtent?_eq_none_iff.mpr
          ⟨mt hv.slash hnoSlash, mt (hv.head?_eq_some_iff (by decide)).mpr hnoStar⟩
      rw [List.nil_append, List.nil_append, hnone, hnone']

/-- **The bytes after a token may give way to others** that no token can tell from them. -/
theorem scan_congr {fresh : Bool} {b : UInt8} {x v v' : Bytes} {kind : Kind}
    (h : scan fresh b (x ++ v) = .ok ⟨kind, x.length⟩) (hv : Yields v v') :
    scan fresh b (x ++ v') = .ok ⟨kind, x.length⟩ := by
  cases hhash : b == Byte.hash && fresh with
  | true =>
    obtain ⟨rfl, rfl⟩ : b = Byte.hash ∧ fresh = true := by simpa using hhash
    rw [scan_directive] at h ⊢
    split at h
    · rename_i width hwidth
      simp only [Except.ok.injEq, Extent.mk.injEq] at h
      obtain ⟨rfl, hlen⟩ := h
      have hone : 1 ≤ width := (directiveWidth_bounds hwidth).1
      have hsum : width = [Byte.hash].length + x.length := by
        rw [List.length_singleton]
        omega
      rw [hsum] at hwidth
      obtain ⟨hends, hall⟩ := directiveWidth_append hwidth
      rw [hall v' (hv.line (.inl hends))]
      simp
    · cases h
  | false =>
    -- Which scanner runs is settled by the same look at the bytes after the token.
    have hcomment := opensComment_congr hhash h hv
    rw [scan_plain hhash] at h ⊢
    have hdigit : (x ++ v).head?.any Byte.isDigit = (x ++ v').head?.any Byte.isDigit :=
      (hv.append x).head_any joins_of_isDigit
    rw [hcomment, ← hdigit]
    split_ifs at h ⊢ with hslash hquote hnumber hname
    · obtain ⟨result, hresult⟩ := Option.isSome_iff_exists.mp (Bool.and_eq_true_iff.mp hslash).2
      rw [hresult, Option.getD_some] at h
      rw [commentExtent?_congr (h ▸ hresult) hv]
      rfl
    · rw [← Nat.zero_add x.length] at h ⊢
      exact literalExtent_congr (settled_quotedWidth hquote) h hv
    · simp only [Except.ok.injEq, Extent.mk.injEq] at h ⊢
      have hb : Byte.isDigit b = true ∨ b = Byte.dot := by
        simp only [Bool.or_eq_true, Bool.and_eq_true, beq_iff_eq] at hnumber
        exact hnumber.imp_right And.left
      have hpos := numberWidth_pos hb (x ++ v)
      have hwidth := numberWidth_congr (x := b :: x) (v := v)
        (by rw [List.cons_append, List.length_cons]; omega) hv
      rw [List.cons_append, List.length_cons] at hwidth
      rw [hwidth]
      exact ⟨h.1, by omega⟩
    · exact wordExtent_congr h hv
    · rw [← punctuationExtent_congr hv]
      exact h

/-! ## The last byte of a token

A token that does not run to the end of its line ends in no blank. -/

/-- A blank or a newline. -/
def trailing (b : UInt8) : Bool := Byte.isBlank b || b == Byte.newline

/-- A blank or a newline ends the line or separates. -/
theorem separates_of_trailing {b : UInt8} (h : trailing b = true) :
    b = Byte.newline ∨ separates b = true := by
  simp only [trailing, Bool.or_eq_true, beq_iff_eq] at h
  rcases h with h | h
  · exact .inr (by rw [separates, h]; rfl)
  · exact .inl h

theorem trailing_of_continuesName {b : UInt8} (h : Byte.continuesName b = true) :
    trailing b = false := by
  by_contra hb
  rcases separates_of_trailing (by simpa using hb) with rfl | hs
  · exact absurd h (by decide)
  · rw [continuesName_of_separates b hs] at h
    cases h

theorem trailing_of_isQuote {b : UInt8} (h : isQuote b = true) : trailing b = false := by
  simp only [isQuote, Bool.or_eq_true, beq_iff_eq] at h
  rcases h with rfl | rfl <;> decide

theorem trailing_of_number {b : UInt8}
    (h : isNumberByte b = true ∨ isSign b = true ∨ b = Byte.tick) : trailing b = false := by
  by_contra hb
  rcases separates_of_trailing (by simpa using hb) with rfl | hs
  · exact absurd h (by decide)
  · rw [isNumberByte_of_separates b hs, isSign_of_separates b hs] at h
    rcases h with h | h | rfl
    · cases h
    · cases h
    · exact absurd hs (by decide)

/-- A literal ends in a quote or in a byte of its suffix. -/
theorem literalExtent_getLast {width : Bytes → Except LexCause Nat} (hwidth : Settled width)
    {ahead : Nat} {x v : Bytes} {kind : Kind}
    (h : literalExtent width ahead (x ++ v) = .ok ⟨kind, ahead + x.length⟩) :
    ∃ c, x.getLast? = some c ∧ trailing c = false := by
  obtain ⟨n, hn, -, hmore⟩ := literalExtent_eq_ok_iff.mp h
  obtain ⟨q, r, hqr, rfl, hlast, -⟩ := hwidth _ _ hn
  obtain ⟨y, rfl⟩ : q <+: x :=
    List.prefix_of_prefix_length_le (hqr ▸ List.prefix_append q r) (List.prefix_append x v)
      (by omega)
  rw [List.append_assoc, List.drop_left, List.length_append] at hmore
  have hsuffix := (nameWidth_append_eq_iff.mp (by omega : nameWidth (y ++ v) = y.length)).1
  rcases y.eq_nil_or_concat with rfl | ⟨y', c, rfl⟩
  · obtain ⟨c, hc, hquote⟩ := (Option.any_eq_true _ _).mp hlast
    exact ⟨c, by rw [List.append_nil, hc], trailing_of_isQuote hquote⟩
  · refine ⟨c, ?_, trailing_of_continuesName (hsuffix c (by simp))⟩
    rw [List.concat_eq_append, ← List.append_assoc]
    exact List.getLast?_concat

/-- A word ends in a byte of a name or like a literal. -/
theorem wordExtent_getLast {b : UInt8} {x v : Bytes} {kind : Kind}
    (h : wordExtent b (x ++ v) = .ok ⟨kind, x.length⟩) {c : UInt8} (hc : x.getLast? = some c) :
    trailing c = false := by
  obtain ⟨y, r, hyr, hy⟩ := exists_nameWidth (x ++ v)
  rw [hyr, wordExtent_append hy] at h
  split at h
  · rename_i width hwidth
    obtain ⟨hsettled, hsome⟩ := settled_of_opened? hwidth
    obtain ⟨q, hq⟩ := Option.isSome_iff_exists.mp hsome
    obtain ⟨tail, rfl⟩ := List.head?_eq_some_iff.mp hq
    have hlen : y.length + 1 ≤ x.length := by
      obtain ⟨n, -, -, hmore⟩ := literalExtent_eq_ok_iff.mp h
      omega
    have hassoc : y ++ q :: tail = (y ++ [q]) ++ tail := by simp
    obtain ⟨z, rfl⟩ : y ++ [q] <+: x := by
      refine List.prefix_of_prefix_length_le ?_ (List.prefix_append x v) (by simpa using hlen)
      rw [hyr, hassoc]
      exact List.prefix_append _ _
    obtain rfl : tail = z ++ v := by
      rw [hassoc, List.append_assoc] at hyr
      exact (List.append_cancel_left hyr).symm
    have hsum : (y ++ [q] ++ z).length = y.length + 1 + z.length := by
      simp only [List.length_append, List.length_singleton]
    rw [List.tail_cons, hsum] at h
    obtain ⟨d, hd, htrailing⟩ := literalExtent_getLast hsettled h
    rw [List.getLast?_append, hd] at hc
    cases hc
    exact htrailing
  · simp only [Except.ok.injEq, Extent.mk.injEq] at h
    obtain ⟨rfl, -⟩ := List.append_inj hyr (by omega)
    have hmem : c ∈ x := List.mem_of_getLast? hc
    exact trailing_of_continuesName ((nameWidth_append_eq_iff.mp hy).1 c hmem)

/-- A mark ends in a byte of its own. -/
theorem punctuationExtent_getLast {b : UInt8} {x v : Bytes}
    (h : (punctuationExtent b (x ++ v)).more = x.length) {c : UInt8} (hc : x.getLast? = some c) :
    trailing c = false := by
  have hmark : ∀ p ∈ [utf8 "...", utf8 "::", utf8 "->"], p.isPrefixOf (b :: (x ++ v)) = true →
      p.length = x.length + 1 → trailing c = false := by
    intro p hp hprefix hlen
    have hbytes : ∀ q ∈ [utf8 "...", utf8 "::", utf8 "->"],
        q.all (fun d => trailing d = false) = true := by decide
    obtain ⟨u, hu⟩ := List.isPrefixOf_iff_prefix.mp hprefix
    rw [← List.cons_append] at hu
    obtain ⟨rfl, -⟩ := List.append_inj hu (by rw [hlen, List.length_cons])
    exact forall_mem_of_all (hbytes _ hp) c (List.mem_cons_of_mem b (List.mem_of_getLast? hc))
  rw [punctuationExtent] at h
  split_ifs at h with hdots hpair
  · exact hmark _ (by simp) hdots (by rw [← h]; rfl)
  · rw [Bool.or_eq_true] at hpair
    rcases hpair with hpair | hpair
    · exact hmark _ (by simp) hpair (by rw [← h]; rfl)
    · exact hmark _ (by simp) hpair (by rw [← h]; rfl)
  · rw [List.eq_nil_of_length_eq_zero h.symm] at hc
    cases hc

/-- A comment ends in its closing mark, or a line ends after it. -/
theorem commentExtent?_getLast {x v : Bytes} {kind : Kind}
    (h : commentExtent? (x ++ v) = some (.ok ⟨kind, x.length⟩)) :
    endsLine v ∨ ∃ c, x.getLast? = some c ∧ trailing c = false := by
  obtain ⟨-, ⟨tail, htail, hline⟩ | ⟨tail, n, htail, hindex, hlen⟩⟩ :=
    commentExtent?_eq_ok_iff.mp h
  · rcases x with _ | ⟨c, x⟩
    · have hwide : 2 ≤ lineWidth [Byte.slash, Byte.slash] tail :=
        slack_le_lineWidth [Byte.slash, Byte.slash] tail
      rw [List.length_nil] at hline
      omega
    · rw [List.cons_append, List.cons.injEq] at htail
      obtain ⟨rfl, rfl⟩ := htail
      have hsum : (Byte.slash :: x).length + 1 = [Byte.slash, Byte.slash].length + x.length := by
        simp only [List.length_cons, List.length_nil]
        omega
      rw [hsum] at hline
      exact .inl (lineWidth_append hline).1
  · rcases x with _ | ⟨c, x⟩
    · cases hlen
    · rw [List.cons_append, List.cons.injEq] at htail
      obtain ⟨rfl, rfl⟩ := htail
      obtain ⟨q, r, hqr, hq, ⟨y, rfl⟩, -⟩ := exists_of_indexOf? (by simp) hindex
      simp only [List.length_append, List.length_cons, List.length_nil] at hq hlen
      obtain ⟨rfl, -⟩ := List.append_inj hqr
        (by simp only [List.length_append, List.length_cons, List.length_nil]; omega)
      refine .inr ⟨Byte.slash, ?_, by decide⟩
      have : Byte.star :: (y ++ [Byte.star, Byte.slash])
          = (Byte.star :: (y ++ [Byte.star])) ++ [Byte.slash] := by simp
      rw [this]
      exact List.getLast?_concat

/-- **A token before a separating byte ends in no blank.** -/
theorem scan_getLast {fresh : Bool} {b : UInt8} {x v : Bytes} {kind : Kind}
    (h : scan fresh b (x ++ v) = .ok ⟨kind, x.length⟩) (hv : glimpse v = [Byte.space])
    (hb : trailing b = false) {c : UInt8} (hc : (b :: x).getLast? = some c) :
    trailing c = false := by
  have hlast : x = [] ∧ c = b ∨ x.getLast? = some c := by
    rcases x.eq_nil_or_concat with rfl | ⟨y, d, rfl⟩
    · exact .inl ⟨rfl, by simpa using hc.symm⟩
    · right
      rw [List.concat_eq_append] at hc ⊢
      rw [← List.cons_append, List.getLast?_concat] at hc
      rw [List.getLast?_concat, hc]
  rcases hlast with ⟨rfl, rfl⟩ | hlast
  · exact hb
  · cases hhash : b == Byte.hash && fresh with
    | true =>
      obtain ⟨rfl, rfl⟩ : b = Byte.hash ∧ fresh = true := by simpa using hhash
      rw [scan_directive] at h
      split at h
      · rename_i width hwidth
        simp only [Except.ok.injEq, Extent.mk.injEq] at h
        have hone : 1 ≤ width := (directiveWidth_bounds hwidth).1
        have hsum : width = [Byte.hash].length + x.length := by
          rw [List.length_singleton]
          omega
        rw [hsum] at hwidth
        exact absurd hv (glimpse_ne_of_endsLine (directiveWidth_append hwidth).1)
      · cases h
    | false =>
      rw [scan_plain hhash] at h
      split_ifs at h with hslash hquote hnumber hname
      · obtain ⟨result, hresult⟩ :=
          Option.isSome_iff_exists.mp (Bool.and_eq_true_iff.mp hslash).2
        rw [hresult, Option.getD_some] at h
        rcases commentExtent?_getLast (h ▸ hresult) with hends | ⟨d, hd, htrailing⟩
        · exact absurd hv (glimpse_ne_of_endsLine hends)
        · rw [hlast] at hd
          cases hd
          exact htrailing
      · rw [← Nat.zero_add x.length] at h
        obtain ⟨d, hd, htrailing⟩ := literalExtent_getLast (settled_quotedWidth hquote) h
        rw [hlast] at hd
        cases hd
        exact htrailing
      · simp only [Except.ok.injEq, Extent.mk.injEq] at h
        have hdigit : Byte.isDigit b = true ∨ b = Byte.dot := by
          simp only [Bool.or_eq_true, Bool.and_eq_true, beq_iff_eq] at hnumber
          exact hnumber.imp_right And.left
        have hpos := numberWidth_pos hdigit (x ++ v)
        have hwidth : numberWidth (b :: (x ++ v)) = (b :: x).length := by
          rw [List.length_cons]
          omega
        refine trailing_of_number (@mem_take_numberWidth (b :: (x ++ v)) c ?_)
        rw [hwidth, ← List.cons_append, List.take_left]
        exact List.mem_cons_of_mem b (List.mem_of_getLast? hlast)
      · exact wordExtent_getLast h hlast
      · exact punctuationExtent_getLast (congrArg Extent.more (Except.ok.inj h)) hlast

end Quell.Lexer
