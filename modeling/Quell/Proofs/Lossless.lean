import Mathlib.Tactic.Common
import Quell.Token.Stream
import Quell.Proofs.Lexing

/-!
# Proofs/Lossless — lexing loses no byte

A call of the lexer passes over blanks and takes a token off the front of what is ahead, or it ends
the stream (`Cursor.calls_next`).  So the calls come to an end (`Cursor.yields_lexAt`), they give
the tokens in order and then the fault (`Cursor.Yields.next_after`), and of what they pass over
every byte is a blank or part of a line splice (`Lossless`).
-/

namespace Quell

namespace Lexer

/-! ## How far a literal is read -/

/-- **A quoted literal is what its reading stops at**: the closing quote, a newline, or the end. -/
theorem quotedWidth_eq_reach (q : UInt8) (bytes : Bytes) :
    quotedWidth q bytes =
      match bytes[quotedReach q bytes]? with
      | none => .error (.openLiteral (quoting q))
      | some b =>
        if b == Byte.newline then .error (.brokenLiteral (quoting q))
        else .ok (quotedReach q bytes + 1) := by
  fun_induction quotedWidth q bytes with
  | case1 => rfl
  | case2 => rfl
  | case3 b rest ih =>
    rw [quotedReach, List.getElem?_cons_succ, List.getElem?_cons_succ, ih]
    rcases rest[quotedReach q rest]? with _ | c
    · rfl
    · dsimp only
      split_ifs <;> rfl
  | case4 b rest hlone hpair hnewline =>
    rw [quotedReach.eq_4 q b rest hlone hpair, hnewline, Bool.true_or, if_pos rfl,
      List.getElem?_cons_zero]
    exact (if_pos hnewline).symm
  | case5 b rest hlone hpair hnewline hquote =>
    rw [quotedReach.eq_4 q b rest hlone hpair, hquote, Bool.or_true, if_pos rfl,
      List.getElem?_cons_zero]
    exact (if_neg hnewline).symm
  | case6 b rest hlone hpair hnewline hquote ih =>
    have hmore : (b == Byte.newline || b == q) = false := by simp [hnewline, hquote]
    rw [quotedReach.eq_4 q b rest hlone hpair, hmore, if_neg Bool.false_ne_true,
      List.getElem?_cons_succ, ih]
    rcases rest[quotedReach q rest]? with _ | c
    · rfl
    · dsimp only
      split_ifs <;> rfl

/-- A quoted literal is read at most one byte past the end. -/
theorem quotedReach_le (q : UInt8) (bytes : Bytes) : quotedReach q bytes ≤ bytes.length + 1 := by
  fun_induction quotedReach q bytes with
  | case1 => exact Nat.zero_le _
  | case2 => exact Nat.le_refl _
  | case3 b rest ih =>
    rw [List.length_cons, List.length_cons]
    omega
  | case4 => exact Nat.zero_le _
  | case5 b rest hlone hpair hmore ih =>
    rw [List.length_cons]
    omega

/-- **A fault leaves the lexer at most one byte past the end**: a backslash takes a byte along that
is not there. -/
theorem reach_le (b : UInt8) (rest : Bytes) : reach b rest ≤ rest.length + 2 := by
  rw [reach]
  split_ifs with hquote hname
  · have := quotedReach_le b rest
    omega
  · have hlength := congrArg List.length (List.take_append_drop (nameWidth rest) rest)
    rw [List.length_append, List.length_take] at hlength
    dsimp only
    split
    · rename_i after hafter
      have := quotedReach_le Byte.quote after
      rw [hafter, List.length_cons] at hlength
      split_ifs <;> omega
    · rename_i after hafter
      have := quotedReach_le Byte.tick after
      rw [hafter, List.length_cons] at hlength
      omega
    · exact Nat.zero_le _
  · exact Nat.zero_le _

/-! ## Where a fault lies -/

/-- An open comment began before the bytes still ahead. -/
theorem stride_comment {m m' : Within} {seen : Bytes} {b : UInt8} {next : Option UInt8}
    (h : stride m seen b next = .one m' ∨ stride m seen b next = .two m') {k : Nat}
    (hk : m' = .comment k) : m = .comment k ∨ k = seen.length := by
  subst hk
  have hnewline : strideNewline seen ≠ .one (.comment k) ∧
      strideNewline seen ≠ .two (.comment k) := by
    rw [strideNewline]
    cases lineBreak seen <;> simp
  cases m with
  | plain =>
    simp only [stride] at h
    split_ifs at h <;> simp_all
  | comment opened =>
    simp only [stride] at h
    split_ifs at h <;> simp_all
  | quoted q =>
    simp only [stride] at h
    split_ifs at h <;> simp_all

/-- **The comment that a directive leaves open began inside the directive.** -/
theorem directiveWidth_error_lt {m : Within} {seen bytes : Bytes} {opened : Nat}
    (hm : ∀ k, m = .comment k → k < seen.length)
    (h : directiveWidth m seen bytes = .error opened) : opened < seen.length + bytes.length := by
  induction hn : bytes.length using Nat.strongRecOn generalizing m seen bytes with
  | _ n ih =>
    subst hn
    cases bytes with
    | nil =>
      cases m with
      | comment k =>
        cases h
        exact hm opened rfl
      | plain => cases h
      | quoted q => cases h
    | cons b rest =>
      rw [directiveWidth_cons] at h
      rw [List.length_cons]
      split at h
      case h_1 => cases h
      case h_2 m' hone =>
        have hm' : ∀ k, m' = .comment k → k < (b :: seen).length := by
          intro k hk
          rw [List.length_cons]
          rcases stride_comment (.inl hone) hk with hold | rfl
          · exact Nat.lt_succ_of_lt (hm k hold)
          · exact Nat.lt_succ_self _
        have := ih rest.length (by simp) hm' h rfl
        rw [List.length_cons] at this
        omega
      case h_3 m' htwo =>
        obtain ⟨c, tail, rfl⟩ := exists_cons_of_stride_eq_two htwo
        have hm' : ∀ k, m' = .comment k → k < (c :: b :: seen).length := by
          intro k hk
          rw [List.length_cons, List.length_cons]
          rcases stride_comment (.inr htwo) hk with hold | rfl
          · have := hm k hold
            omega
          · omega
        have := ih tail.length (by simp only [List.length_cons]; omega) hm' h rfl
        simp only [List.length_cons] at this ⊢
        omega
      case h_4 => cases h

/-- A literal that fails leaves its first byte. -/
theorem literalExtent_error {width : Bytes → Except LexCause Nat} {ahead : Nat} {bytes : Bytes}
    {slip : Slip} (h : literalExtent width ahead bytes = .error slip) : slip.ahead = 0 := by
  rw [literalExtent] at h
  split at h
  · cases h
  · cases h
    rfl

/-- **A fault lies inside the buffer**, at the first byte of the token or further on. -/
theorem scan_ahead_le {fresh : Bool} {b : UInt8} {rest : Bytes} {slip : Slip}
    (h : scan fresh b rest = .error slip) : slip.ahead ≤ rest.length := by
  cases hhash : b == Byte.hash && fresh with
  | true =>
    obtain ⟨rfl, rfl⟩ : b = Byte.hash ∧ fresh = true := by simpa using hhash
    rw [scan_directive] at h
    split at h
    · cases h
    · rename_i opened hwidth
      cases h
      have := directiveWidth_error_lt (fun k hk => by cases hk) hwidth
      rw [List.length_singleton] at this
      dsimp only
      omega
  | false =>
    suffices hzero : slip.ahead = 0 by omega
    rw [scan_plain hhash] at h
    split_ifs at h with hcomment hquote hnumber hname
    · obtain ⟨result, hresult⟩ := Option.isSome_iff_exists.mp (Bool.and_eq_true_iff.mp hcomment).2
      rw [hresult, Option.getD_some] at h
      subst h
      rw [commentExtent?.eq_def] at hresult
      split at hresult
      · cases hresult
      · split at hresult
        · cases hresult
        · cases hresult
          rfl
      · cases hresult
    · exact literalExtent_error h
    · obtain ⟨y, r, rfl, hy⟩ := exists_nameWidth rest
      rw [wordExtent_append hy] at h
      split at h
      · exact literalExtent_error h
      · cases h

/-! ## One call -/

namespace Cursor

/-- **What one call does**: what it gives, and where the lexer stands after it. -/
inductive Calls (c : Cursor) : Option (Except LexFault Token) → Cursor → Prop
  /-- Nothing more, once the stream has ended. -/
  | ended : c.done = true → Calls c none c
  /-- The end of the buffer: nothing but blanks was left. -/
  | finish {c' : Cursor} {nl : Bool} :
      c.done = false → Gap c.ahead nl → c'.offset = c.offset + c.ahead.length → c'.ahead = [] →
      c'.done = true → Calls c none c'
  /-- A fault, at a byte not read yet.  The lexer may have read on from there. -/
  | fault {c' : Cursor} {f : LexFault} :
      c.done = false → c.offset ≤ f.offset → f.offset < c.offset + c.ahead.length →
      c.offset ≤ c'.offset → c'.offset ≤ c.offset + c.ahead.length + 1 → c'.done = true →
      Calls c (some (.error f)) c'
  /-- A token, off the front with the blanks before it. -/
  | token {c' : Cursor} {kind : Kind} {b : UInt8} {g x : Bytes} {nl : Bool} :
      c.done = false → Gap g nl → c.ahead = g ++ (b :: (x ++ c'.ahead)) →
      scan (c.fresh || nl) b (x ++ c'.ahead) = .ok ⟨kind, x.length⟩ →
      c'.offset = c.offset + g.length + 1 + x.length → c'.done = false →
      Calls c (some (.ok ⟨kind, b :: x, c.offset + g.length⟩)) c'

/-- A stream that has ended gives nothing more. -/
theorem next_of_done {c : Cursor} (h : c.done = true) : c.next = (none, c) := if_pos h

/-- **Every call does one of the four.** -/
theorem calls_next (c : Cursor) : c.Calls c.next.1 c.next.2 := by
  cases hdone : c.done with
  | true =>
    rw [next_of_done hdone]
    exact .ended hdone
  | false =>
    obtain ⟨g, rest, hahead, hgap, hlen, -⟩ := exists_gap c.ahead
    have hdrop : c.ahead.drop g.length = rest := by rw [hahead, List.drop_left]
    rw [next, hdone, if_neg Bool.false_ne_true, advance]
    dsimp only
    rw [hlen, hdrop]
    rcases rest with _ | ⟨b, rest⟩
    · rw [List.append_nil] at hahead
      rw [← hahead] at hgap
      exact .finish hdone hgap (by rw [hahead]) rfl rfl
    · have hsize : c.ahead.length = g.length + (rest.length + 1) := by
        rw [hahead, List.length_append, List.length_cons]
      cases hscan : scan (c.fresh || (gap c.ahead).2) b rest with
      | error slip =>
        have hslip := scan_ahead_le hscan
        have hreach := reach_le b rest
        simp only [hscan]
        refine .fault hdone ?_ ?_ ?_ ?_ rfl <;> dsimp only <;> omega
      | ok extent =>
        have hwidth : (rest.take extent.more).length = extent.more := by
          rw [List.length_take, Nat.min_eq_left (scan_more_le hscan)]
        simp only [hscan]
        refine .token hdone hgap ?_ ?_ ?_ hdone <;> dsimp only
        · rw [List.take_append_drop, hahead]
        · rw [List.take_append_drop, hwidth, hscan]
        · rw [hwidth]

theorem calls_of_next {c c' : Cursor} {item : Option (Except LexFault Token)}
    (h : c.next = (item, c')) : c.Calls item c' := by
  have := c.calls_next
  rwa [h] at this

/-- **A call that gives a token takes it off the front**, with the blanks before it. -/
theorem Calls.exists_gap {c c' : Cursor} {t : Token} (h : c.Calls (some (.ok t)) c') :
    ∃ g nl, Gap g nl ∧ c.ahead = g ++ (t.text ++ c'.ahead) ∧ t.text ≠ [] ∧
      t.start = c.offset + g.length ∧ c'.offset = t.stop ∧ c'.done = false := by
  cases h with
  | @token _ kind b g x nl _ hgap hahead _ hoffset hdone =>
    refine ⟨g, nl, hgap, hahead, List.cons_ne_nil _ _, rfl, ?_, hdone⟩
    rw [hoffset, Token.stop, List.length_cons]
    dsimp only
    omega

/-- **A call that gives a token moves on**, and the stream goes on. -/
theorem Calls.advances {c c' : Cursor} {t : Token} (h : c.Calls (some (.ok t)) c') :
    c.offset < c'.offset ∧ c'.ahead.length < c.ahead.length ∧ c'.done = false := by
  obtain ⟨g, nl, -, hahead, htext, hstart, hstop, hdone⟩ := h.exists_gap
  have := List.length_pos_iff.mpr htext
  rw [hstop, Token.stop, hstart, hahead, List.length_append, List.length_append]
  exact ⟨by omega, by omega, hdone⟩

/-- **A call that gives no token ends the stream**, and never moves back. -/
theorem Calls.ends {c c' : Cursor} {item : Option (Except LexFault Token)} (h : c.Calls item c')
    (htoken : ∀ t, item ≠ some (.ok t)) : c.offset ≤ c'.offset ∧ c'.done = true := by
  cases h with
  | ended hdone => exact ⟨Nat.le_refl _, hdone⟩
  | finish _ _ hoffset _ hdone => exact ⟨by omega, hdone⟩
  | fault _ _ _ hoffset _ hdone => exact ⟨hoffset, hdone⟩
  | token => exact absurd rfl (htoken _)

/-! ## Call after call -/

/-- The tokens up to the end of the stream, and the fault that ends it. -/
inductive Yields : Cursor → List Token → Option LexFault → Prop
  | done {c c' : Cursor} : c.next = (none, c') → Yields c [] none
  | fault {c c' : Cursor} {f : LexFault} : c.next = (some (.error f), c') → Yields c [] (some f)
  | token {c c' : Cursor} {t : Token} {tokens : List Token} {fault : Option LexFault} :
      c.next = (some (.ok t), c') → Yields c' tokens fault → Yields c (t :: tokens) fault

/-- The first of several calls comes first. -/
theorem after_succ (c : Cursor) (n : Nat) : c.after (n + 1) = c.next.2.after n := by
  induction n with
  | zero => rfl
  | succ n ih => rw [after, ih, after]

/-- **A stream that has ended stays so.** -/
theorem after_of_done {c : Cursor} (h : c.done = true) (n : Nat) : c.after n = c := by
  induction n with
  | zero => rfl
  | succ n ih => rw [after, ih, next_of_done h]

/-- After a call that gives no token, no call gives anything. -/
theorem next_after_of_ends {c c' : Cursor} {item : Option (Except LexFault Token)}
    (hnext : c.next = (item, c')) (htoken : ∀ t, item ≠ some (.ok t)) (n : Nat) :
    (c.after (n + 1)).next.1 = none := by
  obtain ⟨-, hdone⟩ := (calls_of_next hnext).ends htoken
  rw [after_succ, hnext, after_of_done hdone, next_of_done hdone]

/-- **Call number `n` gives item number `n`**, and nothing beyond the last. -/
theorem Yields.next_after {c : Cursor} {tokens : List Token} {fault : Option LexFault}
    (h : c.Yields tokens fault) (n : Nat) :
    (c.after n).next.1 = (Lexed.items ⟨tokens, fault⟩)[n]? := by
  induction h generalizing n with
  | done hnext =>
    cases n with
    | zero => exact congrArg Prod.fst hnext
    | succ n => exact next_after_of_ends hnext (by simp) n
  | fault hnext =>
    cases n with
    | zero => exact congrArg Prod.fst hnext
    | succ n => exact next_after_of_ends hnext (by simp) n
  | token hnext _ ih =>
    cases n with
    | zero => exact congrArg Prod.fst hnext
    | succ n =>
      rw [after_succ, hnext, ih n]
      rfl

/-- The lexer makes one call and goes on from where it stands then. -/
theorem lexFrom_succ {c : Cursor} (h : c.done = false) (fuel : Nat) :
    lexFrom (fuel + 1) c.offset c.fresh c.ahead =
      match c.next with
      | (none, _) => ⟨[], none⟩
      | (some (.error f), _) => ⟨[], some f⟩
      | (some (.ok t), c') => (lexFrom fuel c'.offset c'.fresh c'.ahead).push t := by
  rw [lexFrom, next, h, if_neg Bool.false_ne_true, advance]
  dsimp only
  rcases c.ahead.drop (gap c.ahead).1 with _ | ⟨b, rest⟩
  · rfl
  · dsimp only
    rcases scan (c.fresh || (gap c.ahead).2) b rest with slip | ⟨kind, more⟩ <;> rfl

/-- **The calls come to an end**, and what they give is what the lexer finds. -/
theorem yields_lexAt {c : Cursor} (h : c.done = false) :
    c.Yields (lexAt c.offset c.fresh c.ahead).tokens (lexAt c.offset c.fresh c.ahead).fault := by
  induction hn : c.ahead.length using Nat.strongRecOn generalizing c with
  | _ n ih =>
    subst hn
    rw [lexAt, ← lexFrom_eq_of_length_le (c.ahead.length + 1) _ _ _ (by omega), lexFrom_succ h]
    rcases hnext : c.next with ⟨_ | f | t, c'⟩
    · exact .done hnext
    · exact .fault hnext
    · obtain ⟨-, hshort, hdone⟩ := (calls_of_next hnext).advances
      dsimp only
      rw [lexFrom_eq_of_length_le _ _ _ c'.ahead (by omega)]
      exact .token hnext (ih _ hshort hdone rfl)

end Cursor

/-! ## What is passed over -/

/-- The line splices. -/
def lineSplices : List Bytes :=
  [[Byte.backslash, Byte.newline], [Byte.backslash, Byte.carriage, Byte.newline]]

/-- **The byte at an offset is a blank or part of a line splice.** -/
def Skippable (source : Bytes) (k : Nat) : Prop :=
  (∃ b ∈ [Byte.space, Byte.tab, Byte.carriage, Byte.newline, 11, 12], source[k]? = some b) ∨
    ∃ s ∈ lineSplices, ∃ j, s <+: source.drop j ∧ j ≤ k ∧ k < j + s.length

/-- Every byte of the stretch may be passed over, wherever the stretch stands. -/
def Passable (s : Bytes) : Prop :=
  ∀ (pre rest : Bytes) (k : Nat), k < s.length → Skippable (pre ++ (s ++ rest)) (pre.length + k)

namespace Passable

/-- A newline or a blank may be passed over. -/
theorem blank {b : UInt8} (hb : b = Byte.newline ∨ Byte.isSpacing b = true) : Passable [b] := by
  intro pre rest k hk
  obtain rfl : k = 0 := by simpa using hk
  refine .inl ⟨b, ?_, by simp⟩
  rcases hb with rfl | hb
  · decide
  · simp only [Byte.isSpacing, Byte.isBlank, Bool.or_eq_true, beq_iff_eq] at hb
    rcases hb with (((rfl | rfl) | rfl) | rfl) | rfl <;> decide

theorem splice {s : Bytes} (hs : s ∈ lineSplices) : Passable s := by
  intro pre rest k hk
  refine .inr ⟨s, hs, pre.length, ?_, by omega, by omega⟩
  rw [List.drop_left]
  exact List.prefix_append s rest

theorem append {s g : Bytes} (hs : Passable s) (hg : Passable g) : Passable (s ++ g) := by
  intro pre rest k hk
  rw [List.append_assoc]
  rcases Nat.lt_or_ge k s.length with hlt | hge
  · exact hs pre (g ++ rest) k hlt
  · have := hg (pre ++ s) rest (k - s.length) (by rw [List.length_append] at hk; omega)
    rwa [List.length_append, Nat.add_assoc, Nat.add_sub_cancel' hge, List.append_assoc] at this

end Passable

/-- **Every byte of a gap may be passed over.** -/
theorem Gap.passable {g : Bytes} {nl : Bool} (h : Gap g nl) : Passable g := by
  induction h with
  | nil => exact fun _ _ k hk => absurd hk (Nat.not_lt_zero k)
  | newline _ ih => exact (Passable.blank (.inl rfl)).append ih
  | splice _ ih =>
    exact (Passable.splice (s := [Byte.backslash, Byte.newline]) (by decide)).append ih
  | carriageSplice _ ih =>
    exact (Passable.splice (s := [Byte.backslash, Byte.carriage, Byte.newline])
      (by decide)).append ih
  | spacing hb _ ih => exact (Passable.blank (.inr hb)).append ih

/-! ## All calls -/

namespace Cursor.Yields

variable {c : Cursor} {tokens : List Token} {fault : Option LexFault}

/-- A token is a stretch of the buffer, at or after the cursor. -/
theorem text_eq (h : c.Yields tokens fault) {pre : Bytes} (hpre : pre.length = c.offset) {t : Token}
    (ht : t ∈ tokens) : c.offset ≤ t.start ∧ t.start < t.stop ∧
      t.stop ≤ (pre ++ c.ahead).length ∧ t.text = (pre ++ c.ahead).extract t.start t.stop := by
  induction h generalizing pre with
  | done _ => cases ht
  | fault _ => cases ht
  | @token c c' u tokens fault hnext _ ih =>
    obtain ⟨g, nl, -, hahead, htext, hstart, hstop, -⟩ := (calls_of_next hnext).exists_gap
    have hwide := List.length_pos_iff.mpr htext
    have hsource : pre ++ c.ahead = pre ++ g ++ u.text ++ c'.ahead := by
      rw [hahead]
      simp only [List.append_assoc]
    have hplace : (pre ++ g).length = u.start := by rw [List.length_append, hpre, hstart]
    rcases List.mem_cons.mp ht with rfl | ht
    · rw [Token.stop, hsource]
      refine ⟨by omega, by omega, ?_, ?_⟩
      · rw [List.length_append, List.length_append, hplace]
        omega
      · rw [← hplace, List.extract, Nat.add_sub_cancel_left, List.append_assoc, List.drop_left,
          List.take_left]
    · have hpre' : (pre ++ g ++ u.text).length = c'.offset := by
        rw [List.length_append, hplace, hstop, Token.stop]
      have := ih hpre' ht
      rw [← hsource, hstop, Token.stop] at this
      exact ⟨by omega, this.2⟩

/-- Tokens follow each other without overlap. -/
theorem pairwise (h : c.Yields tokens fault) : tokens.Pairwise fun t u => t.stop ≤ u.start := by
  induction h with
  | done _ => exact .nil
  | fault _ => exact .nil
  | @token c c' t tokens fault hnext hrest ih =>
    refine List.pairwise_cons.mpr ⟨fun u hu => ?_, ih⟩
    obtain ⟨-, -, -, -, -, -, hstop, -⟩ := (calls_of_next hnext).exists_gap
    rw [← hstop]
    exact (hrest.text_eq (List.length_replicate (a := 0)) hu).1

/-- What lies between the cursor and a token, between tokens, and at the end of a buffer without
fault may be passed over. -/
theorem skippable (h : c.Yields tokens fault) (hdone : c.done = false) {pre : Bytes}
    (hpre : pre.length = c.offset) {k : Nat} (hk : c.offset ≤ k)
    (hlen : k < (pre ++ c.ahead).length) (hout : ∀ t ∈ tokens, ¬(t.start ≤ k ∧ k < t.stop))
    (hend : fault = none ∨ ∃ t ∈ tokens, k < t.start) : Skippable (pre ++ c.ahead) k := by
  obtain ⟨n, rfl⟩ := Nat.exists_eq_add_of_le hk
  induction h generalizing pre n with
  | @done c c' hnext =>
    cases calls_of_next hnext with
    | ended hended => exact absurd (hdone.symm.trans hended) Bool.false_ne_true
    | finish _ hgap _ _ _ =>
      rw [List.length_append] at hlen
      have := hgap.passable pre [] n (by omega)
      rwa [List.append_nil, hpre] at this
  | fault _ => simp at hend
  | @token c c' t tokens fault hnext hrest ih =>
    obtain ⟨g, nl, hgap, hahead, htext, hstart, hstop, hdone'⟩ := (calls_of_next hnext).exists_gap
    rcases Nat.lt_or_ge n g.length with hbefore | hafter
    · rw [hahead, ← hpre]
      exact hgap.passable pre _ n hbefore
    · have hnot := hout t (by simp)
      have hsource : pre ++ c.ahead = pre ++ g ++ t.text ++ c'.ahead := by
        rw [hahead]
        simp only [List.append_assoc]
      have hpre' : (pre ++ g ++ t.text).length = c'.offset := by
        rw [hstop, Token.stop, hstart, List.length_append, List.length_append, hpre]
      obtain ⟨m, hm⟩ : ∃ m, c.offset + n = c'.offset + m :=
        ⟨c.offset + n - c'.offset, by omega⟩
      rw [hsource] at hlen ⊢
      rw [hm] at hlen hend ⊢
      refine ih hdone' hpre' m (by omega) hlen (fun u hu => hm ▸ hout u (by simp [hu])) ?_
      refine hend.imp_right ?_
      rintro ⟨u, hu, hlt⟩
      rcases List.mem_cons.mp hu with rfl | hu
      · omega
      · exact ⟨u, hu, hlt⟩

end Cursor.Yields

end Lexer

open Lexer

/-- **The tokens are the buffer less what may be passed over**: each is a stretch of the buffer, in
order, and what lies before a token, or anywhere if the whole buffer was read, is a blank or part of
a line splice. -/
structure Lossless (source : Bytes) (tokens : List Token) : Prop where
  nonempty : ∀ t ∈ tokens, t.start < t.stop
  stop_le : ∀ t ∈ tokens, t.stop ≤ source.length
  text_eq : ∀ t ∈ tokens, t.text = source.extract t.start t.stop
  ordered : tokens.Pairwise fun t u => t.stop ≤ u.start
  skippable : ∀ k < source.length, (∀ t ∈ tokens, ¬(t.start ≤ k ∧ k < t.stop)) →
    (tokenize source = .ok tokens ∨ ∃ t ∈ tokens, k < t.start) → Skippable source k

/-- **Lexing loses no byte**, with or without a fault.  The calls of the lexer give the tokens one
by one, then the fault if there is one, and nothing ever after.  A call on a stream that has not
ended gives a token and moves on, or it ends the stream. -/
theorem lex_lossless (source : Bytes) :
    Lossless source (lex source).tokens ∧
      (∀ n, ((Cursor.ofSource source).after n).next.1 = (lex source).items[n]?) ∧
      (∀ c : Cursor, c.done = true → c.next = (none, c)) ∧
      ∀ c : Cursor, c.done = false →
        (∃ t, c.next.1 = some (.ok t) ∧ c.offset < c.next.2.offset ∧
          c.next.2.ahead.length < c.ahead.length ∧ c.next.2.done = false) ∨
        (∀ t, c.next.1 ≠ some (.ok t)) ∧ c.offset ≤ c.next.2.offset ∧ c.next.2.done = true := by
  have hyields : (Cursor.ofSource source).Yields (lex source).tokens (lex source).fault :=
    Cursor.yields_lexAt rfl
  have hfront : ([] : Bytes).length = (Cursor.ofSource source).offset := rfl
  refine ⟨⟨fun t ht => (hyields.text_eq hfront ht).2.1,
    fun t ht => (hyields.text_eq hfront ht).2.2.1, fun t ht => (hyields.text_eq hfront ht).2.2.2,
    hyields.pairwise, fun k hk hout hend => ?_⟩, hyields.next_after,
    fun c => Cursor.next_of_done, fun c _ => ?_⟩
  · refine hyields.skippable rfl hfront (Nat.zero_le k) hk hout (hend.imp_left fun hok => ?_)
    rw [tokenize] at hok
    split at hok
    · rename_i hlex
      rw [hlex]
    · cases hok
  · have hcalls := c.calls_next
    by_cases htoken : ∃ t, c.next.1 = some (.ok t)
    · obtain ⟨t, ht⟩ := htoken
      rw [ht] at hcalls
      exact .inl ⟨t, ht, hcalls.advances⟩
    · have hnot := not_exists.mp htoken
      exact .inr ⟨hnot, hcalls.ends hnot⟩

/-- **Not every call moves on**: at a comment without end the lexer gives a fault and stays. -/
theorem not_forall_offset_lt : ¬∀ (source : Bytes) (n : Nat),
    ((Cursor.ofSource source).after n).next.1 ≠ none →
      ((Cursor.ofSource source).after n).offset < ((Cursor.ofSource source).after (n + 1)).offset :=
  fun h => absurd (h (utf8 "/*") 0 (by decide)) (by decide)

end Quell
