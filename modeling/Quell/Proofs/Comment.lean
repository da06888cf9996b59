import Mathlib.Tactic.Common
import Quell.Proofs.Chunk

/-!
# Proofs/Comment — a comment reads like a blank

No token before a comment can tell its slash from a blank (`Yields.of_slash`), so blanking a comment
leaves the tokens before it as they are.  What follows it may be read from a fresh line instead of a
line in use, and that matters to one token only: a hash in first place (`Lexes.refresh`).  So the
code tokens stay, except where the comment is all that keeps a hash from being first on its line.
-/

namespace Quell

namespace Lexer

/-! ## Tokens that are comments -/

theorem wordExtent_kind_ne {b : UInt8} {rest : Bytes} {kind : Kind} {more : Nat}
    (h : wordExtent b rest = .ok ⟨kind, more⟩) : kind ≠ .comment := by
  obtain ⟨y, r, rfl, hy⟩ := exists_nameWidth rest
  rw [wordExtent_append hy] at h
  split at h
  · obtain ⟨n, -, rfl, -⟩ := literalExtent_eq_ok_iff.mp h
    decide
  · cases h
    rw [Kind.ofWord]
    split <;> decide

/-- **A comment begins with a slash.** -/
theorem eq_slash_of_scan {fresh : Bool} {b : UInt8} {rest : Bytes} {more : Nat}
    (h : scan fresh b rest = .ok ⟨.comment, more⟩) : b = Byte.slash := by
  cases hhash : b == Byte.hash && fresh with
  | true =>
    obtain ⟨rfl, rfl⟩ : b = Byte.hash ∧ fresh = true := by simpa using hhash
    rw [scan_directive] at h
    split at h <;> cases h
  | false =>
    rw [scan_plain hhash] at h
    split_ifs at h with hcomment hquote hnumber hname
    · exact beq_iff_eq.mp (Bool.and_eq_true_iff.mp hcomment).1
    · obtain ⟨n, -, hkind, -⟩ := literalExtent_eq_ok_iff.mp h
      cases hkind
    · cases h
    · exact absurd rfl (wordExtent_kind_ne h)
    · have hkind := punctuationExtent_kind b rest
      rw [Except.ok.inj h] at hkind
      cases hkind

/-- **No token before a slash can tell it from a blank.**  A slash before it would open a comment
with it, and so is no token of its own. -/
theorem Yields.of_slash (v v' : Bytes) : Yields (Byte.slash :: v) (Byte.space :: v') where
  line hends := by
    rcases hends with (h | ⟨_, h⟩ | ⟨_, h⟩) | h | ⟨_, h⟩ | ⟨_, h⟩ <;> cases h
  front p _ hp := by
    cases p with
    | nil => simp
    | cons c p =>
      have hc := hp c (by simp)
      have hslash : c ≠ Byte.slash := by rintro rfl; exact absurd hc (by decide)
      have hspace : c ≠ Byte.space := by rintro rfl; exact absurd hc (by decide)
      simp [List.cons_prefix_cons, hslash, hspace]
  slash h := by cases h

/-! ## First on a line -/

/-- No token stands on the line before what follows these tokens: there are none, or a newline
outside a splice comes after the last. -/
def opensLine (source : Bytes) (before : List Token) : Bool :=
  before.getLast?.all fun t => (gap (source.drop t.stop)).2

/-- A derivation tells of the place where it ends whether it is first on its line: there are only
blanks after the last token, if any. -/
theorem Lexes.fresh_eq {u a v : Bytes} {fresh mid : Bool} {before : List Token}
    (h : Lexes u.length fresh a v before mid) (hv : Lexer.gap v = (0, false)) :
    mid = before.getLast?.elim (fresh || (Lexer.gap (a ++ v)).2)
      fun t => (Lexer.gap ((u ++ (a ++ v)).drop t.stop)).2 := by
  generalize hstart : u.length = start at h
  induction h generalizing u with
  | nil => simp [hv]
  | @gap start fresh _ nl g w v tokens hg htail ih =>
    have := @ih (u ++ g) hv (by rw [List.length_append, hstart])
    rw [this, List.append_assoc, List.append_assoc, gap_append hg, Bool.or_assoc]
  | @token start fresh _ b x w v kind tokens _ _ htail ih =>
    have hlen : (u ++ b :: x).length = start + 1 + x.length := by
      rw [List.length_append, List.length_cons, hstart]
      omega
    have hassoc : u ++ (b :: (x ++ w) ++ v) = (u ++ b :: x) ++ (w ++ v) := by simp
    rw [@ih (u ++ b :: x) hv hlen, List.getLast?_cons, Option.elim_some, hassoc]
    cases htokens : tokens.getLast? with
    | some t => rfl
    | none =>
      have hstop : Token.stop ⟨kind, b :: x, start⟩ = (u ++ b :: x).length := by
        simp only [hlen, Token.stop, List.length_cons]
        omega
      rw [Option.getD_none, hstop, List.drop_left, Option.elim_none, Bool.false_or]

/-- **Only a hash can tell a fresh line from one in use.** -/
theorem Lexes.refresh {start : Nat} {fresh' : Bool} {w v : Bytes} {tokens : List Token}
    (h : Lexes start false w v tokens fresh')
    (hhash : tokens.head?.any (·.isMark "#") = false) (fresh : Bool) :
    ∃ fresh'', Lexes start fresh w v tokens fresh'' := by
  generalize hfalse : false = used at h
  induction h with
  | nil => exact ⟨fresh, .nil⟩
  | @gap start used _ nl g w v tokens hg htail ih =>
    subst hfalse
    cases nl with
    | true => exact ⟨_, .gap hg (by rwa [Bool.or_true] at htail ⊢)⟩
    | false =>
      obtain ⟨fresh'', hlexes⟩ := ih hhash rfl
      exact ⟨fresh'', .gap hg (by rwa [Bool.or_false])⟩
  | @token start used fresh' b x w v kind tokens hgap hscan htail ih =>
    subst hfalse
    refine ⟨fresh', .token hgap ?_ htail⟩
    by_cases hb : b = Byte.hash
    · -- In use, the line makes a hash a mark of its own.
      subst hb
      have hmark : scan false Byte.hash (x ++ (w ++ v)) = .ok ⟨.punctuation, 0⟩ := rfl
      rw [hmark] at hscan
      simp only [Except.ok.injEq, Extent.mk.injEq] at hscan
      obtain ⟨rfl, hlen⟩ := hscan
      rw [List.eq_nil_of_length_eq_zero hlen.symm] at hhash
      cases hhash
    · have hplain : ∀ line : Bool, (b == Byte.hash && line) = false := by simp [hb]
      rw [scan_plain (hplain fresh)]
      rwa [scan_plain (hplain false)] at hscan

end Lexer

/-! ## Blanking a comment -/

/-- The buffer with the bytes of a token replaced by one space. -/
def Token.blank (t : Token) (source : Bytes) : Bytes :=
  source.take t.start ++ Byte.space :: source.drop t.stop

open Lexer in
/-- **A comment may be replaced by a space**: the buffer still tokenizes, with the same code tokens,
unless the comment stands first on its line and a hash that is a mark follows it. -/
theorem tokenize_blank_comment {source : Bytes} {before after : List Token} {t : Token}
    (h : tokenize source = .ok (before ++ t :: after)) (hcomment : t.kind = .comment)
    (hhash : ¬(opensLine source before = true ∧ after.head?.any (·.isMark "#") = true)) :
    ∃ tokens, tokenize (t.blank source) = .ok tokens ∧
      reads tokens = reads (before ++ t :: after) := by
  obtain ⟨fresh', hlexes⟩ := tokenize_eq_ok_iff.mp h
  obtain ⟨a, b, x, c, mid, rfl, ht, ha, hgap, hscan, hc⟩ := hlexes.split
  have htext : t.text = b :: x := congrArg Token.text ht
  have hstart : t.start = a.length := (congrArg Token.start ht).trans (Nat.zero_add _)
  have hslash : b = Byte.slash := eq_slash_of_scan (hcomment ▸ hscan)
  rw [List.append_nil] at ha hgap
  -- Before the comment nothing changes.
  have hfront : Lexes 0 true a ([Byte.space] ++ c ++ []) before mid := by
    rw [htext, hslash] at ha
    exact ha.congr (.of_slash _ _)
  -- After it only a hash could tell the two lines apart.
  obtain ⟨fresh'', hback⟩ : ∃ fresh'', Lexes t.stop mid c [] after fresh'' := by
    cases hnext : after.head?.any (·.isMark "#") with
    | false => exact hc.refresh hnext mid
    | true =>
      have hline : opensLine (a ++ (t.text ++ c)) before = mid := by
        have hfresh := Lexes.fresh_eq (u := []) ha (by rwa [htext])
        rw [opensLine, hfresh]
        cases before.getLast? <;> rfl
      have hmid : mid = false := by
        rw [← hline]
        simpa [hnext] using hhash
      exact ⟨fresh', by rwa [hmid]⟩
  obtain ⟨tokens, hmoved, hshapes⟩ := hback.move (0 + a.length + [Byte.space].length)
  have hblank : t.blank (a ++ (t.text ++ c)) = a ++ ([Byte.space] ++ c) := by
    rw [Token.blank, Token.stop, hstart, ← List.drop_drop, List.drop_left, List.drop_left,
      List.take_left]
    rfl
  refine ⟨before ++ tokens, tokenize_eq_ok_iff.mpr ⟨fresh'', ?_⟩, ?_⟩
  · rw [hblank]
    refine hfront.append (.gap (.spacing (by decide) .nil) ?_)
    rwa [Bool.or_false]
  · have htrivia : reads [t] = [] := by
      rw [reads, List.filter_cons, Token.isTrivia, hcomment]
      rfl
    rw [reads_append, reads_append, ← List.singleton_append, reads_append, htrivia,
      List.nil_append, reads_congr hshapes]

/-- A comment over two lines, after a word and before a hash that is no directive. -/
theorem tokenize_blank_comment_before_hash :
    ∃ tokens,
      tokenize (Token.blank ⟨.comment, utf8 "/*\n*/", 4⟩ (utf8 "#a\nx/*\n*/#y")) = .ok tokens ∧
      Lexer.reads tokens =
        [(.identifier, utf8 "x"), (.punctuation, utf8 "#"), (.identifier, utf8 "y")] := by
  have hlexed : tokenize (utf8 "#a\nx/*\n*/#y") =
      .ok ([⟨.directive, utf8 "#a", 0⟩, ⟨.identifier, utf8 "x", 3⟩] ++
        ⟨.comment, utf8 "/*\n*/", 4⟩ ::
          [⟨.punctuation, utf8 "#", 9⟩, ⟨.identifier, utf8 "y", 10⟩]) := by decide +kernel
  exact tokenize_blank_comment hlexed rfl (by decide +kernel)

/-- A comment first on its line keeps the hash after it from opening a directive, and a space does
not. -/
theorem not_forall_tokenize_blank_comment :
    ¬∀ (source : Bytes) (tokens : List Token) (t : Token), tokenize source = .ok tokens →
      t ∈ tokens → t.kind = .comment → ∃ tokens', tokenize (t.blank source) = .ok tokens' ∧
        Lexer.reads tokens' = Lexer.reads tokens := by
  intro h
  have hlexed : tokenize (utf8 "/**/ #a") = .ok [⟨.comment, utf8 "/**/", 0⟩,
      ⟨.punctuation, utf8 "#", 5⟩, ⟨.identifier, utf8 "a", 6⟩] := by decide +kernel
  have hblank : tokenize (Token.blank ⟨.comment, utf8 "/**/", 0⟩ (utf8 "/**/ #a")) =
      .ok [⟨.directive, utf8 "#a", 2⟩] := by decide +kernel
  obtain ⟨tokens, htokens, hreads⟩ := h _ _ _ hlexed (.head _) rfl
  rw [hblank] at htokens
  cases htokens
  exact absurd hreads (by decide +kernel)

end Quell
