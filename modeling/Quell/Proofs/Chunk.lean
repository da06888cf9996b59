import Mathlib.Tactic.Common
import Quell.Proofs.Seam

/-!
# Proofs/Chunk — texts that are read the same wherever they stand

A `Chunk` is a text whose code tokens do not depend on what stands before and after it.  Marks that
never combine are chunks, a word with such a mark after it is one, and so is any text without
brackets, quotes, slashes and hashes once a semicolon ends it.  Chunks compose.
-/

namespace Quell

namespace Lexer

/-- The code tokens among tokens, without their places. -/
def reads (tokens : List Token) : List (Kind × Bytes) :=
  (tokens.filter (!·.isTrivia)).map Token.shape

theorem reads_append (u w : List Token) : reads (u ++ w) = reads u ++ reads w := by
  rw [reads, List.filter_append, List.map_append]
  rfl

theorem reads_congr {u w : List Token} (h : u.map Token.shape = w.map Token.shape) :
    reads u = reads w := by
  have key : ∀ tokens : List Token, reads tokens =
      (tokens.map Token.shape).filter fun s => !(s.1 == .comment || s.1 == .directive) := by
    intro tokens
    rw [reads, List.filter_map]
    rfl
  rw [key, key, h]

/-- **A text that reads as the given code tokens wherever it stands**; `fresh'` says whether only
blanks stand before what follows it on its line. -/
def Chunk (text : Bytes) (shapes : List (Kind × Bytes)) (fresh' : Bool) : Prop :=
  ∀ start fresh v, ∃ tokens, Lexes start fresh text v tokens fresh' ∧ reads tokens = shapes

namespace Chunk

/-- A chunk after a chunk is one. -/
theorem append {u w : Bytes} {first second : List (Kind × Bytes)} {mid fresh' : Bool}
    (hu : Chunk u first mid) (hw : Chunk w second fresh') :
    Chunk (u ++ w) (first ++ second) fresh' := by
  intro start fresh v
  obtain ⟨tokens, hlexes, hreads⟩ := hu start fresh (w ++ v)
  obtain ⟨tokens', hlexes', hreads'⟩ := hw (start + u.length) mid v
  exact ⟨tokens ++ tokens', hlexes.append hlexes', by rw [reads_append, hreads, hreads']⟩

/-- Blanks before a chunk. -/
theorem gap_append {g w : Bytes} {shapes : List (Kind × Bytes)} {nl fresh' : Bool} (hg : Gap g nl)
    (hw : Chunk w shapes fresh') : Chunk (g ++ w) shapes fresh' := by
  intro start fresh v
  obtain ⟨tokens, hlexes, hreads⟩ := hw (start + g.length) (fresh || nl) v
  exact ⟨tokens, .gap hg hlexes, hreads⟩

/-- Blanks after a chunk. -/
theorem append_gap {w g : Bytes} {shapes : List (Kind × Bytes)} {nl fresh' : Bool}
    (hw : Chunk w shapes fresh') (hg : Gap g nl) : Chunk (w ++ g) shapes (fresh' || nl) := by
  intro start fresh v
  obtain ⟨tokens, hlexes, hreads⟩ := hw start fresh (g ++ v)
  have htail : Lexes (start + w.length) fresh' g v [] (fresh' || nl) := by
    have : Lexes (start + w.length) fresh' (g ++ []) v [] (fresh' || nl) := .gap hg .nil
    rwa [List.append_nil] at this
  have := hlexes.append htail
  rw [List.append_nil] at this
  exact ⟨tokens, this, hreads⟩

/-- A chunk tokenizes by itself. -/
theorem tokenize_eq {text : Bytes} {shapes : List (Kind × Bytes)} {fresh' : Bool}
    (h : Chunk text shapes fresh') :
    ∃ tokens, tokenize text = .ok tokens ∧ reads tokens = shapes := by
  obtain ⟨tokens, hlexes, hreads⟩ := h 0 true []
  exact ⟨tokens, tokenize_eq_ok_iff.mpr ⟨fresh', hlexes⟩, hreads⟩

end Chunk

/-! ## Blanks -/

/-- Blanks are a gap in which no line ends. -/
theorem gap_of_spacing {g : Bytes} (h : ∀ b ∈ g, Byte.isSpacing b = true) : Gap g false := by
  induction g with
  | nil => exact .nil
  | cons b g ih =>
    exact .spacing (h b (by simp)) (ih fun c hc => h c (List.mem_cons_of_mem b hc))

theorem Gap.append {g h : Bytes} {nl nl' : Bool} (hg : Gap g nl) (hh : Gap h nl') :
    Gap (g ++ h) (nl || nl') := by
  induction hg with
  | nil => exact hh
  | newline _ ih => exact ih.newline
  | splice _ ih => exact ih.splice
  | carriageSplice _ ih => exact ih.carriageSplice
  | spacing hb _ ih => exact ih.spacing hb

/-! ## Marks and words -/

/-- A mark that combines with nothing after it and opens nothing. -/
def lone (b : UInt8) : Bool :=
  !(b == Byte.hash || b == Byte.slash || isQuote b || Byte.isDigit b || b == Byte.dot
    || Byte.opensName b || b == 58 || b == 45 || Byte.isSpacing b || b == Byte.newline
    || b == Byte.backslash)

/-- A mark that joins nothing is a token whatever follows. -/
theorem scan_lone {b : UInt8} (h : lone b = true) (fresh : Bool) (rest : Bytes) :
    scan fresh b rest = .ok ⟨.punctuation, 0⟩ := by
  simp only [lone, Bool.not_eq_true', Bool.or_eq_false_iff] at h
  obtain ⟨⟨⟨⟨⟨⟨⟨hhash, hslash⟩, hquote⟩, hdigit⟩, hdot⟩, hname⟩, hcolon⟩, hminus⟩ := h.1.1.1
  have hmark : ∀ (c : UInt8) (p : Bytes), (b == c) = false →
      (c :: p).isPrefixOf (b :: rest) = false := by
    intro c p hc
    have : (c == b) = false := by
      rw [beq_eq_false_iff_ne] at hc ⊢
      exact hc.symm
    rw [List.isPrefixOf, this, Bool.false_and]
  have hwords : utf8 "..." = [46, 46, 46] ∧ utf8 "::" = [58, 58] ∧ utf8 "->" = [45, 62] := by
    decide
  rw [isQuote] at hquote
  rw [scan_plain (by rw [hhash, Bool.false_and]), hslash, Bool.false_and,
    if_neg Bool.false_ne_true, hquote, if_neg Bool.false_ne_true, hdigit, hdot, Bool.false_and,
    Bool.or_false, if_neg Bool.false_ne_true, hname, if_neg Bool.false_ne_true, punctuationExtent,
    hwords.1, hwords.2.1, hwords.2.2, hmark 46 [46, 46] hdot, if_neg Bool.false_ne_true,
    hmark 58 [58] hcolon, hmark 45 [62] hminus]
  rfl

theorem gap_lone {b : UInt8} (h : lone b = true) (rest : Bytes) :
    gap (b :: rest) = (0, false) := by
  simp only [lone, Bool.not_eq_true', Bool.or_eq_false_iff] at h
  obtain ⟨⟨⟨-, hspacing⟩, hnewline⟩, hbackslash⟩ := h
  exact gap_eq_zero_iff.mpr ⟨beq_eq_false_iff_ne.mp hnewline, hspacing,
    fun hb => beq_eq_false_iff_ne.mp hbackslash hb.1⟩

/-- **A mark that joins nothing is a token by itself.** -/
theorem lexes_lone {b : UInt8} (h : lone b = true) (start : Nat) (fresh : Bool) (v : Bytes) :
    Lexes start fresh [b] v [⟨.punctuation, [b], start⟩] false :=
  .token (x := []) (w := []) (gap_lone h _) (scan_lone h fresh _) .nil

/-- A mark that combines with nothing is a chunk. -/
theorem chunk_lone {b : UInt8} (h : lone b = true) : Chunk [b] [(.punctuation, [b])] false :=
  fun start fresh v => ⟨_, lexes_lone h start fresh v, rfl⟩

/-- A word: a byte that opens a name, and bytes that continue it. -/
def isWord : Bytes → Bool
  | [] => false
  | b :: x => Byte.opensName b && x.all Byte.continuesName

/-- A byte that opens a name opens nothing else. -/
theorem opensName_class {b : UInt8} (h : Byte.opensName b = true) :
    (b == Byte.hash) = false ∧ (b == Byte.slash) = false ∧
      (b == Byte.quote || b == Byte.tick) = false ∧ Byte.isDigit b = false ∧
      (b == Byte.dot) = false := by
  have := @forall_byte (fun c => !Byte.opensName c || !(c == Byte.hash || c == Byte.slash
    || (c == Byte.quote || c == Byte.tick) || Byte.isDigit c || c == Byte.dot))
    (by decide +kernel) b
  simpa [h, and_assoc] using this

/-- A word is a token unless a byte of a name or a quote follows. -/
theorem scan_word {b : UInt8} {x v : Bytes} (h : isWord (b :: x) = true)
    (hname : v.head?.any Byte.continuesName = false) (hquote : v.head?.any isQuote = false)
    (fresh : Bool) : scan fresh b (x ++ v) = .ok ⟨Kind.ofWord (b :: x), x.length⟩ := by
  rw [isWord, Bool.and_eq_true, List.all_eq_true] at h
  obtain ⟨hhash, hslash, hq, hdigit, hdot⟩ := opensName_class h.1
  have hwidth : nameWidth (x ++ v) = x.length := nameWidth_append_eq_iff.mpr ⟨h.2, hname⟩
  have hopened : opened? (b :: x) v.head? = none := by
    rcases v with _ | ⟨c, v⟩
    · rfl
    · simp only [List.head?_cons, Option.any_some, isQuote, Bool.or_eq_false_iff,
        beq_eq_false_iff_ne] at hquote
      rw [opened?, if_neg (by simpa using hquote.1), if_neg (by simp [hquote.2])]
  rw [scan_plain (by rw [hhash, Bool.false_and]), hslash, Bool.false_and,
    if_neg Bool.false_ne_true, hq, if_neg Bool.false_ne_true, hdigit, hdot, Bool.false_and,
    Bool.or_false, if_neg Bool.false_ne_true, if_pos h.1, wordExtent_append hwidth, hopened]

/-- An identifier is a word that is not reserved. -/
theorem isWord_of_scan {fresh : Bool} {b : UInt8} {x v : Bytes}
    (h : scan fresh b (x ++ v) = .ok ⟨.identifier, x.length⟩) :
    isWord (b :: x) = true ∧ Kind.ofWord (b :: x) = .identifier := by
  rcases hhash : b == Byte.hash && fresh with _ | _
  · rw [scan_plain hhash] at h
    split_ifs at h with hcomment _ _ hname
    · obtain ⟨result, hresult⟩ := Option.isSome_iff_exists.mp (Bool.and_eq_true_iff.mp hcomment).2
      rw [hresult, Option.getD_some] at h
      rw [h] at hresult
      cases (commentExtent?_eq_ok_iff.mp hresult).1
    · obtain ⟨n, -, hkind, -⟩ := literalExtent_eq_ok_iff.mp h
      cases hkind
    · cases h
    · obtain ⟨y, r, hyr, hy⟩ := exists_nameWidth (x ++ v)
      rw [hyr, wordExtent_append hy] at h
      split at h
      · obtain ⟨n, -, hkind, -⟩ := literalExtent_eq_ok_iff.mp h
        cases hkind
      · rw [Except.ok.injEq, Extent.mk.injEq] at h
        rw [(List.append_inj hyr h.2.symm).1, isWord, hname, Bool.true_and, List.all_eq_true]
        exact ⟨(nameWidth_append_eq_iff.mp hy).1, h.1⟩
    · rw [Except.ok.injEq] at h
      have := punctuationExtent_kind b (x ++ v)
      rw [h] at this
      cases this
  · obtain ⟨rfl, rfl⟩ : b = Byte.hash ∧ fresh = true := by simpa using hhash
    rw [scan_directive] at h
    split at h <;> cases h

/-- The names among the tokens are words. -/
theorem Lexes.isWord_of_isName {start : Nat} {fresh fresh' : Bool} {w v : Bytes}
    {tokens : List Token} (h : Lexes start fresh w v tokens fresh') {t : Token} (ht : t ∈ tokens)
    (hname : t.isName = true) : isWord t.text = true ∧ Kind.ofWord t.text = .identifier := by
  induction h with
  | nil => cases ht
  | gap _ _ ih => exact ih ht
  | token _ hscan _ ih =>
    rcases List.mem_cons.mp ht with rfl | ht
    · rw [Token.isName, beq_iff_eq] at hname
      dsimp only at hname
      rw [hname] at hscan
      exact isWord_of_scan hscan
    · exact ih ht

theorem gap_word {b : UInt8} (h : Byte.opensName b = true) (rest : Bytes) :
    gap (b :: rest) = (0, false) := by
  have := @forall_byte (fun c => !Byte.opensName c || !(c == Byte.newline || Byte.isSpacing c
    || c == Byte.backslash)) (by decide +kernel) b
  simp only [h, Bool.not_true, Bool.false_or, Bool.not_eq_true', Bool.or_eq_false_iff] at this
  exact gap_eq_zero_iff.mpr ⟨beq_eq_false_iff_ne.mp this.1.1, this.1.2,
    fun hb => beq_eq_false_iff_ne.mp this.2 hb.1⟩

/-- **A word is a token by itself**, unless a byte of a name or a quote follows. -/
theorem lexes_word {w v : Bytes} (h : isWord w = true)
    (hname : v.head?.any Byte.continuesName = false) (hquote : v.head?.any isQuote = false)
    (start : Nat) (fresh : Bool) :
    Lexes start fresh w v [⟨Kind.ofWord w, w, start⟩] false := by
  rcases w with _ | ⟨b, x⟩
  · cases h
  · have hb : Byte.opensName b = true := (Bool.and_eq_true_iff.mp h).1
    have : Lexes start fresh (b :: (x ++ [])) v [⟨Kind.ofWord (b :: x), b :: x, start⟩] false :=
      .token (gap_word hb _) (scan_word h hname hquote fresh) .nil
    rwa [List.append_nil] at this

theorem reads_word (w : Bytes) (start : Nat) :
    reads [⟨Kind.ofWord w, w, start⟩] = [(Kind.ofWord w, w)] := by
  rw [reads, Kind.ofWord]
  split_ifs <;> rfl

/-- A mark that joins nothing is no byte of a name and no quote. -/
theorem continuesName_of_lone {c : UInt8} (h : lone c = true) :
    Byte.continuesName c = false ∧ isQuote c = false := by
  simp only [lone, Bool.not_eq_true', Bool.or_eq_false_iff] at h
  obtain ⟨⟨⟨⟨⟨⟨⟨⟨⟨-, hquote⟩, hdigit⟩, -⟩, hname⟩, -⟩, -⟩, -⟩, -⟩, -⟩ := h
  exact ⟨by rw [Byte.continuesName, hname, hdigit]; rfl, hquote⟩

/-- A word with a mark after it is a chunk. -/
theorem chunk_word {w : Bytes} {c : UInt8} (hw : isWord w = true) (hc : lone c = true) :
    Chunk (w ++ [c]) [(Kind.ofWord w, w), (.punctuation, [c])] false := by
  intro start fresh v
  obtain ⟨hname, hquote⟩ := continuesName_of_lone hc
  have hword := @lexes_word w ([c] ++ v) hw (by simpa using hname) (by simpa using hquote) start
    fresh
  exact ⟨_, hword.append (lexes_lone hc (start + w.length) false v), by
    rw [reads_append, reads_word]; rfl⟩

/-! ## Plain text -/

/-- A byte of a name, a colon, a backslash or a blank. -/
def plain (b : UInt8) : Bool :=
  Byte.continuesName b || b == 58 || b == Byte.backslash || b == Byte.space || b == Byte.tab
    || b == Byte.carriage || b == Byte.newline

/-- The semicolon. -/
def semicolon : UInt8 := 59

theorem not_mem_of_continuesName {y : Bytes} (h : ∀ c ∈ y, Byte.continuesName c = true) :
    semicolon ∉ y := by
  intro hmem
  exact absurd (h _ hmem) (by decide)

/-- Before a semicolon a token of plain text ends in the text. -/
theorem scan_plainText {b : UInt8} {rest : Bytes} (hb : plain b = true)
    (hrest : ∀ c ∈ rest, plain c = true) (hgap : gap (b :: (rest ++ [semicolon])) = (0, false)) :
    ∃ kind more, scan false b (rest ++ [semicolon]) = .ok ⟨kind, more⟩ ∧ more ≤ rest.length ∧
      kind ≠ .comment ∧ kind ≠ .directive := by
  have hclass := @forall_byte (fun c => !plain c || !(c == Byte.hash || c == Byte.slash
    || isQuote c || c == Byte.dot || c == 45)) (by decide +kernel)
  have hb' := hclass b
  simp only [hb, Bool.not_true, Bool.false_or, Bool.not_eq_true', Bool.or_eq_false_iff] at hb'
  obtain ⟨⟨⟨⟨hhash, hslash⟩, hquote⟩, hdot⟩, hminus⟩ := hb'
  rw [isQuote] at hquote
  rw [scan_plain (by rw [hhash, Bool.false_and]), hslash, Bool.false_and,
    if_neg Bool.false_ne_true, hquote, if_neg Bool.false_ne_true, hdot, Bool.false_and,
    Bool.or_false]
  split_ifs with hdigit hname
  · refine ⟨_, _, rfl, ?_, by decide, by decide⟩
    -- A number takes no semicolon.
    have hle := numberWidth_le (b :: (rest ++ [semicolon]))
    simp only [List.length_cons, List.length_append, List.length_nil] at hle
    by_contra hlt
    have hall : numberWidth (b :: (rest ++ [semicolon])) = (b :: (rest ++ [semicolon])).length := by
      simp only [List.length_cons, List.length_append, List.length_nil]
      omega
    have hmem : semicolon ∈ (b :: (rest ++ [semicolon])).take
        (numberWidth (b :: (rest ++ [semicolon]))) := by
      rw [hall, List.take_length]
      simp
    exact absurd (mem_take_numberWidth hmem) (by decide)
  · -- A word takes no semicolon, and opens no literal, since no quote follows it.
    obtain ⟨y, r, hyr, hy⟩ := exists_nameWidth (rest ++ [semicolon])
    have hlen : y.length ≤ rest.length := by
      by_contra hlt
      have htotal := congrArg List.length hyr
      simp only [List.length_append, List.length_singleton] at htotal
      have hr : r = [] := List.eq_nil_of_length_eq_zero (by omega)
      rw [hr, List.append_nil] at hyr
      refine not_mem_of_continuesName (nameWidth_append_eq_iff.mp hy).1 ?_
      rw [← hyr]
      simp
    have hopened : opened? (b :: y) r.head? = none := by
      rcases r with _ | ⟨c, r⟩
      · rfl
      · have hc : isQuote c = false := by
          have hmem : c ∈ rest ++ [semicolon] := by
            rw [hyr]
            simp
          rcases List.mem_append.mp hmem with hmem | hmem
          · have := hclass c
            simp only [hrest c hmem, Bool.not_true, Bool.false_or, Bool.not_eq_true',
              Bool.or_eq_false_iff] at this
            exact this.1.1.2
          · rw [List.mem_singleton.mp hmem]
            decide
        simp only [isQuote, Bool.or_eq_false_iff, beq_eq_false_iff_ne] at hc
        rw [opened?, List.head?_cons, if_neg (by simpa using hc.1), if_neg (by simp [hc.2])]
    refine ⟨Kind.ofWord (b :: y), y.length, by rw [hyr, wordExtent_append hy, hopened], hlen, ?_,
      ?_⟩
    · rw [Kind.ofWord]
      split_ifs <;> decide
    · rw [Kind.ofWord]
      split_ifs <;> decide
  · refine ⟨.punctuation, (punctuationExtent b (rest ++ [semicolon])).more, ?_, ?_, by decide,
      by decide⟩
    · rw [← punctuationExtent_kind b (rest ++ [semicolon])]
    · have hfirst : ∀ (c : UInt8) (p : Bytes), (b == c) = false →
          (c :: p).isPrefixOf (b :: (rest ++ [semicolon])) = false := by
        intro c p hc
        have : (c == b) = false := by
          rw [beq_eq_false_iff_ne] at hc ⊢
          exact hc.symm
        rw [List.isPrefixOf, this, Bool.false_and]
      have hwords : utf8 "..." = [46, 46, 46] ∧ utf8 "::" = [58, 58] ∧ utf8 "->" = [45, 62] := by
        decide
      rw [punctuationExtent, hwords.1, hwords.2.1, hwords.2.2, hfirst 46 [46, 46] hdot,
        hfirst 45 [62] hminus, if_neg Bool.false_ne_true, Bool.or_false]
      split_ifs with hpair
      · rcases rest with _ | ⟨c, rest⟩
        · rw [List.nil_append, List.isPrefixOf, List.isPrefixOf, Bool.and_eq_true,
            Bool.and_eq_true] at hpair
          exact absurd hpair.2.1 (by decide)
        · simp
      · exact Nat.zero_le _

/-- The same wherever the text stands. -/
theorem scan_plainText_congr {b : UInt8} {x w v : Bytes} {kind : Kind} {fresh : Bool}
    (hb : plain b = true) (hv : glimpse v = [Byte.space])
    (h : scan false b (x ++ (w ++ [semicolon])) = .ok ⟨kind, x.length⟩) :
    scan fresh b (x ++ (w ++ v)) = .ok ⟨kind, x.length⟩ := by
  have hhash : (b == Byte.hash) = false := by
    rw [beq_eq_false_iff_ne]
    rintro rfl
    exact absurd hb (by decide)
  have hfresh : scan fresh b (x ++ (w ++ v)) = scan false b (x ++ (w ++ v)) := by
    rw [scan_plain (by rw [hhash, Bool.false_and]), scan_plain (by rw [hhash, Bool.false_and])]
  rw [hfresh]
  exact scan_congr h ((Yields.of_glimpse (by rw [hv]; rfl)).append w)

/-- A gap is made of blanks, newlines and backslashes. -/
theorem Gap.mem_class {g : Bytes} {nl : Bool} (hg : Gap g nl) {c : UInt8} (hc : c ∈ g) :
    (Byte.isSpacing c || c == Byte.newline || c == Byte.backslash) = true := by
  induction hg with
  | nil => cases hc
  | newline _ ih =>
    rcases List.mem_cons.mp hc with rfl | hc
    · decide
    · exact ih hc
  | splice _ ih =>
    rcases List.mem_cons.mp hc with rfl | hc
    · decide
    · rcases List.mem_cons.mp hc with rfl | hc
      · decide
      · exact ih hc
  | carriageSplice _ ih =>
    rcases List.mem_cons.mp hc with rfl | hc
    · decide
    · rcases List.mem_cons.mp hc with rfl | hc
      · decide
      · rcases List.mem_cons.mp hc with rfl | hc
        · decide
        · exact ih hc
  | spacing hb _ ih =>
    rcases List.mem_cons.mp hc with rfl | hc
    · rw [hb]
      rfl
    · exact ih hc

/-- **Plain text reads the same before anything that separates**, and its tokens are plain. -/
theorem exists_reads_plain (u : Bytes) (hu : ∀ c ∈ u, plain c = true) :
    ∃ shapes : List (Kind × Bytes), (∀ s ∈ shapes, ∀ c ∈ s.2, plain c = true) ∧
      ∀ start fresh v, glimpse v = [Byte.space] →
        ∃ tokens fresh', Lexes start fresh u v tokens fresh' ∧ reads tokens = shapes := by
  induction hn : u.length using Nat.strongRecOn generalizing u with
  | _ n ih =>
    subst hn
    obtain ⟨g, rest, hsplit, hg, -, hrest⟩ := exists_gap (u ++ [semicolon])
    -- The semicolon is no blank, so it ends what follows the blanks.
    obtain ⟨r, rfl, rfl⟩ : ∃ r, u = g ++ r ∧ rest = r ++ [semicolon] := by
      rcases rest.eq_nil_or_concat with rfl | ⟨r, c, rfl⟩
      · refine absurd (hg.mem_class (c := semicolon) ?_) (by decide)
        rw [List.append_nil] at hsplit
        rw [← hsplit]
        simp
      · rw [List.concat_eq_append, ← List.append_assoc] at hsplit
        obtain ⟨hu', hc⟩ := List.append_inj' hsplit rfl
        exact ⟨r, hu', by rw [List.concat_eq_append, hc]⟩
    rcases r with _ | ⟨b, r⟩
    · refine ⟨[], by simp, fun start fresh v _ => ⟨[], _, .gap hg .nil, rfl⟩⟩
    · have hb : plain b = true := hu b (by simp)
      obtain ⟨kind, more, hscan, hmore, hcomment, hdirective⟩ := scan_plainText hb
        (fun c hc => hu c (by simp [hc])) hrest
      obtain ⟨x, w, rfl, rfl⟩ : ∃ x w, r = x ++ w ∧ x.length = more :=
        ⟨r.take more, r.drop more, (List.take_append_drop ..).symm, by
          rw [List.length_take]; omega⟩
      obtain ⟨shapes, hplain, hlexes⟩ := ih w.length
        (by simp only [List.length_append, List.length_cons]; omega) w
        (fun c hc => hu c (by simp [hc])) rfl
      refine ⟨(kind, b :: x) :: shapes, ?_, fun start fresh v hv => ?_⟩
      · intro s hs
        rcases List.mem_cons.mp hs with rfl | hs
        · exact fun c hc => hu c (by
            rcases List.mem_cons.mp hc with rfl | hc
            · simp
            · simp [hc])
        · exact hplain s hs
      · obtain ⟨tokens, fresh', htail, hreads⟩ :=
          hlexes (start + g.length + 1 + x.length) false v hv
        rw [List.cons_append, List.append_assoc] at hrest
        rw [List.append_assoc] at hscan
        refine ⟨⟨kind, b :: x, start + g.length⟩ :: tokens, fresh',
          .gap hg (.token ?_ ?_ htail), ?_⟩
        · rw [← List.append_assoc] at hrest ⊢
          exact gap_congr hrest (.of_glimpse (by rw [hv]; rfl))
        · exact scan_plainText_congr hb hv hscan
        · have hcode : Token.isTrivia ⟨kind, b :: x, start + g.length⟩ = false := by
            simp [Token.isTrivia, hcomment, hdirective]
          rw [← hreads, reads, reads, List.filter_cons, hcode]
          rfl

/-- **Plain text with a semicolon after it is a chunk.** -/
theorem exists_chunk_plain {u : Bytes} (hu : ∀ c ∈ u, plain c = true) :
    ∃ shapes : List (Kind × Bytes), (∀ s ∈ shapes, ∀ c ∈ s.2, plain c = true) ∧
      Chunk (u ++ [semicolon]) (shapes ++ [(.punctuation, [semicolon])]) false := by
  obtain ⟨shapes, hplain, hlexes⟩ := exists_reads_plain u hu
  refine ⟨shapes, hplain, fun start fresh v => ?_⟩
  obtain ⟨tokens, mid, htokens, hreads⟩ := hlexes start fresh ([semicolon] ++ v)
    (glimpse_separates (by decide) v)
  have hmark := lexes_lone (b := semicolon) (by decide) (start + u.length) mid v
  exact ⟨_, htokens.append hmark, by rw [reads_append, hreads]; rfl⟩

end Lexer

end Quell
