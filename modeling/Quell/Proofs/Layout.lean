import Mathlib.Tactic.Common
import Quell.Proofs.Forest
import Quell.Proofs.Lexing
import Quell.Proofs.Run

/-!
# Proofs/Layout — where the regions of an outline lie in its buffer

An outline that comes from a buffer is `Valid`: its tokens follow each other without overlap, and
its regions lie between two braces of theirs (`Valid.braces`).  From this it follows that the places
after an opening brace and before a closing one are between tokens, and which of them coincide.
-/

namespace Quell

open Lexer

theorem Slice.mem_indices {s : Slice} {i : Nat} : i ∈ s.indices ↔ s.start ≤ i ∧ i < s.stop := by
  rw [indices, size, List.mem_range'_1]
  omega

/-- In a list sorted by a key, the last element with a key below a bound. -/
theorem getLast?_takeWhile_eq_some {α : Type} {key : α → Nat} {bound : Nat} {l : List α}
    (hsorted : l.Pairwise (key · < key ·)) {c : α} (hc : c ∈ l) (hbound : key c < bound)
    (hlast : ∀ d ∈ l, key d < bound → key d ≤ key c) :
    (l.takeWhile (key · < bound)).getLast? = some c := by
  induction l with
  | nil => cases hc
  | cons a l ih =>
    obtain ⟨hfirst, hsorted⟩ := List.pairwise_cons.mp hsorted
    rcases List.mem_cons.mp hc with rfl | hc
    · have hrest : l.takeWhile (key · < bound) = [] := by
        cases l with
        | nil => rfl
        | cons d l =>
          have := hfirst d (by simp)
          have := hlast d (by simp)
          rw [List.takeWhile_cons_of_neg (by simp; omega)]
      rw [List.takeWhile_cons_of_pos (by simpa using hbound), hrest]
      rfl
    · have := hfirst c hc
      rw [List.takeWhile_cons_of_pos (by simp; omega), List.getLast?_cons,
        ih hsorted hc fun d hd => hlast d (by simp [hd])]
      rfl

namespace Outline

/-- An offset inside no token splits none. -/
theorem splitsToken_eq_false {o : Outline} {offset : Nat}
    (hinside : ∀ t ∈ o.tokens, ¬(t.start < offset ∧ offset < t.stop)) :
    o.splitsToken offset = false := by
  rw [splitsToken, ← Bool.not_eq_true]
  intro hsplit
  obtain ⟨t, hlast, hstop⟩ := (Option.any_eq_true _ _).mp hsplit
  have hmem := List.mem_of_getLast? hlast
  have hstart := List.all_eq_true.mp List.all_takeWhile t hmem
  exact hinside t ((List.takeWhile_sublist _).subset hmem)
    ⟨by simpa using hstart, by simpa using hstop⟩

/-- **The outline of its buffer.** -/
structure Valid (o : Outline) : Prop where
  tokenized : tokenize o.source = .ok o.tokens
  code_eq : o.code = Code.ofTokens o.tokens
  paired : Pairing.ofCode o.code = .ok o.pairing
  forest_eq : o.forest = Forest.ofCode o.code o.pairing

/-- A valid outline is the outline of its own tokens. -/
theorem Valid.ofTokens_eq {o : Outline} (h : o.Valid) : ofTokens o.source o.tokens = .ok o := by
  obtain ⟨-, hcode, hpaired, hforest⟩ := h
  refine ofTokens_eq_ok_iff.mpr ⟨o.pairing, hcode ▸ hpaired, ?_⟩
  rw [← hcode, ← hforest]

/-- **The outline of a buffer is the valid one with that source.** -/
theorem ofSource_eq_ok_iff_valid {source : Bytes} {o : Outline} :
    ofSource source = .ok o ↔ o.source = source ∧ o.Valid := by
  rw [ofSource_eq_ok_iff]
  constructor
  · rintro ⟨tokens, htokens, ho⟩
    obtain ⟨pairing, hpairing, rfl⟩ := ofTokens_eq_ok_iff.mp ho
    exact ⟨rfl, htokens, rfl, hpairing, rfl⟩
  · rintro ⟨rfl, hvalid⟩
    exact ⟨o.tokens, hvalid.tokenized, hvalid.ofTokens_eq⟩

/-- Evaluation gives the outline of a buffer. -/
theorem exists_ofSource {α : Type} (source : Bytes) (f : Outline → α) {a : α}
    (h : (ofSource source).toOption.map f = some a) : ∃ o, ofSource source = .ok o ∧ f o = a := by
  cases hsource : ofSource source with
  | error fault =>
    rw [hsource] at h
    cases h
  | ok o =>
    rw [hsource] at h
    exact ⟨o, rfl, Option.some.inj h⟩

namespace Valid

variable {o : Outline}

/-! ## Tokens -/

theorem pairwise (h : o.Valid) : o.tokens.Pairwise fun t u => t.stop ≤ u.start := by
  obtain ⟨fresh', hlexes⟩ := tokenize_eq_ok_iff.mp h.tokenized
  exact hlexes.pairwise

/-- Tokens are not empty and stand in the buffer. -/
theorem bounds (h : o.Valid) {t : Token} (ht : t ∈ o.tokens) :
    t.start < t.stop ∧ t.stop ≤ o.source.length := by
  obtain ⟨fresh', hlexes⟩ := tokenize_eq_ok_iff.mp h.tokenized
  have := hlexes.bounds ht
  omega

/-- The code is the tokens that are no trivia. -/
theorem toList_code (h : o.Valid) : o.code.toList = o.tokens.filter (!·.isTrivia) := by
  rw [h.code_eq, Code.ofTokens]

theorem mem_tokens (h : o.Valid) {i : Nat} {t : Token} (ht : o.code[i]? = some t) :
    t ∈ o.tokens := by
  have hmem : t ∈ o.code.toList := List.mem_of_getElem? (by simpa using ht)
  rw [h.toList_code] at hmem
  exact (List.mem_filter.mp hmem).1

/-- Code tokens follow each other in the buffer as they do in the code. -/
theorem stop_le_start (h : o.Valid) {i j : Nat} {t u : Token} (hij : i < j)
    (ht : o.code[i]? = some t) (hu : o.code[j]? = some u) : t.stop ≤ u.start := by
  have hsorted : o.code.toList.Pairwise fun t u => t.stop ≤ u.start := by
    rw [h.toList_code]
    exact h.pairwise.filter _
  rw [← Array.getElem?_toList] at ht hu
  obtain ⟨hi, rfl⟩ := List.getElem?_eq_some_iff.mp ht
  obtain ⟨hj, rfl⟩ := List.getElem?_eq_some_iff.mp hu
  exact List.pairwise_iff_getElem.mp hsorted i j hi hj hij

/-- No token reaches over an end of another. -/
theorem not_inside (h : o.Valid) {t u : Token} (ht : t ∈ o.tokens) (hu : u ∈ o.tokens) :
    ¬(u.start < t.start ∧ t.start < u.stop) ∧ ¬(u.start < t.stop ∧ t.stop < u.stop) := by
  have htb := h.bounds ht
  have hub := h.bounds hu
  have key : t = u ∨ t.stop ≤ u.start ∨ u.stop ≤ t.start := by
    obtain ⟨i, hi, rfl⟩ := List.getElem_of_mem ht
    obtain ⟨j, hj, rfl⟩ := List.getElem_of_mem hu
    have hsorted := List.pairwise_iff_getElem.mp h.pairwise
    rcases Nat.lt_trichotomy i j with hij | rfl | hij
    · exact .inr (.inl (hsorted i j hi hj hij))
    · exact .inl rfl
    · exact .inr (.inr (hsorted j i hj hi hij))
  rcases key with rfl | hle | hle <;> omega

/-! ## Regions -/

theorem balanced (h : o.Valid) : Balanced o.code.toList :=
  Pairing.exists_ofCode_iff.mp ⟨o.pairing, h.paired⟩

theorem numbered (h : o.Valid) :
    Forest.Numbered o.code o.pairing o.code.size o.forest.regions := by
  rw [h.forest_eq]
  exact Forest.ofCode_numbered o.code o.pairing

theorem get?_id (h : o.Valid) {r : Region} (hr : r ∈ o.forest.toList) :
    o.forest.get? r.id = some r := by
  obtain ⟨k, hk⟩ := List.getElem?_of_mem hr
  rw [Forest.toList, Array.getElem?_toList] at hk
  rw [h.numbered.id_eq k r hk]
  exact hk

/-- Regions that open at the same brace are the same. -/
theorem region_ext (h : o.Valid) {r q : Region} (hr : r ∈ o.forest.toList)
    (hq : q ∈ o.forest.toList) (hopening : r.opening = q.opening) : r = q := by
  obtain ⟨i, hi, rfl⟩ := List.getElem_of_mem hr
  obtain ⟨j, hj, rfl⟩ := List.getElem_of_mem hq
  have hsorted := List.pairwise_iff_getElem.mp h.numbered.ordered
  rcases Nat.lt_trichotomy i j with hij | rfl | hij
  · exact absurd hopening (Nat.ne_of_lt (hsorted i j hi hj hij))
  · rfl
  · exact absurd hopening.symm (Nat.ne_of_lt (hsorted j i hj hi hij))

/-- **The braces of a region**: they match, and its byte offsets are theirs. -/
theorem braces (h : o.Valid) {r : Region} (hr : r ∈ o.forest.toList) :
    ∃ opener closer, o.code[r.opening]? = some opener ∧ o.code[r.closing]? = some closer ∧
      opener.opening? = some .curly ∧ closer.closing? = some .curly ∧
      Matched o.code.toList r.opening r.closing ∧
      r.start = opener.start ∧ r.bodyOffset = opener.stop ∧ r.closeOffset = closer.start := by
  obtain ⟨opener, closer, hopener, hcloser, hopen, hclose, hmatch, hstart, hstop⟩ :=
    (h.numbered.formed r (Array.mem_toList_iff.mp hr)).matched h.paired
  have htext : ∀ {t : Token} {word : String}, t.isMark word = true → (utf8 word).length = 1 →
      t.stop = t.start + 1 := by
    intro t word hmark hlen
    rw [Token.stop, (Token.isMark_iff.mp hmark).2, hlen]
  have hopenStop := htext (Token.opening?_eq_some_iff.mp hopen) (by decide)
  have hcloseStop := htext (Token.closing?_eq_some_iff.mp hclose) (by decide)
  refine ⟨opener, closer, hopener, hcloser, hopen, hclose, hmatch, hstart, ?_, ?_⟩
  · rw [Region.bodyOffset, hstart, hopenStop]
  · rw [Region.closeOffset, hstop, hcloseStop]
    rfl

/-- Bodies start in the order of the opening braces. -/
theorem bodyOffset_lt (h : o.Valid) {r q : Region} (hr : r ∈ o.forest.toList)
    (hq : q ∈ o.forest.toList) (hlt : r.opening < q.opening) : r.bodyOffset < q.bodyOffset := by
  obtain ⟨first, -, hfirst, -, -, -, -, -, hbody, -⟩ := h.braces hr
  obtain ⟨second, -, hsecond, -, -, -, -, -, hbody', -⟩ := h.braces hq
  have := h.stop_le_start hlt hfirst hsecond
  have := (h.bounds (h.mem_tokens hsecond)).1
  omega

/-- Regions whose bodies start at the same byte are the same. -/
theorem region_ext_of_bodyOffset (h : o.Valid) {r q : Region} (hr : r ∈ o.forest.toList)
    (hq : q ∈ o.forest.toList) (hbody : r.bodyOffset = q.bodyOffset) : r = q := by
  refine h.region_ext hr hq ?_
  rcases Nat.lt_trichotomy r.opening q.opening with hlt | heq | hlt
  · exact absurd hbody (Nat.ne_of_lt (h.bodyOffset_lt hr hq hlt))
  · exact heq
  · exact absurd hbody.symm (Nat.ne_of_lt (h.bodyOffset_lt hq hr hlt))

/-- No two bodies end at one place. -/
theorem closeOffset_ne (h : o.Valid) {r q : Region} (hr : r ∈ o.forest.toList)
    (hq : q ∈ o.forest.toList) (hne : r.opening ≠ q.opening) : r.closeOffset ≠ q.closeOffset := by
  obtain ⟨-, first, -, hfirst, -, -, hmatch, -, -, hclose⟩ := h.braces hr
  obtain ⟨-, second, -, hsecond, -, -, hmatch', -, -, hclose'⟩ := h.braces hq
  have hwide := (h.bounds (h.mem_tokens hfirst)).1
  have hwide' := (h.bounds (h.mem_tokens hsecond)).1
  rw [hclose, hclose']
  rcases Nat.lt_trichotomy r.closing q.closing with hlt | heq | hlt
  · have := h.stop_le_start hlt hfirst hsecond
    omega
  · rw [← heq] at hmatch'
    exact absurd (hmatch.left_unique hmatch') hne
  · have := h.stop_le_start hlt hsecond hfirst
    omega

/-- The place after an opening brace and the place before a closing one coincide only in an empty
region. -/
theorem bodyOffset_ne_closeOffset (h : o.Valid) {r q : Region} (hr : r ∈ o.forest.toList)
    (hq : q ∈ o.forest.toList) (hne : r ≠ q) : r.bodyOffset ≠ q.closeOffset := by
  obtain ⟨opener, -, hopener, -, hopen, -, -, -, hbody, -⟩ := h.braces hr
  obtain ⟨-, closer, -, hcloser, -, hclose, hmatch, -, -, hcloseOffset⟩ := h.braces hq
  have hwide := (h.bounds (h.mem_tokens hopener)).1
  have hwide' := (h.bounds (h.mem_tokens hcloser)).1
  intro heq
  have hlt : r.opening < q.closing := by
    rcases Nat.lt_trichotomy r.opening q.closing with hlt | hsame | hlt
    · exact hlt
    · rw [hsame, hcloser] at hopener
      cases hopener
      omega
    · have := h.stop_le_start hlt hcloser hopener
      omega
  -- No token fits between the two braces, so they stand next to each other and match.
  have hnext : q.closing = r.opening + 1 := by
    by_contra hfar
    have hsize : r.opening + 1 < o.code.size := by
      have := (Array.getElem?_eq_some_iff.mp hcloser).1
      omega
    have hmiddle := Array.getElem?_eq_getElem hsize
    have := h.stop_le_start (Nat.lt_succ_self _) hopener hmiddle
    have := (h.bounds (h.mem_tokens hmiddle)).1
    have := h.stop_le_start (by omega : r.opening + 1 < q.closing) hmiddle hcloser
    omega
  have hmatch' : Matched o.code.toList r.opening q.closing := by
    refine ⟨hlt, opener, closer, .curly, by simpa using hopener, by simpa using hcloser, hopen,
      hclose, ?_⟩
    rw [hnext, between, List.drop_eq_nil_of_le (by rw [List.length_take]; omega)]
    exact .nil
  exact hne (h.region_ext hr hq (hmatch'.left_unique hmatch))

end Valid

end Outline

end Quell
