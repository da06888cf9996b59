import Mathlib.Tactic.Common
import Quell.Proofs.Heading

/-!
# Proofs/Wedge — code with a stretch put in before one token

    code   ⋯ a b │ c d ⋯          code'  ⋯ a b │ stretch │ c d ⋯

A `Wedge` is a stretch of tokens and the place it goes to; it moves every token from there on
(`Wedge.move`).  It `Cleaves` a code if the stretch closes what it opens, ends a statement, and goes
after an opening brace or before a closing one.  Then a token keeps its partner, a test of a token
its answer, and a test of the token before it too unless it tells an opening brace from a `;`: that
is what stands before the first token after the stretch.
-/

namespace Quell

open Declaration

/-! ## Tests that stay in a statement -/

/-- The test accepts no token that ends a statement or bounds a block. -/
def Inner (test : Token → Bool) : Prop := ∀ t, endsStatement t = true → test t = false

/-- A test that fails at `;` and at braces may only hold inside a statement. -/
theorem Inner.of {test : Token → Bool}
    (hend : ∀ start, test ⟨.punctuation, utf8 ";", start⟩ = false)
    (hopen : ∀ start, test ⟨.punctuation, utf8 "\x7b", start⟩ = false)
    (hclose : ∀ start, test ⟨.punctuation, utf8 "\x7d", start⟩ = false) : Inner test := by
  intro t ht
  obtain ⟨word, hword, hmark⟩ := Token.isMarkIn_iff.mp ht
  obtain ⟨kind, text, start⟩ := t
  obtain ⟨rfl, rfl⟩ := Token.isMark_iff.mp hmark
  simp only [List.mem_cons, List.not_mem_nil, or_false] at hword
  rcases hword with rfl | rfl | rfl
  · exact hend start
  · exact hopen start
  · exact hclose start

/-- A test that only accepts names and keywords. -/
theorem Inner.of_kind {test : Token → Bool}
    (h : ∀ t : Token, t.kind = .punctuation → test t = false) : Inner test := by
  intro t ht
  obtain ⟨word, -, hmark⟩ := Token.isMarkIn_iff.mp ht
  exact h t (Token.isMark_iff.mp hmark).1

theorem inner_isName : Inner Token.isName := .of_kind fun t ht => by rw [Token.isName, ht]; rfl

theorem inner_isKeyword (word : String) : Inner (·.isKeyword word) :=
  .of_kind fun t ht => by rw [Token.isKeyword, ht]; rfl

theorem inner_isMark {word : String}
    (hword : ∀ other ∈ [";", "\x7b", "\x7d"], utf8 word ≠ utf8 other) : Inner (·.isMark word) := by
  intro t ht
  obtain ⟨other, hother, hmark⟩ := Token.isMarkIn_iff.mp ht
  exact Token.isMark_eq_false hmark (hword other hother).symm

theorem inner_isMacroLike : Inner isMacroLike :=
  .of_kind fun t ht => by rw [isMacroLike, Token.isName, ht]; rfl

theorem Inner.or {p q : Token → Bool} (hp : Inner p) (hq : Inner q) :
    Inner (fun t => p t || q t) := fun t ht => by
  show (p t || q t) = false
  rw [hp t ht, hq t ht]
  rfl

theorem Inner.or_and {p q : Token → Bool} (hp : Inner p) (hq : Inner q) (b : Bool) :
    Inner (fun t => p t || (q t && b)) := fun t ht => by
  show (p t || (q t && b)) = false
  rw [hp t ht, hq t ht]
  rfl

/-- What an argument in parentheses can belong to in a trailer. -/
theorem inner_callWord : Inner fun t =>
    t.isKeywordIn trailerCallWords || t.spells "__attribute__" || t.spells "__declspec" :=
  .of (fun _ => rfl) (fun _ => rfl) fun _ => rfl

theorem inner_isTrailerWord : Inner isTrailerWord :=
  .of (fun _ => rfl) (fun _ => rfl) fun _ => rfl

theorem inner_isReturnWord : Inner isReturnWord :=
  .of (fun _ => rfl) (fun _ => rfl) fun _ => rfl

theorem inner_endsReturnType : Inner endsReturnType :=
  .of (fun _ => rfl) (fun _ => rfl) fun _ => rfl

namespace Code

variable {code : Code} {a b i k : Nat} {test : Token → Bool}

/-- A token with a test of that kind ends no statement. -/
theorem not_endsStatement_of_has (htest : Inner test) (h : code.has i test = true) :
    code.has i endsStatement = false := by
  obtain ⟨t, ht, hpasses⟩ := (Option.any_eq_true _ _).mp h
  rw [has, ht, Option.any_some, ← Bool.not_eq_true]
  intro hends
  exact Bool.false_ne_true ((htest t hends).symm.trans hpasses)

theorem mark_of_not_endsStatement (h : code.has i endsStatement = false) {word : String}
    (hword : word ∈ [";", "\x7b", "\x7d"]) : code.mark i word = false :=
  Bool.not_eq_true _ ▸ fun hmark =>
    Bool.false_ne_true (h.symm.trans (has_isMarkIn_iff.mpr ⟨word, hword, hmark⟩))

theorem has_endsStatement_of_mark {word : String} (h : code.mark i word = true)
    (hword : word ∈ [";", "\x7b", "\x7d"]) : code.has i endsStatement = true :=
  has_isMarkIn_iff.mpr ⟨word, hword, h⟩

/-- No closing brace stands where an unbroken run starts. -/
theorem Unbroken.not_closer (h : code.Unbroken a b) (hle : a ≤ b)
    (hb : code.mark b "\x7d" = false) : code.mark a "\x7d" = false := by
  rcases Nat.eq_or_lt_of_le hle with rfl | hlt
  · exact hb
  · exact mark_of_not_endsStatement (h a (Nat.le_refl a) hlt) (by decide)

theorem not_closer_of_has (htest : Inner test) (h : code.has i test = true) :
    code.mark i "\x7d" = false :=
  mark_of_not_endsStatement (not_endsStatement_of_has htest h) (by decide)

/-- A run up to a token and the run from there. -/
theorem slice_append {c : Nat} (hab : a ≤ b) (hbc : b ≤ c) :
    code.slice ⟨a, b⟩ ++ code.slice ⟨b, c⟩ = code.slice ⟨a, c⟩ := by
  rw [slice, slice, slice, ← Array.toList_append]
  dsimp only
  rw [Array.extract_append_extract, Nat.min_eq_left hab, Nat.max_eq_right hbc]

end Code

/-! ## Wedges -/

/-- A stretch of tokens to be put in. -/
structure Wedge where
  /-- The token that the stretch goes before. -/
  place : Nat
  /-- The stretch. -/
  chunk : List Token

namespace Wedge

/-- Where the token at an index goes. -/
def move (w : Wedge) (i : Nat) : Nat := if i < w.place then i else i + w.chunk.length

/-- Where what follows the token before an index goes: before the stretch, if that is the place. -/
def reach (w : Wedge) (i : Nat) : Nat := if i ≤ w.place then i else i + w.chunk.length

/-- A run, by where its ends go. -/
def moveSlice (w : Wedge) (s : Slice) : Slice := ⟨w.move s.start, w.move s.stop⟩

/-- A group, by where its brackets go. -/
def moveGroup (w : Wedge) (g : Group) : Group := ⟨w.move g.opening, w.move g.closing⟩

/-- The head of a function, by where its parameter list goes. -/
def moveHead (w : Wedge) (head : FunctionHead) : FunctionHead :=
  { head with params := w.moveGroup head.params }

/-- The kind of a region, by where its groups go. -/
def moveKind (w : Wedge) : RegionKind → RegionKind
  | .functionBody head => .functionBody (w.moveHead head)
  | .switchBody condition => .switchBody (w.moveGroup condition)
  | kind => kind

/-- A region, by where its braces go. -/
def moveRegion (w : Wedge) (r : Region) : Region :=
  { r with kind := w.moveKind r.kind, opening := w.move r.opening, closing := w.move r.closing }

/-- The stretch does not go between the tokens `a` and `b`. -/
def Clear (w : Wedge) (a b : Nat) : Prop := w.place ≤ a ∨ b < w.place

variable {w : Wedge} {a b i j k : Nat}

/-! ## Where tokens go -/

theorem move_of_lt (h : i < w.place) : w.move i = i := if_pos h

theorem move_of_le (h : w.place ≤ i) : w.move i = i + w.chunk.length := if_neg (Nat.not_lt.mpr h)

theorem le_move (i : Nat) : i ≤ w.move i := by
  rw [move]
  split_ifs <;> omega

theorem move_le_add (i : Nat) : w.move i ≤ i + w.chunk.length := by
  rw [move]
  split_ifs <;> omega

/-- Moving keeps the order. -/
theorem move_lt_iff : w.move i < w.move j ↔ i < j := by
  rw [move, move]
  split_ifs <;> omega

theorem move_le_iff : w.move i ≤ w.move j ↔ i ≤ j := by
  rw [← Nat.not_lt, move_lt_iff, Nat.not_lt]

theorem move_inj : w.move i = w.move j ↔ i = j := by
  rw [move, move]
  split_ifs <;> omega

theorem move_succ (h : i + 1 ≠ w.place) : w.move (i + 1) = w.move i + 1 := by
  rw [move, move]
  split_ifs <;> omega

theorem move_pred (hpos : 0 < i) (h : i ≠ w.place) : w.move (i - 1) = w.move i - 1 := by
  obtain ⟨k, rfl⟩ : ∃ k, i = k + 1 := ⟨i - 1, by omega⟩
  rw [move_succ h, Nat.add_sub_cancel, Nat.add_sub_cancel]

@[simp] theorem reach_succ (i : Nat) : w.reach (i + 1) = w.move i + 1 := by
  rw [reach, move]
  split_ifs <;> omega

/-- A bound right before the stretch stays. -/
theorem reach_place : w.reach w.place = w.place := if_pos (Nat.le_refl _)

theorem reach_of_ne (h : i ≠ w.place) : w.reach i = w.move i := by
  rw [reach, move]
  split_ifs <;> omega

theorem reach_inj : w.reach i = w.reach j ↔ i = j := by
  rw [reach, reach]
  split_ifs <;> omega

/-- Bounds keep their order with the tokens. -/
theorem move_lt_reach_iff : w.move i < w.reach j ↔ i < j := by
  rw [reach, move]
  split_ifs <;> omega

/-- A place in the new code is that of a token or one in the stretch. -/
theorem move_or_chunk (w : Wedge) (m : Nat) :
    (∃ i, m = w.move i) ∨ ∃ k < w.chunk.length, m = w.place + k := by
  rcases Nat.lt_or_ge m w.place with hm | hm
  · exact .inl ⟨m, (move_of_lt hm).symm⟩
  rcases Nat.lt_or_ge m (w.place + w.chunk.length) with hm' | hm'
  · exact .inr ⟨m - w.place, by omega, by omega⟩
  · refine .inl ⟨m - w.chunk.length, ?_⟩
    rw [move_of_le (by omega)]
    omega

/-- A clear run moves as a whole. -/
theorem Clear.move_add (h : w.Clear a b) (ha : a ≤ i) (hb : i ≤ b) :
    w.move i + a = i + w.move a := by
  rw [move, move]
  rcases h with h | h <;> split_ifs <;> omega

/-- A part of a run that the stretch does not go into is one too. -/
theorem Clear.mono (h : w.Clear a b) (ha : a ≤ i) (hb : j ≤ b) : w.Clear i j := by
  rcases h with h | h
  · exact .inl (Nat.le_trans h ha)
  · exact .inr (Nat.lt_of_le_of_lt hb h)

theorem Clear.trans {c : Nat} (hab : w.Clear a b) (hbc : w.Clear b c) : w.Clear a c := by
  rw [Clear] at *
  omega

theorem Clear.move_succ (h : w.Clear a b) (ha : a ≤ i) (hb : i < b) :
    w.move (i + 1) = w.move i + 1 :=
  Wedge.move_succ (by rcases h with h | h <;> omega)

/-- **Nothing among the tokens is declared**: a name stands after a parenthesis or a `case`, or it
belongs to a qualified label. -/
def Mute (tokens : List Token) : Prop :=
  ∀ j t, tokens[j]? = some t → t.isName = true → ∃ i u, j = i + 1 ∧ tokens[i]? = some u ∧
    (u.isMarkIn ["(", ")"] = true ∨ u.isKeyword "case" = true ∨
      u.isMark "::" = true ∧ ∃ v, tokens[j + 1]? = some v ∧ v.isMarkIn [":", "::"] = true)

/-- **The wedge cleaves a code whose brackets are paired.** -/
structure Cleaves (w : Wedge) (code code' : Code) (pairing pairing' : Pairing) : Prop where
  paired : Pairing.ofCode code = .ok pairing
  paired' : Pairing.ofCode code' = .ok pairing'
  toList_eq : code'.toList = code.toList.take w.place ++ w.chunk ++ code.toList.drop w.place
  place_lt : w.place < code.size
  balanced : Balanced w.chunk
  braces_eq : Forest.braces w.chunk = []
  /-- The stretch ends a statement. -/
  last : ∃ t, w.chunk.getLast? = some t ∧ t.isMark ";" = true
  /-- It goes after an opening brace, or before a closing one and starts with a keyword. -/
  spot : code.markBefore w.place "\x7b" = true ∨
    code.mark w.place "\x7d" = true ∧ ∃ t, w.chunk.head? = some t ∧ t.kind = .keyword
  /-- No `operator` stands among the four tokens before it. -/
  operator : ∀ k, k < w.place → w.place ≤ k + 4 → code.has k (·.isKeyword "operator") = false
  /-- None stands in it. -/
  plain : ∀ t ∈ w.chunk, t.isKeyword "operator" = false
  mute : Mute w.chunk

namespace Cleaves

variable {code code' : Code} {pairing pairing' : Pairing}
  (h : w.Cleaves code code' pairing pairing')

include h

/-! ## Tokens and tests -/

/-- The code grows by the stretch. -/
theorem size_eq : code'.size = code.size + w.chunk.length := by
  have hlength := congrArg List.length h.toList_eq
  have hplace := h.place_lt
  rw [List.length_append, List.length_append, List.length_take, List.length_drop,
    Array.length_toList, Array.length_toList] at hlength
  omega

theorem width_pos : 0 < w.chunk.length := by
  obtain ⟨t, ht, -⟩ := h.last
  exact List.length_pos_of_mem (List.mem_of_getLast? ht)

theorem length_take : (code.toList.take w.place).length = w.place := by
  rw [List.length_take, Array.length_toList, Nat.min_eq_left (Nat.le_of_lt h.place_lt)]

/-- **Every token is still there.** -/
theorem getElem?_move (i : Nat) : code'[w.move i]? = code[i]? := by
  have hlength := h.length_take
  rw [← Array.getElem?_toList, ← Array.getElem?_toList, h.toList_eq, move]
  split_ifs with hi
  · rw [List.append_assoc, List.getElem?_append_left (by omega), List.getElem?_take_of_lt hi]
  · rw [List.getElem?_append_right (by rw [List.length_append]; omega), List.getElem?_drop,
      List.length_append, hlength]
    congr 1
    omega

/-- **The stretch stands before its place.** -/
theorem getElem?_chunk {k : Nat} (hk : k < w.chunk.length) :
    code'[w.place + k]? = w.chunk[k]? := by
  have hlength := h.length_take
  rw [← Array.getElem?_toList, h.toList_eq, List.append_assoc,
    List.getElem?_append_right (by omega), hlength, Nat.add_sub_cancel_left,
    List.getElem?_append_left hk]

/-- A test that the stretch fails holds of no token in it. -/
theorem has_chunk {test : Token → Bool} (htest : ∀ t ∈ w.chunk, test t = false) {k : Nat}
    (hk : k < w.chunk.length) : code'.has (w.place + k) test = false := by
  rw [Code.has, h.getElem?_chunk hk, List.getElem?_eq_getElem hk, Option.any_some]
  exact htest _ (List.getElem_mem hk)

/-- **A moved token is the token it was**, for every test. -/
theorem has_move (i : Nat) (test : Token → Bool) : code'.has (w.move i) test = code.has i test := by
  rw [Code.has, Code.has, h.getElem?_move]

/-- A moved mark is the mark it was. -/
theorem mark_move (i : Nat) (word : String) : code'.mark (w.move i) word = code.mark i word :=
  h.has_move i _

theorem nameAt_move (i : Nat) : code'.nameAt (w.move i) = code.nameAt i := h.has_move i _

theorem name_move (i : Nat) : code'.name (w.move i) = code.name i := by
  rw [Code.name, Code.name, h.getElem?_move]

/-- The last token of the stretch is a `;`. -/
theorem mark_last : code'.mark (w.place + w.chunk.length - 1) ";" = true := by
  have hpos := h.width_pos
  obtain ⟨t, ht, hmark⟩ := h.last
  rw [Code.mark, Code.has, Nat.add_sub_assoc hpos, h.getElem?_chunk (by omega),
    ← List.getLast?_eq_getElem?, ht, Option.any_some, hmark]

/-- The stretch ends with a `;`, so one stands right before its place. -/
theorem markBefore_place : code'.markBefore (w.move w.place) ";" = true := by
  have hwidth := h.width_pos
  rw [move_of_le (Nat.le_refl _)]
  exact Code.hasBefore_iff.mpr ⟨by omega, h.mark_last⟩

/-- Something stands before the stretch: the brace that it follows. -/
theorem place_pos : 0 < w.place := by
  rcases h.spot with hhead | ⟨hfoot, -⟩
  · exact (Code.hasBefore_iff.mp hhead).1
  · obtain ⟨j, -, hlt, -⟩ := Pairing.exists_opening h.paired .curly hfoot
    omega

theorem move_zero : w.move 0 = 0 := move_of_lt h.place_pos

theorem move_pos_iff : 0 < w.move i ↔ 0 < i := by
  have hiff := move_lt_iff (w := w) (i := 0) (j := i)
  rwa [h.move_zero] at hiff

/-- Unless a closing brace stands at its place, the stretch goes after an opening one. -/
theorem head_of_ne (hplace : code.mark w.place "\x7d" = false) :
    code.markBefore w.place "\x7b" = true := by
  rcases h.spot with hhead | ⟨hfoot, -⟩
  · exact hhead
  · exact absurd (hplace.symm.trans hfoot) Bool.false_ne_true

/-- **A test of the token before keeps its answer** if it accepts an opening brace and a `;`. -/
theorem hasBefore_move_of_true {test : Token → Bool}
    (htest : ∀ t : Token, t.isMarkIn [";", "\x7b"] = true → test t = true)
    (hk : code.mark k "\x7d" = false) :
    code'.hasBefore (w.move k) test = code.hasBefore k test := by
  have hpass : ∀ {code : Code} {k : Nat} {word : String}, word ∈ [";", "\x7b"] →
      code.markBefore k word = true → code.hasBefore k test = true := by
    intro code k word hword hbefore
    obtain ⟨hpos, hmark⟩ := Code.hasBefore_iff.mp hbefore
    obtain ⟨t, ht, hmark⟩ := (Option.any_eq_true _ _).mp hmark
    exact Code.hasBefore_iff.mpr ⟨hpos, (Option.any_eq_true _ _).mpr
      ⟨t, ht, htest t (Token.isMarkIn_iff.mpr ⟨word, hword, hmark⟩)⟩⟩
  by_cases hplace : k = w.place
  · rw [hplace, hpass (by decide) (h.head_of_ne (hplace ▸ hk)),
      hpass (by decide) h.markBefore_place]
  · cases k with
    | zero => rw [h.move_zero]; rfl
    | succ k =>
      rw [move_succ hplace]
      exact h.has_move k _

/-- **What stands before a token ends a statement still** if it did. -/
theorem hasBefore_endsStatement_move (hk : code.mark k "\x7d" = false) :
    code'.hasBefore (w.move k) endsStatement = code.hasBefore k endsStatement := by
  refine h.hasBefore_move_of_true (fun t ht => ?_) hk
  obtain ⟨word, hword, hmark⟩ := Token.isMarkIn_iff.mp ht
  exact Token.isMarkIn_iff.mpr ⟨word, by simp only [List.mem_cons] at hword ⊢; tauto, hmark⟩

/-- A statement ends before the stretch, unless a closing brace stands at its place. -/
theorem hasBefore_place (hplace : code.mark w.place "\x7d" = false) :
    code.hasBefore w.place endsStatement = true ∧
      code'.hasBefore (w.move w.place) endsStatement = true := by
  have hbefore : code.hasBefore w.place endsStatement = true := by
    obtain ⟨hpos, hmark⟩ := Code.hasBefore_iff.mp (h.head_of_ne hplace)
    exact Code.hasBefore_iff.mpr ⟨hpos, Code.has_endsStatement_of_mark hmark (by decide)⟩
  exact ⟨hbefore, (h.hasBefore_endsStatement_move hplace).trans hbefore⟩

/-- **A test of the token before keeps its answer** if it rejects an opening brace and a `;`. -/
theorem hasBefore_move_of {test : Token → Bool}
    (htest : ∀ t : Token, t.isMarkIn [";", "\x7b"] = true → test t = false)
    (hk : code.mark k "\x7d" = false) :
    code'.hasBefore (w.move k) test = code.hasBefore k test := by
  have hfail : ∀ {code : Code} {k : Nat} {word : String}, word ∈ [";", "\x7b"] →
      code.markBefore k word = true → code.hasBefore k test = false := by
    intro code k word hword hbefore
    obtain ⟨hpos, hmark⟩ := Code.hasBefore_iff.mp hbefore
    obtain ⟨t, ht, hmark⟩ := (Option.any_eq_true _ _).mp hmark
    rw [← Bool.not_eq_true]
    intro hpasses
    have hpasses := (Code.hasBefore_iff.mp hpasses).2
    rw [Code.has, ht, Option.any_some, htest t (Token.isMarkIn_iff.mpr ⟨word, hword, hmark⟩)]
      at hpasses
    exact Bool.false_ne_true hpasses
  by_cases hplace : k = w.place
  · rw [hplace, hfail (by decide) (h.head_of_ne (hplace ▸ hk)),
      hfail (by decide) (h.markBefore_place)]
  · cases k with
    | zero => rw [h.move_zero]; rfl
    | succ k =>
      rw [move_succ hplace]
      exact h.has_move k test

/-- **A test that stays in the statement keeps its answer.** -/
theorem hasBefore_move {test : Token → Bool} (htest : Inner test)
    (hk : code.mark k "\x7d" = false) :
    code'.hasBefore (w.move k) test = code.hasBefore k test := by
  refine h.hasBefore_move_of (fun t ht => htest t ?_) hk
  obtain ⟨word, hword, hmark⟩ := Token.isMarkIn_iff.mp ht
  exact Token.isMarkIn_iff.mpr ⟨word, by simp only [List.mem_cons] at hword ⊢; tauto, hmark⟩

theorem nameBefore_move (hk : code.mark k "\x7d" = false) :
    code'.nameBefore (w.move k) = code.nameBefore k := h.hasBefore_move inner_isName hk

theorem keywordBefore_move (word : String) (hk : code.mark k "\x7d" = false) :
    code'.keywordBefore (w.move k) word = code.keywordBefore k word :=
  h.hasBefore_move (inner_isKeyword word) hk

theorem markBefore_move (word : String)
    (hword : ∀ other ∈ [";", "\x7b", "\x7d"], utf8 word ≠ utf8 other)
    (hk : code.mark k "\x7d" = false) :
    code'.markBefore (w.move k) word = code.markBefore k word :=
  h.hasBefore_move (inner_isMark hword) hk

/-- What stands before a token stays there, if it is no brace. -/
theorem ne_place_of_hasBefore {test : Token → Bool}
    (htest : ∀ t : Token, t.isMark "\x7b" = true → test t = false)
    (hk : code.mark k "\x7d" = false) (hbefore : code.hasBefore k test = true) :
    k ≠ w.place := by
  rintro rfl
  obtain ⟨t, ht, hmark⟩ :=
    (Option.any_eq_true _ _).mp (Code.hasBefore_iff.mp (h.head_of_ne hk)).2
  have hpasses := (Code.hasBefore_iff.mp hbefore).2
  rw [Code.has, ht, Option.any_some, htest t hmark] at hpasses
  cases hpasses

/-- The token before moves along where the test holds of it, since no such test holds of the brace
before the stretch. -/
theorem move_pred_of_hasBefore {test : Token → Bool}
    (htest : ∀ t : Token, t.isMark "\x7b" = true → test t = false)
    (hk : code.mark k "\x7d" = false) (hbefore : code.hasBefore k test = true) :
    w.move (k - 1) = w.move k - 1 :=
  move_pred (Code.hasBefore_iff.mp hbefore).1 (h.ne_place_of_hasBefore htest hk hbefore)

/-- One step back over a token of the statement. -/
theorem back {test : Token → Bool} (htest : Inner test) (hk : code.mark k "\x7d" = false)
    (hbefore : code.hasBefore k test = true) :
    w.move (k - 1) = w.move k - 1 ∧ code.mark (k - 1) "\x7d" = false :=
  ⟨h.move_pred_of_hasBefore
      (fun t ht => htest t (Token.isMarkIn_iff.mpr ⟨_, by decide, ht⟩)) hk hbefore,
    Code.not_closer_of_has htest (Code.hasBefore_iff.mp hbefore).2⟩

/-- **A test of the token after keeps its answer**, if it rejects closing braces and keywords. -/
theorem has_succ_move {test : Token → Bool}
    (hclose : ∀ t : Token, t.isMark "\x7d" = true → test t = false)
    (hword : ∀ t : Token, t.kind = .keyword → test t = false) (hi : code.mark i "\x7b" = false) :
    code'.has (w.move i + 1) test = code.has (i + 1) test := by
  by_cases hplace : i + 1 = w.place
  · rcases h.spot with hhead | ⟨hfoot, first, hfirst, hkind⟩
    · rw [← hplace] at hhead
      exact absurd (hi.symm.trans hhead) Bool.false_ne_true
    · have hat := h.getElem?_chunk h.width_pos
      rw [Nat.add_zero, ← List.head?_eq_getElem?, hfirst] at hat
      obtain ⟨t, ht, hmark⟩ := (Option.any_eq_true _ _).mp hfoot
      rw [move_of_lt (by omega), hplace, Code.has, Code.has, hat, ht, Option.any_some,
        Option.any_some, hword first hkind, hclose t hmark]
  · rw [← move_succ hplace, h.has_move]

/-- The token after moves along, unless the stretch goes right before it. -/
theorem mark_succ_move (word : String) (hword : utf8 "\x7d" ≠ utf8 word)
    (hi : code.mark i "\x7b" = false) : code'.mark (w.move i + 1) word = code.mark (i + 1) word :=
  h.has_succ_move (fun _ ht => Token.isMark_eq_false ht hword)
    (fun t ht => by rw [Token.isMark, ht]; rfl) hi

/-! ## Runs -/

/-- **A run inside one statement is clear.** -/
theorem clear_of_unbroken (hrun : code.Unbroken a b)
    (hb : code.mark b "\x7d" = false) : w.Clear a b := by
  by_contra hclear
  rw [Clear, not_or, Nat.not_le, Nat.not_lt] at hclear
  have hbrace : ∀ i word, word ∈ [";", "\x7b", "\x7d"] → a ≤ i → i < b →
      code.mark i word = false := fun i word hword hai hib =>
    Code.mark_of_not_endsStatement (hrun i hai hib) hword
  have hplace : code.mark w.place "\x7d" = false := by
    rcases Nat.lt_or_ge w.place b with hlt | hge
    · exact hbrace _ _ (by decide) (by omega) hlt
    · rwa [Nat.le_antisymm hclear.2 hge]
  obtain ⟨hpos, hhead⟩ := Code.hasBefore_iff.mp (h.head_of_ne hplace)
  exact Bool.false_ne_true
    ((hbrace _ _ (by decide) (by omega) (by omega)).symm.trans hhead)

/-- **A clear run holds the same tokens.** -/
theorem slice_move (hclear : w.Clear a b) :
    code'.slice ⟨w.move a, w.move b⟩ = code.slice ⟨a, b⟩ := by
  have key : ∀ (code : Code) (a b k : Nat),
      (code.slice ⟨a, b⟩)[k]? = if k < b - a then code[a + k]? else none := by
    intro code a b k
    rw [Code.slice, Array.toList_extract, List.extract_eq_take_drop, List.getElem?_take,
      List.getElem?_drop, Array.getElem?_toList]
  rcases Nat.le_total a b with hle | hle
  · refine List.ext_getElem? fun k => ?_
    have hb := hclear.move_add hle (Nat.le_refl b)
    rw [key, key]
    refine ite_congr (by simp only [eq_iff_iff]; omega) (fun hk => ?_) fun _ => rfl
    have hak := hclear.move_add (Nat.le_add_right a k) (by omega)
    rw [← h.getElem?_move, show w.move (a + k) = w.move a + k by omega]
  · have := (move_le_iff (w := w)).mpr hle
    refine List.ext_getElem? fun k => ?_
    rw [key, key, if_neg (by omega), if_neg (by omega)]

/-- A run that the stretch does not go into reads the same, joined. -/
theorem joined_move (hclear : w.Clear a b) :
    code'.joined ⟨w.move a, w.move b⟩ = code.joined ⟨a, b⟩ := by
  rw [Code.joined, Code.joined, h.slice_move hclear]

end Cleaves

end Wedge

/-! ## Partners -/

/-- What stands between two places behind a front part. -/
theorem between_prepend (u tokens : List Token) (i j : Nat) :
    between (u ++ tokens) (u.length + i) (u.length + j) = between tokens i j := by
  rw [between, between, List.take_length_add_append, List.drop_length_add_append]

/-- Brackets match behind a front part exactly if they match without it. -/
theorem Matched.prepend_iff {u tokens : List Token} {i j : Nat} :
    Matched (u ++ tokens) (u.length + i) (u.length + j) ↔ Matched tokens i j := by
  have hget : ∀ k, (u ++ tokens)[u.length + k]? = tokens[k]? := fun k => by
    rw [List.getElem?_append_right (Nat.le_add_right _ _), Nat.add_sub_cancel_left]
  rw [Matched, Matched, hget, hget, show u.length + i + 1 = u.length + (i + 1) by omega,
    between_prepend, Nat.add_lt_add_iff_left]

namespace Wedge.Cleaves

variable {w : Wedge} {code code' : Code} {pairing pairing' : Pairing}
  (h : w.Cleaves code code' pairing pairing')

include h

/-- Matched brackets stay so: what comes between them is balanced. -/
theorem matched_move {i j : Nat} (hmatch : Matched code.toList i j) :
    Matched code'.toList (w.move i) (w.move j) := by
  have hsplit : code.toList.take w.place ++ code.toList.drop w.place = code.toList :=
    List.take_append_drop _ _
  have hlength := h.length_take
  rw [h.toList_eq]
  generalize code.toList.take w.place = front at hsplit hlength
  generalize code.toList.drop w.place = back at hsplit
  rw [← hsplit] at hmatch
  rcases Nat.lt_or_ge j w.place with hj | hj
  · have hij := hmatch.1
    rw [move_of_lt hj, move_of_lt (by omega), List.append_assoc]
    exact (hmatch.of_append (by omega)).append _
  rcases Nat.lt_or_ge i w.place with hi | hi
  · obtain ⟨hij, opener, closer, shape, hopener, hcloser, hopen, hclose, hinner⟩ := hmatch
    obtain ⟨k, rfl⟩ : ∃ k, j = front.length + k := ⟨j - w.place, by omega⟩
    rw [List.getElem?_append_left (by omega)] at hopener
    rw [List.getElem?_append_right (by omega), Nat.add_sub_cancel_left] at hcloser
    have hcut : ∀ u : List Token,
        between (front ++ u ++ back) (i + 1) ((front ++ u).length + k) =
          front.drop (i + 1) ++ u ++ back.take k := fun u => by
      rw [between, List.take_length_add_append, List.append_assoc,
        List.drop_append_of_le_length (by omega), ← List.append_assoc]
    have hbetween := hcut []
    rw [List.append_nil, List.append_nil] at hbetween
    rw [hbetween, Balanced, settle_append] at hinner
    refine ⟨move_lt_iff.mpr hij, opener, closer, shape, ?_, ?_, hopen, hclose, ?_⟩
    · rw [move_of_lt hi, List.append_assoc, List.getElem?_append_left (by omega), hopener]
    · rw [move_of_le hj, List.getElem?_append_right (by rw [List.length_append]; omega),
        List.length_append, ← hcloser]
      congr 1
      omega
    · rw [move_of_lt hi, move_of_le hj, show front.length + k + w.chunk.length =
        (front ++ w.chunk).length + k by rw [List.length_append]; omega, hcut, Balanced,
        settle_append, settle_append, ← hinner, Option.bind_assoc]
      simp only [h.balanced.settle_eq, Option.bind_some]
  · obtain ⟨a, rfl⟩ : ∃ a, i = front.length + a := ⟨i - w.place, by omega⟩
    obtain ⟨b, rfl⟩ : ∃ b, j = front.length + b := ⟨j - w.place, by omega⟩
    rw [Matched.prepend_iff] at hmatch
    rw [move_of_le hi, move_of_le hj,
      show front.length + a + w.chunk.length = (front ++ w.chunk).length + a by
        rw [List.length_append]; omega,
      show front.length + b + w.chunk.length = (front ++ w.chunk).length + b by
        rw [List.length_append]; omega]
    exact Matched.prepend_iff.mpr hmatch

/-- **A token keeps its partner.** -/
theorem partner_move (i : Nat) :
    pairing'.partner (w.move i) = (pairing.partner i).map w.move := by
  cases hpartner : pairing.partner i with
  | some j =>
    exact (Pairing.partner_eq_some_iff h.paired').mpr
      (((Pairing.partner_eq_some_iff h.paired).mp hpartner).imp h.matched_move h.matched_move)
  | none =>
    have hsome := (Pairing.partnered_of_ofCode h.paired).isSome_iff i
    have hsome' := (Pairing.partnered_of_ofCode h.paired').isSome_iff (w.move i)
    rw [Array.getElem?_toList] at hsome hsome'
    rw [h.getElem?_move, ← hsome, hpartner] at hsome'
    exact Option.not_isSome_iff_eq_none.mp fun hpartnered => by simpa using hsome'.mp hpartnered

end Wedge.Cleaves

end Quell
