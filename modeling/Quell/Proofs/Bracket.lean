import Mathlib.Tactic.Common
import Quell.Outline

/-!
# Proofs/Bracket — the pairing of brackets, seen from the bracket word

`settle` reads a run of tokens with a stack of open brackets, and a run is `Balanced` if it settles
to nothing.  Two brackets are `Matched` if they have one shape and what stands between them is
balanced.  The pass over the code succeeds exactly on the balanced files (`exists_ofCode_iff`), and
its table then holds the matched brackets and nothing else (`partner_eq_some_iff`).
-/

namespace Quell

/-! ## Marks -/

/-- A mark is a punctuation token with the bytes of the mark. -/
theorem Token.isMark_iff {t : Token} {word : String} :
    t.isMark word = true ↔ t.kind = .punctuation ∧ t.text = utf8 word := by
  simp [Token.isMark, Token.spells]

theorem Token.isMarkIn_iff {t : Token} {words : List String} :
    t.isMarkIn words = true ↔ ∃ word ∈ words, t.isMark word = true := by
  rw [isMarkIn, Bool.and_eq_true, List.any_eq_true]
  simp only [isMark, Bool.and_eq_true]
  constructor
  · rintro ⟨hkind, word, hword, hspells⟩
    exact ⟨word, hword, hkind, hspells⟩
  · rintro ⟨word, hword, hkind, hspells⟩
    exact ⟨hkind, word, hword, hspells⟩

/-- No token is two marks. -/
theorem Token.isMark_eq_false {t : Token} {word other : String} (h : t.isMark word = true)
    (hne : utf8 word ≠ utf8 other) : t.isMark other = false := by
  rw [← Bool.not_eq_true, isMark_iff]
  rintro ⟨-, htext⟩
  exact hne ((isMark_iff.mp h).2.symm.trans htext)

theorem Code.mark_eq_false {code : Code} {i : Nat} {word other : String}
    (h : code.mark i word = true) (hne : utf8 word ≠ utf8 other) : code.mark i other = false := by
  obtain ⟨t, ht, hmark⟩ := (Option.any_eq_true _ _).mp h
  rw [mark, has, ht, Option.any_some, Token.isMark_eq_false hmark hne]

/-- Different marks stand at different places. -/
theorem Code.ne_of_mark {code : Code} {i j : Nat} {word other : String}
    (h : code.mark i word = true) (hother : code.mark j other = true)
    (hne : utf8 word ≠ utf8 other) : i ≠ j := by
  rintro rfl
  exact Bool.false_ne_true ((mark_eq_false h hne).symm.trans hother)

/-- What is tested before an index stands at the index before it. -/
theorem Code.hasBefore_iff {code : Code} {i : Nat} {test : Token → Bool} :
    code.hasBefore i test = true ↔ 0 < i ∧ code.has (i - 1) test = true := by
  cases i with
  | zero => simp [hasBefore]
  | succ i => simp [hasBefore]

theorem Code.hasBefore_or_iff {code : Code} {i : Nat} {f g : Token → Bool} :
    code.hasBefore i (fun t => f t || g t) = true ↔
      code.hasBefore i f = true ∨ code.hasBefore i g = true := by
  cases i with
  | zero => simp [hasBefore]
  | succ i =>
    simp only [hasBefore, has]
    cases code[i]? <;> simp

theorem Code.has_isMarkIn_iff {code : Code} {i : Nat} {words : List String} :
    code.has i (·.isMarkIn words) = true ↔ ∃ word ∈ words, code.mark i word = true := by
  simp only [mark, has, Option.any_eq_true, Token.isMarkIn_iff]
  exact ⟨fun ⟨t, ht, word, hword, hmark⟩ => ⟨word, hword, t, ht, hmark⟩,
    fun ⟨word, hword, t, ht, hmark⟩ => ⟨t, ht, word, hword, hmark⟩⟩

theorem Code.nameAt_eq_false {code : Code} {i : Nat} {word : String}
    (h : code.mark i word = true) : code.nameAt i = false := by
  obtain ⟨t, ht, hmark⟩ := (Option.any_eq_true _ _).mp h
  rw [nameAt, has, ht, Option.any_some, Token.isName, (Token.isMark_iff.mp hmark).1]
  rfl

theorem Code.mark_of_nameAt {code : Code} {i : Nat} (h : code.nameAt i = true) (word : String) :
    code.mark i word = false := by
  rw [← Bool.not_eq_true]
  intro hmark
  exact Bool.false_ne_true ((nameAt_eq_false hmark).symm.trans h)

/-- A name is none of the marks. -/
theorem Code.has_isMarkIn_of_nameAt {code : Code} {i : Nat} (h : code.nameAt i = true)
    (words : List String) : code.has i (·.isMarkIn words) = false := by
  rw [← Bool.not_eq_true, has_isMarkIn_iff]
  rintro ⟨word, -, hmark⟩
  exact Bool.false_ne_true ((mark_of_nameAt h word).symm.trans hmark)

/-- The mark that opens a bracket. -/
def Bracket.opener : Bracket → String
  | round => "("
  | square => "["
  | curly => "\x7b"

/-- The mark that closes a bracket. -/
def Bracket.closer : Bracket → String
  | round => ")"
  | square => "]"
  | curly => "\x7d"

/-- An opening bracket is the opening mark of its shape. -/
theorem Token.opening?_eq_some_iff {t : Token} {shape : Bracket} :
    t.opening? = some shape ↔ t.isMark shape.opener = true := by
  constructor
  · intro h
    rw [opening?] at h
    split_ifs at h <;> cases h <;> assumption
  · intro h
    cases shape with
    | round =>
      rw [Bracket.opener] at h
      rw [opening?, if_pos h]
    | square =>
      rw [Bracket.opener] at h
      rw [opening?, isMark_eq_false h (by decide), if_neg Bool.false_ne_true, if_pos h]
    | curly =>
      rw [Bracket.opener] at h
      rw [opening?, isMark_eq_false h (by decide), isMark_eq_false h (by decide),
        if_neg Bool.false_ne_true, if_neg Bool.false_ne_true, if_pos h]

/-- A closing bracket is the closing mark of its shape. -/
theorem Token.closing?_eq_some_iff {t : Token} {shape : Bracket} :
    t.closing? = some shape ↔ t.isMark shape.closer = true := by
  constructor
  · intro h
    rw [closing?] at h
    split_ifs at h <;> cases h <;> assumption
  · intro h
    cases shape with
    | round =>
      rw [Bracket.closer] at h
      rw [closing?, if_pos h]
    | square =>
      rw [Bracket.closer] at h
      rw [closing?, isMark_eq_false h (by decide), if_neg Bool.false_ne_true, if_pos h]
    | curly =>
      rw [Bracket.closer] at h
      rw [closing?, isMark_eq_false h (by decide), isMark_eq_false h (by decide),
        if_neg Bool.false_ne_true, if_neg Bool.false_ne_true, if_pos h]

/-- No token opens one bracket and closes another. -/
theorem Token.opening?_eq_none {t : Token} {shape : Bracket} (h : t.closing? = some shape) :
    t.opening? = none := by
  rw [closing?_eq_some_iff] at h
  cases hopen : t.opening? with
  | none => rfl
  | some other =>
    rw [opening?_eq_some_iff] at hopen
    have hne : utf8 shape.closer ≠ utf8 other.opener := by
      cases shape <;> cases other <;> decide
    rw [isMark_eq_false h hne] at hopen
    cases hopen

theorem Token.closing?_eq_none {t : Token} {shape : Bracket} (h : t.opening? = some shape) :
    t.closing? = none := by
  by_contra hne
  obtain ⟨other, hother⟩ := Option.ne_none_iff_exists'.mp hne
  rw [opening?_eq_none hother] at h
  cases h

/-! ## Settling a run of brackets -/

/-- What a token does to the stack of open brackets, innermost first. -/
def Token.press (t : Token) (stack : List Bracket) : Option (List Bracket) :=
  match t.opening?, t.closing? with
  | some shape, _ => some (shape :: stack)
  | none, none => some stack
  | none, some shape => if stack.head? = some shape then some stack.tail else none

/-- An opening bracket is put on the stack. -/
theorem Token.press_opening {t : Token} {shape : Bracket} (h : t.opening? = some shape)
    (stack : List Bracket) : t.press stack = some (shape :: stack) := by
  rw [press, h]

/-- A closing bracket takes the innermost open one off the stack, if that is of its shape. -/
theorem Token.press_closing {t : Token} {shape : Bracket} (h : t.closing? = some shape)
    (stack : List Bracket) :
    t.press stack = if stack.head? = some shape then some stack.tail else none := by
  rw [press, opening?_eq_none h, h]

/-- A token that is no bracket leaves the stack as it is. -/
theorem Token.press_neutral {t : Token} (hopen : t.opening? = none) (hclose : t.closing? = none)
    (stack : List Bracket) : t.press stack = some stack := by
  rw [press, hopen, hclose]

/-- **The open brackets after a run of tokens**; nothing if one is closed that is not open. -/
def settle (stack : List Bracket) : List Token → Option (List Bracket)
  | [] => some stack
  | t :: rest => (t.press stack).bind fun next => settle next rest

theorem settle_append (stack : List Bracket) (u w : List Token) :
    settle stack (u ++ w) = (settle stack u).bind fun next => settle next w := by
  induction u generalizing stack with
  | nil => rfl
  | cons t u ih =>
    rw [List.cons_append, settle, settle]
    cases t.press stack with
    | none => rfl
    | some next => exact ih next

/-- Brackets that stay open all through a run do not matter to it. -/
theorem settle_frame {stack next : List Bracket} {u : List Token} (h : settle stack u = some next)
    (below : List Bracket) : settle (stack ++ below) u = some (next ++ below) := by
  induction u generalizing stack with
  | nil =>
    cases h
    rfl
  | cons t u ih =>
    rw [settle] at h ⊢
    obtain ⟨middle, hpress, hrest⟩ := Option.bind_eq_some_iff.mp h
    have hframe : t.press (stack ++ below) = some (middle ++ below) := by
      cases hopen : t.opening? with
      | some shape =>
        rw [Token.press_opening hopen] at hpress ⊢
        cases hpress
        rfl
      | none =>
        cases hclose : t.closing? with
        | none =>
          rw [Token.press_neutral hopen hclose] at hpress ⊢
          cases hpress
          rfl
        | some shape =>
          rw [Token.press_closing hclose] at hpress ⊢
          split_ifs at hpress with hhead
          cases hpress
          obtain ⟨rest, rfl⟩ := List.head?_eq_some_iff.mp hhead
          rw [if_pos (by rfl)]
          rfl
    rw [hframe]
    exact ih hrest

/-- **Every bracket in the run is closed in it**, in the right order. -/
def Balanced (tokens : List Token) : Prop := settle [] tokens = some []

instance (tokens : List Token) : Decidable (Balanced tokens) :=
  inferInstanceAs (Decidable (settle [] tokens = some []))

namespace Balanced

theorem nil : Balanced [] := rfl

theorem settle_eq {tokens : List Token} (h : Balanced tokens) (stack : List Bracket) :
    settle stack tokens = some stack := settle_frame h stack

/-- Balanced stretches one after the other are balanced. -/
theorem append {u w : List Token} (hu : Balanced u) (hw : Balanced w) : Balanced (u ++ w) := by
  rw [Balanced, settle_append, hu]
  exact hw

theorem neutral {t : Token} (hopen : t.opening? = none) (hclose : t.closing? = none) :
    Balanced [t] := by
  rw [Balanced, settle, Token.press_neutral hopen hclose]
  rfl

/-- Brackets of one shape around a balanced run. -/
theorem wrap {opener closer : Token} {inner : List Token} {shape : Bracket}
    (hopen : opener.opening? = some shape) (hclose : closer.closing? = some shape)
    (hinner : Balanced inner) : Balanced (opener :: (inner ++ [closer])) := by
  rw [Balanced, settle, Token.press_opening hopen, Option.bind_some, settle_append,
    hinner.settle_eq, Option.bind_some, settle, Token.press_closing hclose, if_pos (by rfl)]
  rfl

/-- A balanced run is left by its balanced front part only through tokens that keep it balanced. -/
theorem of_append {u w : List Token} (h : Balanced (u ++ w)) (hu : Balanced u) : Balanced w := by
  rwa [Balanced, settle_append, hu] at h

end Balanced

/-! ## Matched brackets -/

/-- The tokens from index `i` up to index `j`. -/
def between (tokens : List Token) (i j : Nat) : List Token := (tokens.take j).drop i

/-- A token between two others cuts what stands between them. -/
theorem between_split {tokens : List Token} {i k j : Nat} {t : Token} (hi : i ≤ k) (hj : k < j)
    (ht : tokens[k]? = some t) :
    between tokens i j = between tokens i k ++ t :: between tokens (k + 1) j := by
  obtain ⟨hk, rfl⟩ := List.getElem?_eq_some_iff.mp ht
  have htake : tokens.take j = tokens.take k ++ tokens[k] :: (tokens.take j).drop (k + 1) := by
    have hlen : k < (tokens.take j).length := by rw [List.length_take]; omega
    conv_lhs => rw [← List.take_append_drop k (tokens.take j), List.take_take,
      Nat.min_eq_left (by omega), List.drop_eq_getElem_cons hlen, List.getElem_take]
  rw [between, htake, List.drop_append_of_le_length (by rw [List.length_take]; omega)]
  rfl

theorem between_append {tokens : List Token} {j : Nat} (hj : j ≤ tokens.length) (i : Nat)
    (u : List Token) : between (tokens ++ u) i j = between tokens i j := by
  rw [between, List.take_append_of_le_length hj, between]

/-- **Two brackets of one shape with a balanced run between them.** -/
def Matched (tokens : List Token) (i j : Nat) : Prop :=
  i < j ∧ ∃ opener closer shape, tokens[i]? = some opener ∧ tokens[j]? = some closer ∧
    opener.opening? = some shape ∧ closer.closing? = some shape ∧
    Balanced (between tokens (i + 1) j)

namespace Matched

theorem lt_length {tokens : List Token} {i j : Nat} (h : Matched tokens i j) :
    j < tokens.length := by
  obtain ⟨-, opener, closer, shape, -, hcloser, -, -, -⟩ := h
  exact (List.getElem?_eq_some_iff.mp hcloser).1

/-- A matched bracket closes at one place only. -/
theorem right_unique {tokens : List Token} {i j k : Nat} (hj : Matched tokens i j)
    (hk : Matched tokens i k) : j = k := by
  -- Up to the nearer closing bracket the run is balanced, so the bracket itself closes nothing.
  have key : ∀ {a b : Nat}, Matched tokens i a → Matched tokens i b → ¬a < b := by
    rintro a b ⟨hia, _, closer, shape, -, hcloser, -, hclose, ha⟩ ⟨-, _, _, _, -, -, -, -, hb⟩ hab
    rw [between_split (by omega) hab hcloser] at hb
    have hrest := hb.of_append ha
    rw [Balanced, settle, Token.press_closing hclose] at hrest
    cases hrest
  have := key hj hk
  have := key hk hj
  omega

/-- A matched bracket opens at one place only. -/
theorem left_unique {tokens : List Token} {i j k : Nat} (hi : Matched tokens i k)
    (hj : Matched tokens j k) : i = j := by
  -- From the nearer opening bracket on the run is balanced, so the bracket itself stays open.
  have key : ∀ {a b : Nat}, Matched tokens a k → Matched tokens b k → ¬a < b := by
    rintro a b ⟨-, _, _, _, -, -, -, -, ha⟩ ⟨hbk, opener, _, shape, hopener, -, hopen, -, hb⟩ hab
    rw [between_split (by omega) hbk hopener, Balanced, settle_append] at ha
    obtain ⟨stack, -, hrest⟩ := Option.bind_eq_some_iff.mp ha
    rw [settle, Token.press_opening hopen, Option.bind_some, hb.settle_eq] at hrest
    cases hrest
  have := key hi hj
  have := key hj hi
  omega

/-- No bracket opens one pair and closes another. -/
theorem not_chain {tokens : List Token} {i j k : Nat} (hi : Matched tokens i j) :
    ¬Matched tokens j k := by
  rintro ⟨-, opener, _, _, hopener, -, hopen, -, -⟩
  obtain ⟨-, _, closer, _, -, hcloser, -, hclose, -⟩ := hi
  rw [hcloser] at hopener
  cases hopener
  rw [Token.opening?_eq_none hclose] at hopen
  cases hopen

/-- Brackets that match stay so when tokens follow. -/
theorem append {tokens : List Token} {i j : Nat} (h : Matched tokens i j) (u : List Token) :
    Matched (tokens ++ u) i j := by
  have hj := h.lt_length
  obtain ⟨hij, opener, closer, shape, hopener, hcloser, hopen, hclose, hinner⟩ := h
  refine ⟨hij, opener, closer, shape, ?_, ?_, hopen, hclose, ?_⟩
  · rw [List.getElem?_append_left (by omega), hopener]
  · rw [List.getElem?_append_left hj, hcloser]
  · rwa [between_append (by omega)]

theorem of_append {tokens u : List Token} {i j : Nat} (h : Matched (tokens ++ u) i j)
    (hj : j < tokens.length) : Matched tokens i j := by
  obtain ⟨hij, opener, closer, shape, hopener, hcloser, hopen, hclose, hinner⟩ := h
  rw [List.getElem?_append_left (by omega)] at hopener hcloser
  rw [between_append (by omega)] at hinner
  exact ⟨hij, opener, closer, shape, hopener, hcloser, hopen, hclose, hinner⟩

end Matched

/-- An open bracket below a settled stack is closed somewhere in the run. -/
theorem exists_closer {shape : Bracket} {below stack : List Bracket} {tokens : List Token}
    (h : settle (stack ++ shape :: below) tokens = some []) :
    ∃ inner closer after, tokens = inner ++ closer :: after ∧ settle stack inner = some [] ∧
      closer.closing? = some shape := by
  induction tokens generalizing stack with
  | nil => cases stack <;> cases h
  | cons t rest ih =>
    rw [settle] at h
    obtain ⟨next, hpress, hrest⟩ := Option.bind_eq_some_iff.mp h
    -- Either the token leaves the bracket open, or it closes it.
    have hstep : ∀ stack', t.press stack = some stack' → next = stack' ++ shape :: below →
        ∃ inner closer after, t :: rest = inner ++ closer :: after ∧
          settle stack inner = some [] ∧ closer.closing? = some shape := by
      rintro stack' hstack rfl
      obtain ⟨inner, closer, after, rfl, hinner, hclose⟩ := ih hrest
      exact ⟨t :: inner, closer, after, rfl, by rw [settle, hstack]; exact hinner, hclose⟩
    cases hopen : t.opening? with
    | some other =>
      rw [Token.press_opening hopen] at hpress
      exact hstep _ (Token.press_opening hopen stack) (Option.some.inj hpress).symm
    | none =>
      cases hclose : t.closing? with
      | none =>
        rw [Token.press_neutral hopen hclose] at hpress
        exact hstep _ (Token.press_neutral hopen hclose stack) (Option.some.inj hpress).symm
      | some other =>
        rw [Token.press_closing hclose] at hpress
        split_ifs at hpress with hhead
        cases stack with
        | nil =>
          rw [List.nil_append, List.head?_cons, Option.some.injEq] at hhead
          exact ⟨[], t, rest, rfl, rfl, by rw [hclose, hhead]⟩
        | cons top stack =>
          refine hstep stack ?_ (Option.some.inj hpress).symm
          rw [Token.press_closing hclose, if_pos (by simpa using hhead)]
          rfl

/-- Every bracket that a balanced run opens is matched. -/
theorem Balanced.exists_matched {tokens : List Token} (h : Balanced tokens) {i : Nat}
    {opener : Token} {shape : Bracket} (hi : tokens[i]? = some opener)
    (hopen : opener.opening? = some shape) : ∃ j, Matched tokens i j := by
  obtain ⟨before, after, rfl, rfl⟩ : ∃ before after, tokens = before ++ opener :: after ∧
      before.length = i := by
    obtain ⟨hlt, rfl⟩ := List.getElem?_eq_some_iff.mp hi
    exact ⟨tokens.take i, tokens.drop (i + 1), by simp, by simp; omega⟩
  rw [Balanced, settle_append] at h
  obtain ⟨stack, -, hrest⟩ := Option.bind_eq_some_iff.mp h
  rw [settle, Token.press_opening hopen, Option.bind_some] at hrest
  obtain ⟨inner, closer, tail, rfl, hinner, hclose⟩ := @exists_closer shape stack [] after hrest
  refine ⟨before.length + 1 + inner.length, by omega, opener, closer, shape, hi, ?_, hopen, hclose,
    ?_⟩
  · rw [List.getElem?_append_right (by omega)]
    have : before.length + 1 + inner.length - before.length = inner.length + 1 := by omega
    rw [this, List.getElem?_cons_succ, List.getElem?_append_right (by omega), Nat.sub_self]
    rfl
  · have hlist : before ++ opener :: (inner ++ closer :: tail)
        = (before ++ [opener]) ++ (inner ++ closer :: tail) := by simp
    have hlen : before.length + 1 = (before ++ [opener]).length := by simp
    rw [between, hlist, hlen, List.take_length_add_append, List.drop_left, List.take_left]
    exact hinner

/-- One of two brackets is the partner of the other. -/
def Partners (tokens : List Token) (i j : Nat) : Prop := Matched tokens i j ∨ Matched tokens j i

/-- **A bracket has one partner.** -/
theorem Partners.unique {tokens : List Token} {i j k : Nat} (hj : Partners tokens i j)
    (hk : Partners tokens i k) : j = k := by
  rcases hj with hj | hj <;> rcases hk with hk | hk
  · exact hj.right_unique hk
  · exact absurd hj hk.not_chain
  · exact absurd hk hj.not_chain
  · exact hj.left_unique hk

/-! ## The pass -/

namespace Pairing

/-- A pair entered in the table makes each of its ends the partner of the other, and nothing
else. -/
theorem partner_pair {table : Pairing} {i j : Nat} (hi : i < table.size) (hj : j < table.size)
    (k : Nat) : (table.pair i j).partner k =
      if k = j then some i else if k = i then some j else table.partner k := by
  rw [partner, pair, Array.getElem?_setIfInBounds, Array.getElem?_setIfInBounds,
    Array.size_setIfInBounds, partner]
  by_cases hkj : k = j
  · subst hkj
    simp [hj]
  · by_cases hki : k = i
    · subst hki
      simp [hi, hkj, Ne.symm hkj]
    · simp [hkj, hki, Ne.symm hkj, Ne.symm hki]

theorem partner_unpaired (size k : Nat) : (unpaired size).partner k = none := by
  rw [partner, unpaired, Array.getElem?_replicate]
  split_ifs <;> rfl

/-- **The brackets still open after the tokens seen**, innermost first, with balanced runs between
them. -/
inductive Open : (seen : List Token) → (pending : List (Nat × Token)) → Prop
  | nil {seen : List Token} : Balanced seen → Open seen []
  | cons {before inner : List Token} {opener : Token} {pending : List (Nat × Token)} :
      Open before pending → opener.opening?.isSome → Balanced inner →
      Open (before ++ opener :: inner) ((before.length, opener) :: pending)

/-- Balanced tokens leave the open brackets open. -/
theorem Open.append {seen u : List Token} {pending : List (Nat × Token)} (h : Open seen pending)
    (hu : Balanced u) : Open (seen ++ u) pending := by
  cases h with
  | nil h => exact .nil (h.append hu)
  | cons hbefore hopen hinner =>
    rw [List.append_assoc, List.cons_append]
    exact .cons hbefore hopen (hinner.append hu)

/-- **A closing bracket of the right shape matches the innermost open one**, and the others stay
open. -/
theorem Open.close {seen : List Token} {pending : List (Nat × Token)} {j : Nat}
    {opener closer : Token} {shape : Bracket} (h : Open seen ((j, opener) :: pending))
    (hopen : opener.opening? = some shape) (hclose : closer.closing? = some shape) :
    Open (seen ++ [closer]) pending ∧ Matched (seen ++ [closer]) j seen.length := by
  cases h with
  | @cons before inner _ _ hbefore _ hinner =>
    rw [List.append_assoc, List.cons_append]
    refine ⟨hbefore.append (.wrap hopen hclose hinner), ?_, opener, closer, shape, ?_, ?_, hopen,
      hclose, ?_⟩
    · simp
    · simp
    · simp
    · have : between (before ++ opener :: (inner ++ [closer])) (before.length + 1)
          (before ++ opener :: inner).length = inner := by
        have hlist : before ++ opener :: (inner ++ [closer])
            = (before ++ opener :: inner) ++ [closer] := by simp
        rw [between, hlist, List.take_left,
          show before ++ opener :: inner = (before ++ [opener]) ++ inner by simp]
        have : before.length + 1 = (before ++ [opener]).length := by simp
        rw [this, List.drop_left]
      rwa [this]

/-- The stack holds the shapes of the open brackets. -/
theorem Open.settle_eq {seen : List Token} {pending : List (Nat × Token)}
    (h : Open seen pending) :
    ∃ stack, settle [] seen = some stack ∧ stack.map some = pending.map (·.2.opening?) := by
  induction h with
  | nil h => exact ⟨[], h, rfl⟩
  | @cons before inner opener pending _ hopen hinner ih =>
    obtain ⟨stack, hstack, hshapes⟩ := ih
    obtain ⟨shape, hshape⟩ := Option.isSome_iff_exists.mp hopen
    refine ⟨shape :: stack, ?_, by simp [hshape, hshapes]⟩
    rw [settle_append, hstack, Option.bind_some, settle, Token.press_opening hshape,
      Option.bind_some, hinner.settle_eq]

/-- The partners so far, after a token that closes nothing. -/
theorem partners_append_iff {seen : List Token} {t : Token} (hclose : t.closing? = none)
    {i j : Nat} : Partners (seen ++ [t]) i j ↔ Partners seen i j := by
  have key : ∀ {a b : Nat}, Matched (seen ++ [t]) a b ↔ Matched seen a b := by
    refine fun {a b} => ⟨fun h => h.of_append ?_, fun h => h.append [t]⟩
    have hlt := h.lt_length
    rw [List.length_append, List.length_singleton] at hlt
    obtain ⟨-, _, closer, shape, -, hcloser, -, hshape, -⟩ := h
    by_contra hb
    obtain rfl : b = seen.length := by omega
    rw [List.getElem?_concat_length] at hcloser
    cases hcloser
    rw [hclose] at hshape
    cases hshape
  rw [Partners, Partners, key, key]

/-- The table holds the partners among the tokens seen. -/
def Tabled (table : Pairing) (seen : List Token) : Prop :=
  ∀ i j, table.partner i = some j ↔ Partners seen i j

/-- A closing bracket enters the table with its partner. -/
theorem Tabled.pair {table : Pairing} {seen : List Token} {t : Token} {j : Nat}
    (h : Tabled table seen) (hsize : seen.length < table.size)
    (hmatch : Matched (seen ++ [t]) j seen.length) :
    Tabled (table.pair j seen.length) (seen ++ [t]) := by
  intro a b
  have hj : j < seen.length := hmatch.1
  have hold : ∀ {c d : Nat}, Matched (seen ++ [t]) c d → d ≠ seen.length → Matched seen c d := by
    intro c d hcd hd
    have hlt := hcd.lt_length
    rw [List.length_append, List.length_singleton] at hlt
    exact hcd.of_append (by omega)
  rw [partner_pair (by omega) hsize]
  split_ifs with hlast hfirst
  · subst hlast
    constructor
    · rintro ⟨⟩
      exact .inr hmatch
    · intro hab
      rw [Partners.unique (.inr hmatch) hab]
  · subst hfirst
    constructor
    · rintro ⟨⟩
      exact .inl hmatch
    · intro hab
      rw [Partners.unique (.inl hmatch) hab]
  · rw [h a b]
    constructor
    · exact Or.imp (·.append [t]) (·.append [t])
    · rintro (hab | hba)
      · refine .inl (hold hab ?_)
        rintro rfl
        exact hfirst (hab.left_unique hmatch)
      · exact .inr (hold hba hlast)

/-- **What the pass finds**, from any point on: it succeeds if the whole is balanced, and the table
then holds the partners of the whole. -/
theorem pairFrom_spec {seen rest : List Token} {pending : List (Nat × Token)} {table : Pairing}
    (hopen : Open seen pending) (htable : Tabled table seen)
    (hsize : table.size = seen.length + rest.length) :
    (Balanced (seen ++ rest) → ∃ p, pairFrom seen.length pending table rest = .ok p) ∧
      ∀ p, pairFrom seen.length pending table rest = .ok p →
        Balanced (seen ++ rest) ∧ Tabled p (seen ++ rest) := by
  induction rest generalizing seen pending table with
  | nil =>
    rw [List.append_nil]
    cases hopen with
    | nil hbalanced => exact ⟨fun _ => ⟨table, rfl⟩, by rintro p ⟨⟩; exact ⟨hbalanced, htable⟩⟩
    | cons hbefore hopener hinner =>
      refine ⟨fun hbalanced => ?_, by rintro p ⟨⟩⟩
      obtain ⟨stack, hstack, hshapes⟩ := (Open.cons hbefore hopener hinner).settle_eq
      rw [hbalanced] at hstack
      cases hstack
      cases hshapes
  | cons t rest ih =>
    have hlen : (seen ++ [t]).length = seen.length + 1 := by simp
    have happend : seen ++ t :: rest = (seen ++ [t]) ++ rest := by simp
    rw [List.length_cons] at hsize
    rw [happend]
    cases hopening : t.opening? with
    | some shape =>
      -- An opening bracket joins the pending ones.
      have hclosing := Token.closing?_eq_none hopening
      rw [pairFrom, hopening, if_pos (by rfl), ← hlen]
      exact ih (.cons hopen (by rw [hopening]; rfl) .nil)
        (fun a b => (htable a b).trans (partners_append_iff hclosing).symm) (by omega)
    | none =>
      cases hclosing : t.closing? with
      | none =>
        rw [pairFrom, hopening, hclosing, ← hlen]
        exact ih (hopen.append (.neutral hopening hclosing))
          (fun a b => (htable a b).trans (partners_append_iff hclosing).symm) (by omega)
      | some shape =>
        -- A closing bracket takes the innermost pending one along, if the shapes agree.
        obtain ⟨stack, hstack, hshapes⟩ := hopen.settle_eq
        have hnext : settle [] (seen ++ [t] ++ rest) =
            (if stack.head? = some shape then some stack.tail else none).bind
              fun next => settle next rest := by
          rw [← happend, settle_append, hstack, Option.bind_some, settle,
            Token.press_closing hclosing]
        cases pending with
        | nil =>
          obtain rfl : stack = [] := by simpa using hshapes
          rw [pairFrom, hopening, hclosing]
          refine ⟨fun hbalanced => ?_, by rintro p ⟨⟩⟩
          rw [Balanced, hnext] at hbalanced
          cases hbalanced
        | cons head pending =>
          obtain ⟨j, opener⟩ := head
          rw [pairFrom, hopening, hclosing]
          dsimp only
          rw [if_neg (by decide)]
          by_cases hshape : opener.opening? = some shape
          · rw [if_pos (by simpa using hshape), ← hlen]
            obtain ⟨hopen', hmatch⟩ := hopen.close hshape hclosing
            exact ih hopen' (htable.pair (by omega) hmatch)
              (by rw [Pairing.pair, Array.size_setIfInBounds, Array.size_setIfInBounds]; omega)
          · rw [if_neg (by simpa using hshape)]
            refine ⟨fun hbalanced => ?_, by rintro p ⟨⟩⟩
            rw [Balanced, hnext] at hbalanced
            cases stack with
            | nil => cases hshapes
            | cons top stack =>
              simp only [List.map_cons, List.cons.injEq] at hshapes
              rw [List.head?_cons, hshapes.1, if_neg hshape] at hbalanced
              cases hbalanced

/-- Where no token was seen, none has a partner. -/
theorem tabled_unpaired (size : Nat) : Tabled (unpaired size) [] := by
  intro i j
  rw [partner_unpaired]
  refine ⟨by rintro ⟨⟩, ?_⟩
  rintro (h | h) <;> exact absurd h.lt_length (by simp)

/-- What the pass finds in a file. -/
theorem ofCode_spec (code : Code) :
    (Balanced code.toList → ∃ p, ofCode code = .ok p) ∧
      ∀ p, ofCode code = .ok p → Balanced code.toList ∧ Tabled p code.toList :=
  pairFrom_spec (.nil .nil) (tabled_unpaired code.size) (by simp [unpaired])

/-- **The brackets can be paired exactly in the balanced files.** -/
theorem exists_ofCode_iff {code : Code} : (∃ p, ofCode code = .ok p) ↔ Balanced code.toList :=
  ⟨fun ⟨p, hp⟩ => ((ofCode_spec code).2 p hp).1, (ofCode_spec code).1⟩

/-- **The table holds the matched brackets**, each with its partner, and nothing else. -/
theorem partner_eq_some_iff {code : Code} {p : Pairing} (h : ofCode code = .ok p) {i j : Nat} :
    p.partner i = some j ↔ Partners code.toList i j := ((ofCode_spec code).2 p h).2 i j

end Pairing

end Quell
