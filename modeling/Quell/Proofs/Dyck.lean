import Mathlib.Data.List.Induction
import Mathlib.Tactic.Common
import Quell.Proofs.Bracket

/-!
# Proofs/Dyck — the outline accepts exactly the Dyck words over three shapes

The brackets among the code tokens form a word.  `Dyck` generates the well-bracketed words by a
grammar, without a stack; `Viable` words are those that can still become one.  Pairing succeeds
exactly on the Dyck words, its table is then an involution without crossings (`Partnered`), and
where it fails the fault points at the first bracket that no continuation can repair, or else at the
last one left open (`Blamed`).
-/

namespace Quell

/-! ## Bracket words -/

/-- One half of a pair of brackets. -/
inductive Half where
  | opening (shape : Bracket)
  | closing (shape : Bracket)
  deriving DecidableEq

/-- The half that a token is, if it is a bracket. -/
def Token.half? (t : Token) : Option Half :=
  match t.opening? with
  | some shape => some (.opening shape)
  | none => t.closing?.map .closing

/-- **The bracket word of a run of tokens.** -/
def brackets (tokens : List Token) : List Half := tokens.filterMap Token.half?

/-- **Well-bracketed words** over the three shapes. -/
inductive Dyck : List Half → Prop
  | nil : Dyck []
  | wrap (shape : Bracket) {inner rest : List Half} : Dyck inner → Dyck rest →
      Dyck (.opening shape :: (inner ++ .closing shape :: rest))

/-- A word that some continuation makes well-bracketed. -/
def Viable (word : List Half) : Prop := ∃ rest, Dyck (word ++ rest)

/-- The half of an opening bracket is the one that opens its shape. -/
theorem Token.half?_eq_opening_iff {t : Token} {shape : Bracket} :
    t.half? = some (.opening shape) ↔ t.opening? = some shape := by
  rw [half?]
  cases t.opening? <;> simp

theorem Token.half?_eq_closing_iff {t : Token} {shape : Bracket} :
    t.half? = some (.closing shape) ↔ t.closing? = some shape := by
  constructor
  · intro h
    rw [half?] at h
    cases hopen : t.opening? <;> simp_all
  · intro h
    rw [half?, opening?_eq_none h, h]
    rfl

/-- A token that is no half of a bracket neither opens nor closes. -/
theorem Token.half?_eq_none_iff {t : Token} :
    t.half? = none ↔ t.opening? = none ∧ t.closing? = none := by
  rw [half?]
  cases t.opening? <;> simp

theorem brackets_append (u w : List Token) : brackets (u ++ w) = brackets u ++ brackets w :=
  List.filterMap_append

/-- A token that is a given half. -/
def Half.token : Half → Token
  | opening shape => ⟨.punctuation, utf8 shape.opener, 0⟩
  | closing shape => ⟨.punctuation, utf8 shape.closer, 0⟩

theorem Half.half?_token (h : Half) : h.token.half? = some h := by
  rcases h with shape | shape <;> cases shape <;> decide

theorem brackets_map_token (word : List Half) : brackets (word.map Half.token) = word := by
  induction word with
  | nil => rfl
  | cons h word ih =>
    rw [List.map_cons, brackets, List.filterMap_cons_some h.half?_token]
    exact congrArg (h :: ·) ih

/-! ## Balanced runs are the Dyck words -/

/-- **The brackets of balanced tokens are a Dyck word.** -/
theorem Balanced.dyck {tokens : List Token} (h : Balanced tokens) : Dyck (brackets tokens) := by
  induction hn : tokens.length using Nat.strongRecOn generalizing tokens with
  | _ n ih =>
    subst hn
    rcases tokens with _ | ⟨t, rest⟩
    · exact .nil
    · cases hhalf : t.half? with
      | none =>
        obtain ⟨hopen, hclose⟩ := Token.half?_eq_none_iff.mp hhalf
        rw [brackets, List.filterMap_cons_none hhalf]
        rw [Balanced, settle, Token.press_neutral hopen hclose] at h
        exact ih rest.length (by simp) h rfl
      | some half =>
        rcases half with shape | shape
        · -- The bracket is closed further on, around a balanced run and before another one.
          rw [Token.half?_eq_opening_iff] at hhalf
          rw [Balanced, settle, Token.press_opening hhalf, Option.bind_some] at h
          obtain ⟨inner, closer, after, rfl, hinner, hclose⟩ :=
            @exists_closer shape [] [] rest h
          have hafter : Balanced after := by
            rw [settle_append, Balanced.settle_eq hinner, Option.bind_some, settle,
              Token.press_closing hclose, if_pos (by rfl)] at h
            exact h
          have hword : brackets (t :: (inner ++ closer :: after)) =
              .opening shape :: (brackets inner ++ .closing shape :: brackets after) := by
            rw [brackets, List.filterMap_cons_some (Token.half?_eq_opening_iff.mpr hhalf),
              List.filterMap_append,
              List.filterMap_cons_some (Token.half?_eq_closing_iff.mpr hclose)]
            rfl
          rw [hword]
          exact .wrap shape
            (ih inner.length (by simp only [List.length_cons, List.length_append]; omega) hinner
              rfl)
            (ih after.length (by simp only [List.length_cons, List.length_append]; omega) hafter
              rfl)
        · rw [Token.half?_eq_closing_iff] at hhalf
          rw [Balanced, settle, Token.press_closing hhalf] at h
          cases h

/-- Only the brackets of a run matter to what it leaves open. -/
theorem settle_brackets (stack : List Bracket) (tokens : List Token) :
    settle stack ((brackets tokens).map Half.token) = settle stack tokens := by
  induction tokens generalizing stack with
  | nil => rfl
  | cons t rest ih =>
    cases hhalf : t.half? with
    | none =>
      obtain ⟨hopen, hclose⟩ := Token.half?_eq_none_iff.mp hhalf
      rw [brackets, List.filterMap_cons_none hhalf, settle, Token.press_neutral hopen hclose]
      exact ih stack
    | some half =>
      have hpress : half.token.press stack = t.press stack := by
        have htoken := half.half?_token
        rcases half with shape | shape
        · rw [Token.press_opening (Token.half?_eq_opening_iff.mp hhalf),
            Token.press_opening (Token.half?_eq_opening_iff.mp htoken)]
        · rw [Token.press_closing (Token.half?_eq_closing_iff.mp hhalf),
            Token.press_closing (Token.half?_eq_closing_iff.mp htoken)]
      rw [brackets, List.filterMap_cons_some hhalf, List.map_cons, settle, settle, hpress]
      congr 1
      funext next
      exact ih next

/-- **A Dyck word is balanced.** -/
theorem Dyck.balanced {word : List Half} (h : Dyck word) : Balanced (word.map Half.token) := by
  induction h with
  | nil => exact .nil
  | wrap shape _ _ hinner hrest =>
    have := (Balanced.wrap (Token.half?_eq_opening_iff.mp (Half.half?_token (.opening shape)))
      (Token.half?_eq_closing_iff.mp (Half.half?_token (.closing shape))) hinner).append hrest
    simpa using this

/-- **A run is balanced exactly if its bracket word is a Dyck word.** -/
theorem balanced_iff_dyck {tokens : List Token} : Balanced tokens ↔ Dyck (brackets tokens) := by
  refine ⟨Balanced.dyck, fun h => ?_⟩
  have := h.balanced
  rwa [Balanced, settle_brackets] at this

/-- Closing what is open, innermost first, settles a run. -/
theorem settle_closings (stack : List Bracket) :
    settle stack (stack.map fun shape => (Half.closing shape).token) = some [] := by
  induction stack with
  | nil => rfl
  | cons shape stack ih =>
    rw [List.map_cons, settle,
      Token.press_closing (Token.half?_eq_closing_iff.mp (Half.half?_token (.closing shape))),
      if_pos (by rfl)]
    exact ih

/-- **A run can still be completed exactly if none of its brackets closes what is not open.** -/
theorem viable_iff {tokens : List Token} :
    Viable (brackets tokens) ↔ ∃ stack, settle [] tokens = some stack := by
  constructor
  · rintro ⟨rest, h⟩
    rw [← brackets_map_token rest, ← brackets_append, ← balanced_iff_dyck, Balanced,
      settle_append] at h
    obtain ⟨stack, hstack, -⟩ := Option.bind_eq_some_iff.mp h
    exact ⟨stack, hstack⟩
  · rintro ⟨stack, hstack⟩
    refine ⟨stack.map .closing, ?_⟩
    rw [← brackets_map_token (stack.map .closing), ← brackets_append, ← balanced_iff_dyck,
      Balanced, settle_append, hstack, Option.bind_some, List.map_map]
    exact settle_closings stack

theorem Viable.of_append {u w : List Half} (h : Viable (u ++ w)) : Viable u := by
  obtain ⟨rest, hrest⟩ := h
  exact ⟨w ++ rest, by rwa [← List.append_assoc]⟩

/-! ## Matched brackets nest -/

/-- What stands between two places is read off there. -/
theorem getElem?_between {tokens : List Token} {a b k : Nat} {t : Token}
    (h : (between tokens a b)[k]? = some t) : tokens[a + k]? = some t ∧ a + k < b := by
  rw [between, List.getElem?_drop, List.getElem?_take] at h
  split_ifs at h with hlt
  exact ⟨h, hlt⟩

theorem between_between {tokens : List Token} {a b p q : Nat} (hq : a + q ≤ b) :
    between (between tokens a b) p q = between tokens (a + p) (a + q) := by
  rw [between, between, between, List.take_drop, List.take_take, List.drop_drop,
    Nat.min_eq_left hq]

namespace Matched

variable {tokens : List Token} {i j k l : Nat}

/-- Brackets that match in a stretch match in the whole. -/
theorem of_between {a b p q : Nat} (h : Matched (between tokens a b) p q) :
    Matched tokens (a + p) (a + q) := by
  obtain ⟨hlt, opener, closer, shape, hopener, hcloser, hopen, hclose, hinner⟩ := h
  have hq := (getElem?_between hcloser).2
  refine ⟨by omega, opener, closer, shape, (getElem?_between hopener).1,
    (getElem?_between hcloser).1, hopen, hclose, ?_⟩
  rwa [between_between (by omega)] at hinner

/-- What opens between two partners closes between them. -/
theorem lt_of_opening (h : Matched tokens i j) (hk : Matched tokens k l) (hik : i < k)
    (hkj : k < j) : l < j := by
  obtain ⟨-, -, -, -, -, -, -, -, hinner⟩ := h
  obtain ⟨-, opener, -, shape, hopener, -, hopen, -, -⟩ := id hk
  have hplace : (between tokens (i + 1) j)[k - (i + 1)]? = some opener := by
    rw [between, List.getElem?_drop, List.getElem?_take, Nat.add_sub_cancel' (by omega),
      if_pos hkj, hopener]
  obtain ⟨m, hm⟩ := hinner.exists_matched hplace hopen
  have hbound := hm.lt_length
  have hwhole := hm.of_between
  rw [Nat.add_sub_cancel' (by omega : i + 1 ≤ k)] at hwhole
  rw [between, List.length_drop, List.length_take] at hbound
  have := hk.right_unique hwhole
  omega

/-- What closes between two partners opens between them. -/
theorem lt_of_closing (h : Matched tokens i j) (hk : Matched tokens l k) (hik : i < k)
    (hkj : k < j) : i < l := by
  rcases Nat.lt_trichotomy i l with hlt | rfl | hgt
  · exact hlt
  · exact absurd (h.right_unique hk) (by omega)
  · have := hk.lt_of_opening h hgt hik
    omega

end Matched

/-! ## The table and the faults -/

/-- **A table of partners**: brackets and nothing else have one, it is mutual, every opening bracket
has a later closing one of its shape, and no two pairs cross. -/
structure Partnered (tokens : List Token) (p : Pairing) : Prop where
  size_eq : p.size = tokens.length
  isSome_iff : ∀ i, (p.partner i).isSome ↔ ∃ t, tokens[i]? = some t ∧ t.half?.isSome
  symm : ∀ i j, p.partner i = some j → p.partner j = some i
  closed : ∀ i t shape, tokens[i]? = some t → t.half? = some (.opening shape) →
    ∃ j u, p.partner i = some j ∧ i < j ∧ tokens[j]? = some u ∧ u.half? = some (.closing shape)
  uncrossed : ∀ i j k l, p.partner i = some j → p.partner k = some l → i < k → k < j →
    i < l ∧ l < j

/-- The bracket at `i` is closed by the one at `j`: they have one shape, and between them stands a
Dyck word. -/
def Closes (tokens : List Token) (i j : Nat) : Prop :=
  i < j ∧ ∃ opener closer shape, tokens[i]? = some opener ∧ tokens[j]? = some closer ∧
    opener.half? = some (.opening shape) ∧ closer.half? = some (.closing shape) ∧
    Dyck (brackets (between tokens (i + 1) j))

/-- An opening bracket that nothing closes. -/
def Unclosed (tokens : List Token) (i : Nat) : Prop :=
  (∃ t shape, tokens[i]? = some t ∧ t.half? = some (.opening shape)) ∧ ∀ j, ¬Closes tokens i j

/-- **Where a fault points**: at the first closing bracket after which no continuation makes the
word a Dyck word, or, if there is none, at the last opening bracket left unclosed. -/
inductive Blamed (tokens : List Token) (fault : PairingFault) : Prop
  | closer {k : Nat} {t : Token} {shape : Bracket} : tokens[k]? = some t →
      t.half? = some (.closing shape) → (∀ i ≤ k, Viable (brackets (tokens.take i))) →
      ¬Viable (brackets (tokens.take (k + 1))) → fault.offset = t.start → Blamed tokens fault
  | opener {k : Nat} {t : Token} : (∀ i, Viable (brackets (tokens.take i))) →
      tokens[k]? = some t → Unclosed tokens k → (∀ i, Unclosed tokens i → i ≤ k) →
      fault.offset = t.start → Blamed tokens fault

/-- A bracket closes another exactly if the two match. -/
theorem closes_iff_matched {tokens : List Token} {i j : Nat} :
    Closes tokens i j ↔ Matched tokens i j := by
  simp only [Closes, Matched, Token.half?_eq_opening_iff, Token.half?_eq_closing_iff,
    balanced_iff_dyck]

namespace Pairing

/-- A bracket that closes something closes the innermost open one. -/
theorem Open.exists_top {seen : List Token} {pending : List (Nat × Token)} (h : Open seen pending)
    {stack next : List Bracket} (hstack : settle [] seen = some stack) {closer : Token}
    {shape : Bracket} (hclose : closer.closing? = some shape)
    (hnext : settle stack [closer] = some next) :
    ∃ j opener outer, pending = (j, opener) :: outer ∧ opener.opening? = some shape := by
  obtain ⟨stack', hstack', hshapes⟩ := h.settle_eq
  rw [hstack] at hstack'
  cases hstack'
  rw [settle, Token.press_closing hclose] at hnext
  split_ifs at hnext with hhead
  · obtain ⟨tail, rfl⟩ := List.head?_eq_some_iff.mp hhead
    rcases pending with _ | ⟨⟨j, opener⟩, outer⟩
    · cases hshapes
    · simp only [List.map_cons, List.cons.injEq] at hshapes
      exact ⟨j, opener, outer, rfl, hshapes.1.symm⟩
  · cases hnext

/-- A run that can still be completed has its open brackets in order. -/
theorem exists_open {seen : List Token} {stack : List Bracket}
    (h : settle [] seen = some stack) : ∃ pending, Open seen pending := by
  induction seen using List.reverseRecOn generalizing stack with
  | nil => exact ⟨[], .nil .nil⟩
  | append_singleton seen t ih =>
    rw [settle_append] at h
    obtain ⟨before, hbefore, hstep⟩ := Option.bind_eq_some_iff.mp h
    obtain ⟨pending, hopen⟩ := ih hbefore
    cases hhalf : t.half? with
    | none =>
      obtain ⟨hopening, hclosing⟩ := Token.half?_eq_none_iff.mp hhalf
      exact ⟨pending, hopen.append (.neutral hopening hclosing)⟩
    | some half =>
      rcases half with shape | shape
      · rw [Token.half?_eq_opening_iff] at hhalf
        exact ⟨_, .cons hopen (by rw [hhalf]; rfl) .nil⟩
      · rw [Token.half?_eq_closing_iff] at hhalf
        obtain ⟨j, opener, pending, rfl, hopener⟩ := hopen.exists_top hbefore hhalf hstep
        exact ⟨pending, (hopen.close hopener hhalf).1⟩

/-- A closing bracket in a balanced run closes one before it. -/
theorem exists_opener {tokens : List Token} (h : Balanced tokens) {k : Nat} {closer : Token}
    {shape : Bracket} (hk : tokens[k]? = some closer) (hclose : closer.closing? = some shape) :
    ∃ i, Matched tokens i k := by
  obtain ⟨before, after, rfl, rfl⟩ : ∃ before after, tokens = before ++ closer :: after ∧
      before.length = k := by
    obtain ⟨hlt, rfl⟩ := List.getElem?_eq_some_iff.mp hk
    exact ⟨tokens.take k, tokens.drop (k + 1), by simp, by simp; omega⟩
  rw [Balanced, settle_append] at h
  obtain ⟨stack, hstack, hrest⟩ := Option.bind_eq_some_iff.mp h
  rw [settle] at hrest
  obtain ⟨next, hpress, -⟩ := Option.bind_eq_some_iff.mp hrest
  obtain ⟨pending, hopen⟩ := exists_open hstack
  obtain ⟨i, opener, pending, rfl, hopener⟩ := hopen.exists_top hstack hclose
    (show settle stack [closer] = some next by rw [settle, hpress]; rfl)
  have hmatch := (hopen.close hopener hclose).2.append after
  rw [List.append_assoc] at hmatch
  exact ⟨i, hmatch⟩

theorem size_pairFrom {i : Nat} {pending : List (Nat × Token)} {table p : Pairing}
    {rest : List Token} (h : pairFrom i pending table rest = .ok p) : p.size = table.size := by
  induction rest generalizing i pending table with
  | nil =>
    cases pending with
    | nil => cases h; rfl
    | cons _ _ => cases h
  | cons t rest ih =>
    rw [pairFrom] at h
    split_ifs at h
    · exact ih h
    · split at h
      · exact ih h
      · split at h
        · cases h
        · split_ifs at h
          rw [ih h, pair, Array.size_setIfInBounds, Array.size_setIfInBounds]

/-- **The table has the partners of all tokens.** -/
theorem partnered_of_ofCode {code : Code} {p : Pairing} (h : ofCode code = .ok p) :
    Partnered code.toList p := by
  have hpartner : ∀ {i j : Nat}, p.partner i = some j ↔ Partners code.toList i j :=
    partner_eq_some_iff h
  have hbalanced := exists_ofCode_iff.mp ⟨p, h⟩
  have hclosed : ∀ i t shape, code.toList[i]? = some t → t.half? = some (.opening shape) →
      ∃ j, Matched code.toList i j := fun i t shape ht hhalf =>
    hbalanced.exists_matched ht (Token.half?_eq_opening_iff.mp hhalf)
  refine ⟨?_, fun i => ⟨fun hsome => ?_, ?_⟩, fun i j hij => ?_, fun i t shape ht hhalf => ?_,
    fun i j k l hij hkl hik hkj => ?_⟩
  · rw [size_pairFrom h, unpaired, Array.size_replicate, Array.length_toList]
  · obtain ⟨j, hj⟩ := Option.isSome_iff_exists.mp hsome
    rcases hpartner.mp hj with ⟨-, t, -, shape, ht, -, hopen, -, -⟩ |
      ⟨-, -, t, shape, -, ht, -, hclose, -⟩
    · exact ⟨t, ht, by rw [Token.half?_eq_opening_iff.mpr hopen]; rfl⟩
    · exact ⟨t, ht, by rw [Token.half?_eq_closing_iff.mpr hclose]; rfl⟩
  · rintro ⟨t, ht, hsome⟩
    obtain ⟨half, hhalf⟩ := Option.isSome_iff_exists.mp hsome
    rcases half with shape | shape
    · obtain ⟨j, hj⟩ := hclosed i t shape ht hhalf
      exact Option.isSome_iff_exists.mpr ⟨j, hpartner.mpr (.inl hj)⟩
    · obtain ⟨j, hj⟩ := exists_opener hbalanced ht (Token.half?_eq_closing_iff.mp hhalf)
      exact Option.isSome_iff_exists.mpr ⟨j, hpartner.mpr (.inr hj)⟩
  · exact hpartner.mpr (hpartner.mp hij).symm
  · obtain ⟨j, hj⟩ := hclosed i t shape ht hhalf
    obtain ⟨hlt, opener, closer, shape', hopener, hcloser, hopen, hclose, -⟩ := id hj
    rw [ht] at hopener
    cases hopener
    rw [Token.half?_eq_opening_iff, hopen] at hhalf
    cases hhalf
    exact ⟨j, closer, hpartner.mpr (.inl hj), hlt, hcloser,
      Token.half?_eq_closing_iff.mpr hclose⟩
  · have hmatch : Matched code.toList i j := by
      rcases hpartner.mp hij with hmatch | hmatch
      · exact hmatch
      · exact absurd hmatch.1 (by omega)
    rcases hpartner.mp hkl with hkl | hlk
    · have := hmatch.lt_of_opening hkl hik hkj
      have := hkl.1
      omega
    · have := hmatch.lt_of_closing hlk hik hkj
      have := hlk.1
      omega

/-- A bracket that opens is closed later. -/
theorem exists_closing {code : Code} {p : Pairing} (h : ofCode code = .ok p) (shape : Bracket)
    {i : Nat} (hopen : code.mark i shape.opener = true) :
    ∃ j, p.partner i = some j ∧ i < j ∧ code.mark j shape.closer = true := by
  obtain ⟨t, ht, hmark⟩ := (Option.any_eq_true _ _).mp hopen
  obtain ⟨j, u, hpartner, hlt, hu, hclose⟩ := (partnered_of_ofCode h).closed i t shape
    (by rw [Array.getElem?_toList, ht])
    (Token.half?_eq_opening_iff.mpr (Token.opening?_eq_some_iff.mpr hmark))
  rw [Array.getElem?_toList] at hu
  refine ⟨j, hpartner, hlt, ?_⟩
  rw [Code.mark, Code.has, hu, Option.any_some]
  exact Token.closing?_eq_some_iff.mp (Token.half?_eq_closing_iff.mp hclose)

/-- A bracket that closes was opened before. -/
theorem exists_opening {code : Code} {p : Pairing} (h : ofCode code = .ok p) (shape : Bracket)
    {i : Nat} (hclose : code.mark i shape.closer = true) :
    ∃ j, p.partner i = some j ∧ j < i ∧ code.mark j shape.opener = true := by
  obtain ⟨t, ht, hmark⟩ := (Option.any_eq_true _ _).mp hclose
  obtain ⟨j, hmatch⟩ := exists_opener (exists_ofCode_iff.mp ⟨p, h⟩)
    (by rw [Array.getElem?_toList, ht]) (Token.closing?_eq_some_iff.mpr hmark)
  refine ⟨j, (partner_eq_some_iff h).mpr (.inr hmatch), hmatch.1, ?_⟩
  obtain ⟨-, opener, closer, other, hopener, hcloser, hopen, hother, -⟩ := hmatch
  rw [Array.getElem?_toList] at hopener hcloser
  rw [ht] at hcloser
  cases hcloser
  rw [Token.closing?_eq_some_iff.mpr hmark] at hother
  cases hother
  rw [Code.mark, Code.has, hopener, Option.any_some]
  exact Token.opening?_eq_some_iff.mp hopen

/-- A bracket that closes what is not open. -/
theorem blamed_of_closer {seen rest : List Token} {stack : List Bracket} {t : Token}
    {shape : Bracket} {fault : PairingFault} (hstack : settle [] seen = some stack)
    (hclose : t.closing? = some shape) (hhead : stack.head? ≠ some shape)
    (hoffset : fault.offset = t.start) : Blamed (seen ++ t :: rest) fault := by
  refine .closer (k := seen.length) (by simp) (Token.half?_eq_closing_iff.mpr hclose)
    (fun i hi => ?_) ?_ hoffset
  · have hseen : Viable (brackets (seen.take i ++ seen.drop i)) := by
      rw [List.take_append_drop]
      exact viable_iff.mpr ⟨stack, hstack⟩
    rw [List.take_append_of_le_length hi]
    rw [brackets_append] at hseen
    exact hseen.of_append
  · rw [List.take_length_add_append, List.take_succ_cons, List.take_zero, viable_iff, settle_append,
      hstack, Option.bind_some, settle, Token.press_closing hclose, if_neg hhead]
    rintro ⟨next, ⟨⟩⟩

/-- A bracket that stays open, with a balanced run after it. -/
theorem blamed_of_open {before inner : List Token} {opener : Token}
    {pending : List (Nat × Token)} (hbefore : Open before pending)
    (hopener : opener.opening?.isSome) (hinner : Balanced inner) :
    Blamed (before ++ opener :: inner) (.unclosed opener) := by
  obtain ⟨shape, hshape⟩ := Option.isSome_iff_exists.mp hopener
  have hlist : before ++ opener :: inner = (before ++ [opener]) ++ inner := by simp
  have hlen : (before ++ [opener]).length = before.length + 1 := by simp
  refine .opener (k := before.length) (t := opener) (fun i => ?_) (by simp)
    ⟨⟨opener, shape, by simp, Token.half?_eq_opening_iff.mpr hshape⟩, fun j hj => ?_⟩
    (fun i hi => ?_) rfl
  · obtain ⟨stack, hstack, -⟩ := (Open.cons hbefore hopener hinner).settle_eq
    have hwhole := viable_iff.mpr ⟨stack, hstack⟩
    rw [← List.take_append_drop i (before ++ opener :: inner), brackets_append] at hwhole
    exact hwhole.of_append
  · -- What would close the bracket closes nothing in the balanced run.
    obtain ⟨hlt, -, closer, other, -, hcloser, -, hclose, hbetween⟩ := closes_iff_matched.mp hj
    obtain ⟨m, rfl⟩ : ∃ m, j = (before ++ [opener]).length + m :=
      ⟨j - (before.length + 1), by rw [hlen]; omega⟩
    rw [hlist, List.getElem?_append_right (by omega), Nat.add_sub_cancel_left] at hcloser
    rw [between, hlist, ← hlen, List.take_length_add_append, List.drop_left] at hbetween
    obtain ⟨hm, rfl⟩ := List.getElem?_eq_some_iff.mp hcloser
    have hsplit : Balanced (inner.take m ++ inner[m] :: inner.drop (m + 1)) := by
      rwa [← List.drop_eq_getElem_cons hm, List.take_append_drop]
    have hrest := hsplit.of_append hbetween
    rw [Balanced, settle, Token.press_closing hclose] at hrest
    cases hrest
  · -- A bracket that opens later is closed in the balanced run.
    by_contra hlate
    obtain ⟨⟨t, other, ht, hhalf⟩, hunclosed⟩ := hi
    obtain ⟨m, rfl⟩ : ∃ m, i = (before ++ [opener]).length + m :=
      ⟨i - (before.length + 1), by rw [hlen]; omega⟩
    have hinside : inner = between (before ++ opener :: inner) (before ++ [opener]).length
        (before ++ opener :: inner).length := by
      rw [between, List.take_length, hlist, List.drop_left]
    have hm := ht
    rw [hlist, List.getElem?_append_right (by omega), Nat.add_sub_cancel_left] at hm
    obtain ⟨q, hq⟩ := hinner.exists_matched hm (Token.half?_eq_opening_iff.mp hhalf)
    rw [hinside] at hq
    exact hunclosed _ (closes_iff_matched.mpr hq.of_between)

/-- **What the pass blames**, from any point on. -/
theorem blamed_of_pairFrom {seen rest : List Token} {pending : List (Nat × Token)}
    {table : Pairing} {fault : PairingFault} (hopen : Open seen pending)
    (h : pairFrom seen.length pending table rest = .error fault) : Blamed (seen ++ rest) fault := by
  induction rest generalizing seen pending table with
  | nil =>
    rw [List.append_nil]
    cases hopen with
    | nil _ => cases h
    | cons hbefore hopener hinner =>
      cases h
      exact blamed_of_open hbefore hopener hinner
  | cons t rest ih =>
    have hlen : seen.length + 1 = (seen ++ [t]).length := by simp
    have happend : seen ++ t :: rest = (seen ++ [t]) ++ rest := by simp
    rw [pairFrom, hlen] at h
    cases hhalf : t.half? with
    | none =>
      obtain ⟨hopening, hclosing⟩ := Token.half?_eq_none_iff.mp hhalf
      rw [hopening, hclosing] at h
      rw [happend]
      exact ih (hopen.append (.neutral hopening hclosing)) h
    | some half =>
      rcases half with shape | shape
      · rw [Token.half?_eq_opening_iff] at hhalf
        rw [hhalf, if_pos (by rfl)] at h
        rw [happend]
        exact ih (.cons hopen (by rw [hhalf]; rfl) .nil) h
      · rw [Token.half?_eq_closing_iff] at hhalf
        rw [Token.opening?_eq_none hhalf, hhalf] at h
        obtain ⟨stack, hstack, hshapes⟩ := hopen.settle_eq
        cases pending with
        | nil =>
          cases h
          obtain rfl : stack = [] := by simpa using hshapes
          exact blamed_of_closer hstack hhalf (by simp) rfl
        | cons head pending =>
          obtain ⟨j, opener⟩ := head
          dsimp only at h
          rw [if_neg (by decide)] at h
          split_ifs at h with hshape
          · rw [happend]
            exact ih (hopen.close (by simpa using hshape) hhalf).1 h
          · cases h
            refine blamed_of_closer hstack hhalf (fun hhead => hshape ?_) rfl
            obtain ⟨tail, rfl⟩ := List.head?_eq_some_iff.mp hhead
            simp only [List.map_cons, List.cons.injEq] at hshapes
            rw [← hshapes.1]
            simp

end Pairing

/-- **The outline accepts exactly the Dyck words.**  On success the table is one of partners, on
failure the fault points at the bracket to blame. -/
theorem ofTokens_accepts_dyck (source : Bytes) (tokens : List Token) :
    ((∃ o, Outline.ofTokens source tokens = .ok o) ↔
        Dyck (brackets (Code.ofTokens tokens).toList)) ∧
      match Outline.ofTokens source tokens with
      | .ok o => Partnered (Code.ofTokens tokens).toList o.pairing
      | .error fault => Blamed (Code.ofTokens tokens).toList fault := by
  rw [← balanced_iff_dyck, ← Pairing.exists_ofCode_iff, Outline.ofTokens]
  cases h : Pairing.ofCode (Code.ofTokens tokens) with
  | ok pairing => exact ⟨by simp, Pairing.partnered_of_ofCode h⟩
  | error fault => exact ⟨by simp, Pairing.blamed_of_pairFrom (.nil .nil) h⟩

end Quell
