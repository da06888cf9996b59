import Mathlib.Data.List.Forall2
import Mathlib.Tactic.Common
import Quell.Declaration.Pieces
import Quell.Proofs.Dyck
import Quell.Proofs.Forest

/-!
# Proofs/Pieces — comma-separated lists, cut back into their items

A list is `Listed` if a comma stands after each of its items, except perhaps after the last.  The
cut `Passes` over a run if no piece ends in it; a `Clause`, balanced and without a comma outside its
brackets, is passed whatever else it holds.  A list whose items are passed is cut into exactly the
runs of its items (`pieces_listed`), and attributes before an item are skipped group by group
(`Attributes.skip_eq`).
-/

namespace Quell

/-! ## Runs of the code -/

namespace Code

variable {code : Code} {i : Nat} {u w : List Token}

theorem Holds.left (h : code.Holds i (u ++ w)) : code.Holds i u := fun k t hk =>
  h k t (by rw [List.getElem?_append_left (List.getElem?_eq_some_iff.mp hk).1, hk])

theorem Holds.right (h : code.Holds i (u ++ w)) : code.Holds (i + u.length) w := by
  intro k t hk
  have := h (u.length + k) t (by rw [List.getElem?_append_right (by omega)]; simpa using hk)
  rwa [← Nat.add_assoc] at this

/-- What stands at a place is read off there. -/
theorem Holds.getElem? (h : code.Holds i u) {k : Nat} (hk : k < u.length) :
    code[i + k]? = u[k]? := by
  rw [List.getElem?_eq_getElem hk]
  exact h k _ (List.getElem?_eq_getElem hk)

theorem Holds.length_le (h : code.Holds i u) : u.length ≤ code.size := by
  rcases Nat.eq_zero_or_pos u.length with hzero | hpos
  · omega
  · have hlast := h.getElem? (k := u.length - 1) (by omega)
    rw [List.getElem?_eq_getElem (by omega)] at hlast
    have := (Array.getElem?_eq_some_iff.mp hlast).1
    omega

/-- The slice at that place is what stands there. -/
theorem Holds.slice_eq (h : code.Holds i u) : code.slice ⟨i, i + u.length⟩ = u := by
  rw [slice, Array.toList_extract, List.extract_eq_take_drop, Nat.add_sub_cancel_left]
  refine List.ext_getElem? fun k => ?_
  rw [List.getElem?_take]
  split_ifs with hk
  · rw [List.getElem?_drop, Array.getElem?_toList, h.getElem? hk]
  · rw [List.getElem?_eq_none (by omega)]

/-- The run holds exactly these tokens. -/
def Reads (code : Code) (s : Slice) (tokens : List Token) : Prop :=
  s.stop = s.start + tokens.length ∧ code.Holds s.start tokens

theorem Reads.slice_eq {s : Slice} (h : code.Reads s u) : code.slice s = u := by
  rw [show s = ⟨s.start, s.start + u.length⟩ by rw [← h.1]]
  exact h.2.slice_eq

/-- A run inside the buffer holds what its slice is. -/
theorem reads_of_slice {s : Slice} (h : code.slice s = u) (hstart : s.start ≤ s.stop)
    (hstop : s.stop ≤ code.size) : code.Reads s u := by
  rw [slice, Array.toList_extract, List.extract_eq_take_drop] at h
  subst h
  refine ⟨by rw [List.length_take, List.length_drop, Array.length_toList]; omega, ?_⟩
  intro k t hk
  rw [List.getElem?_take] at hk
  split_ifs at hk
  rwa [List.getElem?_drop, Array.getElem?_toList] at hk

end Code

/-! ## Tokens that are no brackets -/

theorem Token.isMark_of_kind {t : Token} (h : t.kind ≠ .punctuation) (word : String) :
    t.isMark word = false := by
  rw [← Bool.not_eq_true, isMark_iff]
  exact fun hmark => h hmark.1

theorem Token.kind_ne_of_isName {t : Token} (h : t.isName = true) : t.kind ≠ .punctuation := by
  rw [beq_iff_eq.mp h]
  decide

theorem Token.isMarkIn_eq_false {t : Token} {words : List String}
    (h : ∀ word ∈ words, t.isMark word = false) : t.isMarkIn words = false := by
  rw [← Bool.not_eq_true, isMarkIn_iff]
  rintro ⟨word, hword, hmark⟩
  exact Bool.false_ne_true ((h word hword).symm.trans hmark)

/-- A token that is none of the six brackets is no bracket. -/
theorem Token.half?_eq_none_of_marks {t : Token}
    (h : ∀ bracket ∈ ["(", ")", "[", "]", "\x7b", "\x7d"], t.isMark bracket = false) :
    t.half? = none := by
  simp only [List.forall_mem_cons] at h
  obtain ⟨h₁, h₂, h₃, h₄, h₅, h₆, -⟩ := h
  simp [half?_eq_none_iff, opening?, closing?, h₁, h₂, h₃, h₄, h₅, h₆]

theorem Token.half?_eq_none_of_kind {t : Token} (h : t.kind ≠ .punctuation) : t.half? = none :=
  half?_eq_none_of_marks fun bracket _ => isMark_of_kind h bracket

theorem Token.half?_eq_none_of_isMark {t : Token} {word : String} (h : t.isMark word = true)
    (hword : ∀ bracket ∈ ["(", ")", "[", "]", "\x7b", "\x7d"], utf8 word ≠ utf8 bracket) :
    t.half? = none :=
  half?_eq_none_of_marks fun bracket hbracket => isMark_eq_false h (hword bracket hbracket)

/-- What is no bracket is neither the opening nor the closing mark of any shape. -/
theorem Token.isMark_of_half?_eq_none {t : Token} (h : t.half? = none) (shape : Bracket) :
    t.isMark shape.opener = false ∧ t.isMark shape.closer = false := by
  obtain ⟨hopen, hclose⟩ := half?_eq_none_iff.mp h
  constructor
  · rw [← Bool.not_eq_true, ← opening?_eq_some_iff, hopen]
    nofun
  · rw [← Bool.not_eq_true, ← closing?_eq_some_iff, hclose]
    nofun

/-- Where no brackets are held, none stands. -/
theorem Code.Holds.mark_eq_false {code : Code} {i k : Nat} {u : List Token} (h : code.Holds i u)
    (hplain : ∀ t ∈ u, t.half? = none) (hle : i ≤ k) (hlt : k < i + u.length) (shape : Bracket) :
    code.mark k shape.opener = false ∧ code.mark k shape.closer = false := by
  have hk : k - i < u.length := by omega
  have hat : code[k]? = some u[k - i] := by
    rw [← List.getElem?_eq_getElem hk, ← h.getElem? hk, show i + (k - i) = k by omega]
  simpa [Code.mark, Code.has, hat] using
    Token.isMark_of_half?_eq_none (hplain _ (List.getElem_mem hk)) shape

theorem Token.opening?_square {t : Token} (h : t.isMark "[" = true) : t.opening? = some .square :=
  opening?_eq_some_iff.mpr h

theorem Token.closing?_square {t : Token} (h : t.isMark "]" = true) : t.closing? = some .square :=
  closing?_eq_some_iff.mpr h

/-- The brackets around a balanced run are partners. -/
theorem Pairing.partners_of_holds {code : Code} {pairing : Pairing}
    (hpaired : Pairing.ofCode code = .ok pairing) {i : Nat} {opener closer : Token}
    {inner rest : List Token} {shape : Bracket} (hopen : opener.opening? = some shape)
    (hclose : closer.closing? = some shape) (hinner : Balanced inner)
    (h : code.Holds i (opener :: (inner ++ closer :: rest))) :
    pairing.partner i = some (i + inner.length + 1) ∧
      pairing.partner (i + inner.length + 1) = some i := by
  have hcloser : code[i + inner.length + 1]? = some closer := by
    have := h.tail.right.head
    rwa [show i + 1 + inner.length = i + inner.length + 1 by omega] at this
  have hbetween : between code.toList (i + 1) (i + inner.length + 1) = inner := by
    have hslice := h.tail.left.slice_eq
    rw [Code.slice, Array.toList_extract, List.extract_eq_take_drop,
      ← List.drop_take] at hslice
    rwa [between, show i + inner.length + 1 = i + 1 + inner.length by omega]
  have hmatch : Matched code.toList i (i + inner.length + 1) :=
    ⟨by omega, opener, closer, shape, by simpa using h.head, by simpa using hcloser, hopen, hclose,
      by rwa [hbetween]⟩
  exact ⟨(partner_eq_some_iff hpaired).mpr (.inl hmatch),
    (partner_eq_some_iff hpaired).mpr (.inr hmatch)⟩

namespace Declaration

/-! ## Clauses -/

/-- **A balanced run without a comma outside its brackets.** -/
structure Clause (tokens : List Token) : Prop where
  balanced : Balanced tokens
  unlisted : ∀ before t after, tokens = before ++ t :: after → Balanced before →
    t.isMark "," = false

namespace Clause

variable {u w : List Token}

theorem nil : Clause [] := ⟨.nil, fun before t after h => by simp at h⟩

theorem token {t : Token} (hplain : t.half? = none) (hcomma : t.isMark "," = false) :
    Clause [t] := by
  obtain ⟨hopen, hclose⟩ := Token.half?_eq_none_iff.mp hplain
  refine ⟨.neutral hopen hclose, fun before u after h _ => ?_⟩
  have hmem : u ∈ [t] := h ▸ List.mem_append_right before List.mem_cons_self
  rwa [List.mem_singleton.mp hmem]

/-- Clauses one after the other are one. -/
theorem append (hu : Clause u) (hw : Clause w) : Clause (u ++ w) := by
  refine ⟨hu.balanced.append hw.balanced, fun before t after h hbefore => ?_⟩
  rcases List.append_eq_append_iff.mp h with ⟨middle, rfl, hmiddle⟩ | ⟨middle, rfl, hmiddle⟩
  · exact hw.unlisted middle t after hmiddle (hbefore.of_append hu.balanced)
  · cases middle with
    | nil => exact hw.unlisted [] t after (by simpa using hmiddle.symm) .nil
    | cons t' middle =>
      obtain ⟨rfl, rfl⟩ := List.cons.inj hmiddle
      exact hu.unlisted before t middle rfl hbefore

/-- Inside brackets there may be commas. -/
theorem wrap {opener closer : Token} {inner : List Token} {shape : Bracket}
    (hopen : opener.opening? = some shape) (hclose : closer.closing? = some shape)
    (hinner : Balanced inner) : Clause (opener :: (inner ++ [closer])) := by
  refine ⟨.wrap hopen hclose hinner, fun before t after h hbefore => ?_⟩
  cases before with
  | nil =>
    obtain ⟨rfl, -⟩ := List.cons.inj h
    have hmark := Token.opening?_eq_some_iff.mp hopen
    exact Token.isMark_eq_false hmark (by cases shape <;> decide)
  | cons first before =>
    -- The bracket is still open after any front part of what it holds.
    obtain ⟨rfl, htail⟩ := List.cons.inj h
    obtain ⟨after', rfl⟩ : ∃ after', inner = before ++ after' := by
      rcases List.append_eq_append_iff.mp htail with ⟨middle, rfl, hmiddle⟩ | ⟨middle, rfl, -⟩
      · obtain rfl : middle = [] := by
          cases middle with
          | nil => rfl
          | cons _ _ => simp at hmiddle
        exact ⟨[], by simp⟩
      · exact ⟨middle, rfl⟩
    rw [Balanced, settle_append] at hinner
    obtain ⟨stack, hstack, -⟩ := Option.bind_eq_some_iff.mp hinner
    have hframe := settle_frame hstack [shape]
    rw [Balanced, settle, Token.press_opening hopen, Option.bind_some, ← List.nil_append [shape],
      hframe] at hbefore
    simp at hbefore

end Clause

/-- Whether a run is a clause can be tested at each of its tokens. -/
theorem clause_iff {tokens : List Token} : Clause tokens ↔ Balanced tokens ∧
    ∀ k, ∀ hk : k < tokens.length, Balanced (tokens.take k) → tokens[k].isMark "," = false := by
  constructor
  · refine fun h => ⟨h.balanced, fun k hk hbefore => ?_⟩
    refine h.unlisted _ _ (tokens.drop (k + 1)) ?_ hbefore
    rw [← List.drop_eq_getElem_cons, List.take_append_drop]
  · rintro ⟨hbalanced, hunlisted⟩
    refine ⟨hbalanced, ?_⟩
    rintro before t after rfl hbefore
    simpa using hunlisted before.length (by simp) (by simpa using hbefore)

instance (tokens : List Token) : Decidable (Clause tokens) := decidable_of_iff' _ clause_iff

/-- **The value given to a name**: nothing, or `=` and a clause. -/
inductive Initializer : List Token → Prop
  | nil : Initializer []
  | cons {equals : Token} {value : List Token} :
      equals.isMark "=" = true → Clause value → Initializer (equals :: value)

/-- An initializer is a clause. -/
theorem Initializer.clause {tokens : List Token} (h : Initializer tokens) : Clause tokens := by
  cases h with
  | nil => exact .nil
  | cons hequals hvalue =>
    exact (Clause.token (Token.half?_eq_none_of_isMark hequals (by decide))
      (Token.isMark_eq_false hequals (by decide))).append hvalue

/-! ## What the cut passes over -/

namespace Cut

variable {angles : Bool} {c next last : Cut} {t : Token} {u w : List Token}

/-- **The cut passes over the tokens**, from one state to the next, without ending a piece. -/
def Passes (angles : Bool) (c : Cut) (tokens : List Token) (next : Cut) : Prop :=
  ∀ stop i rest, piecesFrom angles stop c i (tokens ++ rest) =
    piecesFrom angles stop next (i + tokens.length) rest

theorem Passes.nil : c.Passes angles [] c := fun _ _ _ => rfl

/-- The cut passes two stretches one after the other. -/
theorem Passes.append (hu : c.Passes angles u next) (hw : next.Passes angles w last) :
    c.Passes angles (u ++ w) last := by
  intro stop i rest
  rw [List.append_assoc, hu, hw, List.length_append, Nat.add_assoc]

theorem Passes.cons (ht : c.Passes angles [t] next) (hw : next.Passes angles w last) :
    c.Passes angles (t :: w) last := ht.append hw

/-- The cut goes one level deeper at an opening bracket. -/
theorem passes_opening {shape : Bracket} (h : t.opening? = some shape) :
    c.Passes angles [t] { c with depth := c.depth + 1 } := by
  intro stop i rest
  rw [List.singleton_append, piecesFrom, h, Option.isSome_some, if_pos rfl]
  rfl

theorem passes_closing {shape : Bracket} (h : t.closing? = some shape) :
    c.Passes angles [t] { c with depth := c.depth - 1 } := by
  intro stop i rest
  rw [List.singleton_append, piecesFrom, Token.opening?_eq_none h, Option.isSome_none,
    if_neg Bool.false_ne_true, h, Option.isSome_some, if_pos rfl]
  rfl

/-- A token that is no bracket is tested by what it means outside all brackets. -/
theorem piecesFrom_plain (hplain : t.half? = none) (stop i : Nat) (rest : List Token) :
    piecesFrom angles stop c i (t :: rest) =
      if c.depth ≠ 0 then piecesFrom angles stop c (i + 1) rest
      else if angles && !c.inDefault && t.isMark "<" then
        piecesFrom angles stop { c with angle := c.angle + 1 } (i + 1) rest
      else if 0 < c.angle && !c.inDefault && t.isMark ">" then
        piecesFrom angles stop { c with angle := c.angle - 1 } (i + 1) rest
      else if c.angle = 0 && t.isMark "=" then
        piecesFrom angles stop { c with inDefault := true } (i + 1) rest
      else if c.angle = 0 && t.isMark "," then
        ⟨c.start, i⟩ :: piecesFrom angles stop { start := i + 1 } (i + 1) rest
      else piecesFrom angles stop c (i + 1) rest := by
  obtain ⟨hopen, hclose⟩ := Token.half?_eq_none_iff.mp hplain
  rw [piecesFrom, hopen, hclose, Option.isSome_none, if_neg Bool.false_ne_true,
    if_neg Bool.false_ne_true]

/-- Inside brackets only brackets count. -/
theorem passes_inside (hplain : t.half? = none) (hdepth : c.depth ≠ 0) : c.Passes angles [t] c := by
  intro stop i rest
  rw [List.singleton_append, piecesFrom_plain hplain, if_pos hdepth]
  rfl

/-- Where template brackets do not count, a comma alone ends a piece. -/
theorem passes_outside (hplain : t.half? = none) (hdepth : c.depth = 0) (hangle : c.angle = 0)
    (hquiet : angles = false ∨ c.inDefault = true) (hcomma : t.isMark "," = false) :
    c.Passes angles [t] { c with inDefault := c.inDefault || t.isMark "=" } := by
  intro stop i rest
  have hangles : (angles && !c.inDefault && t.isMark "<") = false := by
    rcases hquiet with rfl | hdefault
    · rfl
    · rw [hdefault, Bool.not_true, Bool.and_false, Bool.false_and]
  rw [List.singleton_append, piecesFrom_plain hplain, hangles, hcomma, if_neg (by simp [hdepth]),
    if_neg Bool.false_ne_true, if_neg (by simp [hangle])]
  cases hequals : t.isMark "=" with
  | true => rw [if_pos (by simp [hangle]), Bool.or_true]; rfl
  | false => rw [if_neg (by simp), if_neg (by simp), Bool.or_false]; rfl

/-- The open brackets after a run are the depth of the cut after it. -/
theorem exists_passes_of_settle {stack stack' : List Bracket} (h : settle stack u = some stack')
    (hcomma : ∀ before t after, u = before ++ t :: after → settle stack before = some [] →
      t.isMark "," = false)
    (hdepth : c.depth = stack.length) (hangle : c.angle = 0)
    (hquiet : angles = false ∨ c.inDefault = true) :
    ∃ inDefault, (angles = false ∨ inDefault = true) ∧
      c.Passes angles u { c with depth := stack'.length, inDefault } := by
  induction u generalizing c stack with
  | nil =>
    cases h
    exact ⟨c.inDefault, hquiet, by rw [← hdepth]; exact .nil⟩
  | cons t u ih =>
    rw [settle] at h
    obtain ⟨middle, hpress, hrest⟩ := Option.bind_eq_some_iff.mp h
    have hlater : ∀ before t' after, u = before ++ t' :: after → settle middle before = some [] →
        t'.isMark "," = false := fun before t' after hu hsettle =>
      hcomma (t :: before) t' after (by rw [hu, List.cons_append])
        (by rw [settle, hpress, Option.bind_some, hsettle])
    -- One token leads to a state with the depth of the brackets then open.
    obtain ⟨inDefault, hstep, hquiet'⟩ : ∃ inDefault,
        c.Passes angles [t] { c with depth := middle.length, inDefault } ∧
          (angles = false ∨ inDefault = true) := by
      cases hopen : t.opening? with
      | some shape =>
        rw [Token.press_opening hopen] at hpress
        cases hpress
        exact ⟨c.inDefault, by simpa [hdepth] using passes_opening (c := c) hopen, hquiet⟩
      | none =>
        cases hclose : t.closing? with
        | some shape =>
          rw [Token.press_closing hclose] at hpress
          split_ifs at hpress with hhead
          cases hpress
          obtain ⟨rest, rfl⟩ := List.head?_eq_some_iff.mp hhead
          exact ⟨c.inDefault, by simpa [hdepth] using passes_closing (c := c) hclose, hquiet⟩
        | none =>
          rw [Token.press_neutral hopen hclose] at hpress
          cases hpress
          have hplain := Token.half?_eq_none_iff.mpr ⟨hopen, hclose⟩
          rcases eq_or_ne stack [] with rfl | hne
          · refine ⟨c.inDefault || t.isMark "=", ?_, hquiet.imp_right fun h => by rw [h]; rfl⟩
            rw [← hdepth]
            exact passes_outside hplain hdepth hangle hquiet (hcomma [] t u rfl rfl)
          · refine ⟨c.inDefault, ?_, hquiet⟩
            rw [← hdepth]
            exact passes_inside hplain (by
              have := List.length_pos_iff.mpr hne
              omega)
    obtain ⟨inDefault', hquiet'', hpasses⟩ := ih (c := { c with depth := middle.length, inDefault })
      hrest hlater rfl hangle hquiet'
    exact ⟨inDefault', hquiet'', hstep.cons hpasses⟩

end Cut

/-- A clause is passed over where template brackets do not count. -/
theorem Clause.exists_passes {angles : Bool} {c : Cut} {tokens : List Token} (h : Clause tokens)
    (hdepth : c.depth = 0) (hangle : c.angle = 0) (hquiet : angles = false ∨ c.inDefault = true) :
    ∃ inDefault, c.Passes angles tokens { c with inDefault } := by
  have hsettle : settle [] tokens = some [] := h.balanced
  obtain ⟨inDefault, -, hpasses⟩ := Cut.exists_passes_of_settle hsettle h.unlisted hdepth hangle
    hquiet
  exact ⟨inDefault, by simpa [hdepth] using hpasses⟩

/-! ## Lists -/

/-- **Items with a comma after each**, except perhaps after the last. -/
inductive Listed : (items : List (List Token)) → (tokens : List Token) → Prop
  | nil : Listed [] []
  | last {item : List Token} : item ≠ [] → Listed [item] item
  | cons {item tokens : List Token} {items : List (List Token)} {comma : Token} :
      comma.isMark "," = true → Listed items tokens →
      Listed (item :: items) (item ++ comma :: tokens)

/-- The runs that items take up in a list whose first one starts at index `i`. -/
def runs : (i : Nat) → (items : List (List Token)) → List Slice
  | _, [] => []
  | i, item :: items => ⟨i, i + item.length⟩ :: runs (i + item.length + 1) items

/-- Each run of a list reads its item. -/
theorem Listed.forall₂_reads {code : Code} {items : List (List Token)} {tokens : List Token}
    (h : Listed items tokens) {i : Nat} (hholds : code.Holds i tokens) :
    List.Forall₂ code.Reads (runs i items) items := by
  induction h generalizing i with
  | nil => exact .nil
  | last _ => exact .cons ⟨rfl, hholds⟩ .nil
  | cons _ _ ih => exact .cons ⟨rfl, hholds.left⟩ (ih hholds.right.tail)

/-- An item that the cut passes over from its start, whatever it holds of a default. -/
def Whole (angles : Bool) (item : List Token) : Prop :=
  ∀ start, ∃ inDefault, Cut.Passes angles { start } item { start, inDefault }

theorem Clause.whole {item : List Token} (h : Clause item) : Whole false item :=
  fun _ => h.exists_passes rfl rfl (.inl rfl)

/-- A comma at the top ends a piece and starts the next. -/
theorem piecesFrom_comma {angles inDefault : Bool} {start stop i : Nat} {comma : Token}
    (h : comma.isMark "," = true) (rest : List Token) :
    piecesFrom angles stop { start, inDefault } i (comma :: rest) =
      ⟨start, i⟩ :: piecesFrom angles stop { start := i + 1 } (i + 1) rest := by
  have hother {word : String} (hne : utf8 "," ≠ utf8 word) : comma.isMark word = false :=
    Token.isMark_eq_false h hne
  rw [Cut.piecesFrom_plain (Token.half?_eq_none_of_isMark h (by decide)), hother (by decide),
    hother (by decide), hother (by decide), h]
  simp

/-- **A list is cut into its items.** -/
theorem piecesFrom_listed {angles : Bool} {items : List (List Token)} {tokens : List Token}
    (h : Listed items tokens) (hwhole : ∀ item ∈ items, Whole angles item) (i : Nat) :
    piecesFrom angles (i + tokens.length) { start := i } i tokens = runs i items := by
  induction h generalizing i with
  | nil => rw [piecesFrom, if_neg (by simp), runs]
  | @last item hne =>
    obtain ⟨inDefault, hpasses⟩ := hwhole item (List.mem_singleton_self item) i
    have hpos := List.length_pos_iff.mpr hne
    have hend := hpasses (i + item.length) i []
    rw [List.append_nil] at hend
    rw [hend, piecesFrom, if_pos (by dsimp only; omega), runs, runs]
  | @cons item tokens items comma hcomma _ ih =>
    obtain ⟨inDefault, hpasses⟩ := hwhole item List.mem_cons_self i
    have hlength : i + (item ++ comma :: tokens).length = i + item.length + 1 + tokens.length := by
      rw [List.length_append, List.length_cons]
      omega
    rw [hlength, hpasses, piecesFrom_comma hcomma, runs,
      ih fun item hitem => hwhole item (List.mem_cons_of_mem _ hitem)]

/-- **A list is cut into the runs of its items.** -/
theorem pieces_listed {code : Code} {angles : Bool} {s : Slice} {items : List (List Token)}
    {tokens : List Token} (h : Listed items tokens) (hreads : code.Reads s tokens)
    (hwhole : ∀ item ∈ items, Whole angles item) : pieces code angles s = runs s.start items := by
  rw [pieces, hreads.slice_eq, hreads.1, piecesFrom_listed h hwhole]

/-- Each piece of a list of written things reads the one at its place. -/
theorem pieces_reads {α : Type} {written : α → List Token} {code : Code} {angles : Bool} {s : Slice}
    {row : List α} {tokens : List Token} (h : Listed (row.map written) tokens)
    (hreads : code.Reads s tokens) (hwhole : ∀ x ∈ row, Whole angles (written x)) :
    List.Forall₂ (fun piece x => code.Reads piece (written x)) (pieces code angles s) row := by
  rw [pieces_listed h hreads (List.forall_mem_map.mpr hwhole)]
  exact List.forall₂_map_right_iff.mp (h.forall₂_reads hreads.2)

/-! ## Attributes -/

/-- **Attributes**: any number of groups in double square brackets. -/
inductive Attributes : List Token → Prop
  | nil : Attributes []
  | cons {outer inner inner' outer' : Token} {words rest : List Token} :
      outer.isMark "[" = true → inner.isMark "[" = true → Balanced words →
      inner'.isMark "]" = true → outer'.isMark "]" = true → Attributes rest →
      Attributes (outer :: (inner :: (words ++ [inner']) ++ outer' :: rest))

theorem Attributes.clause {tokens : List Token} (h : Attributes tokens) : Clause tokens := by
  induction h with
  | nil => exact .nil
  | @cons outer inner inner' outer' words rest houter hinner hwords hinner' houter' _ ih =>
    have hgroup := Clause.wrap (Token.opening?_square houter) (Token.closing?_square houter')
      (.wrap (Token.opening?_square hinner) (Token.closing?_square hinner') hwords)
    simpa using hgroup.append ih

/-- Attributes are skipped, each in one step. -/
theorem Attributes.skip_eq {code : Code} {pairing : Pairing}
    (hpaired : Pairing.ofCode code = .ok pairing) {tokens : List Token} (h : Attributes tokens)
    {a stop fuel : Nat} (hholds : code.Holds a tokens) (hstop : a + tokens.length ≤ stop)
    (hfuel : tokens.length ≤ fuel) (hnext : code.mark (a + tokens.length) "[" = false) :
    skipAttributes code pairing stop fuel a = a + tokens.length := by
  induction h generalizing a fuel with
  | nil =>
    cases fuel with
    | zero => rfl
    | succ fuel =>
      have hnone : code.mark a "[" = false := hnext
      rw [skipAttributes, hnone, Bool.and_false, Bool.false_and, if_neg Bool.false_ne_true]
      rfl
  | @cons outer inner inner' outer' words rest houter hinner hwords hinner' houter' _ ih =>
    have hgroup : Balanced (inner :: (words ++ [inner'])) :=
      .wrap (Token.opening?_square hinner) (Token.closing?_square hinner') hwords
    have hpartner := (Pairing.partners_of_holds hpaired (Token.opening?_square houter)
      (Token.closing?_square houter') hgroup hholds).1
    have hmark {i : Nat} {t : Token} (ht : code[i]? = some t) (hmark : t.isMark "[" = true) :
        code.mark i "[" = true := by
      rw [Code.mark, Code.has, ht]
      exact hmark
    have hlength : (outer :: (inner :: (words ++ [inner']) ++ outer' :: rest)).length =
        (inner :: (words ++ [inner'])).length + 2 + rest.length := by
      simp only [List.length_cons, List.length_append]
      omega
    rw [hlength] at hstop hfuel hnext ⊢
    obtain ⟨fuel, rfl⟩ : ∃ n, fuel = n + 1 := ⟨fuel - 1, by omega⟩
    rw [skipAttributes, hmark hholds.head houter, hmark hholds.tail.head hinner, hpartner,
      if_pos (by simp only [Bool.and_true, decide_eq_true_eq]; omega)]
    dsimp only
    have hrest := hholds.tail.right.tail
    rw [show a + 1 + (inner :: (words ++ [inner'])).length + 1 =
      a + (inner :: (words ++ [inner'])).length + 1 + 1 by omega] at hrest
    rw [ih hrest (by omega) (by omega)]
    · omega
    · rw [← hnext]
      congr 1
      omega

end Declaration

end Quell
