import Mathlib.Tactic.Common
import Quell.Proofs.Wedge.Usage

/-!
# Proofs/Wedge/Lace — several wedges in one code

    code  ⋯ a b c d e f ⋯      lace  ⋯ a b │ u │ c d e │ v │ f ⋯

Stretches go into a code from the last place to the first, so each goes where it was meant for the
code as it was.  A wedge `Fits` an outline if its place is sheltered there (`Outline.Shelters`) and
its stretch is one that a run may put in; it fits still after a stretch has gone in further on
(`Wedge.Fits.move`).  Hence what holds for one wedge holds for a whole row of them
(`exists_laced`).
-/

namespace Quell

open Declaration Region

/-! ## Statements that head plain blocks -/

namespace Region

/-- The words hold a `=` or a `(` outside template brackets: they head no class. -/
def stopsClass : (angle : Int) → List Token → Bool
  | _, [] => false
  | angle, t :: rest =>
    if t.isMark "<" then stopsClass (angle + 1) rest
    else if t.isMark ">" then stopsClass (angle - 1) rest
    else (angle == 0 && (t.isMark "=" || t.isMark "(")) || stopsClass angle rest

/-- The words head a plain block, whatever follows them. -/
def headsPlain : List Token → Bool
  | [] => false
  | first :: rest =>
    !first.isKeywordIn ["inline", "namespace", "extern"] && stopsClass 0 (first :: rest)

/-- Words that stop the search for a class stop it whatever follows. -/
theorem classTail?_of_stopsClass {angle : Int} {tail : Option (List Token)} {words : List Token}
    (h : stopsClass angle words = true) (rest : List Token) :
    classTail? angle tail (words ++ rest) = none := by
  induction words generalizing angle tail with
  | nil => cases h
  | cons t words ih =>
    rw [stopsClass] at h
    rw [List.cons_append, classTail?]
    split_ifs at h ⊢ with hless hgreater hstop hclass
    · exact ih h
    · exact ih h
    · rfl
    all_goals
      refine ih ((Bool.or_eq_true_iff.mp h).resolve_left fun hstops => hstop ?_)
      simpa using hstops

/-- A block headed by plain words is plain whatever follows. -/
theorem blockKind_of_headsPlain {words : List Token} (h : headsPlain words = true)
    (rest : List Token) : blockKind (words ++ rest) = .plain := by
  obtain _ | ⟨first, words⟩ := words
  · cases h
  rw [headsPlain, Bool.and_eq_true, Bool.not_eq_true'] at h
  have hclass : classOrPlain (first :: words ++ rest) = .plain := by
    rw [classOrPlain, classTail?_of_stopsClass h.2]
  have hword : ∀ word ∈ ["inline", "namespace", "extern"], first.isKeyword word = false := by
    intro word hword
    rw [← Bool.not_eq_true]
    intro hfirst
    obtain ⟨hkind, hspells⟩ := Bool.and_eq_true_iff.mp hfirst
    exact Bool.false_ne_true (h.1.symm.trans
      (Bool.and_eq_true_iff.mpr ⟨hkind, List.any_eq_true.mpr ⟨word, hword, hspells⟩⟩))
  rw [List.cons_append] at hclass ⊢
  cases hrest : words ++ rest with
  | nil =>
    rw [hrest] at hclass
    rw [blockKind, hword _ (by decide), hclass, if_neg Bool.false_ne_true]
  | cons second others =>
    rw [hrest] at hclass
    rw [blockKind, hword _ (by decide), hword _ (by decide), hword _ (by decide), hclass]
    rfl

end Region

/-! ## Sheltered places -/

/-- **A place where a stretch changes no structure**: it does not follow `operator` closely, and it
lies neither in a statement that may head a block nor in a parameter list. -/
@[mk_iff]
structure Outline.Shelters (o : Outline) (place : Nat) : Prop where
  operator : ∀ k < place, place ≤ k + 4 → o.code.has k (·.isKeyword "operator") = false
  heads : ∀ brace < o.code.size, o.code.mark brace "\x7b" = true →
    place ≤ statementStart o.code o.pairing brace brace ∨ brace < place ∨
      headsPlain (o.code.slice ⟨statementStart o.code o.pairing brace brace, place⟩) = true
  lists : ∀ f ∈ o.functions, place ≤ f.2.params.opening ∨ f.2.params.closing < place

instance (o : Outline) (place : Nat) : Decidable (o.Shelters place) :=
  decidable_of_iff _ (o.shelters_iff place).symm

namespace Wedge

/-- **The wedge may go into an outline.**  Its place is sheltered, after an opening brace or before
a closing one.  Its stretch closes what it opens, ends a statement, declares nothing, and holds
discards or no parentheses. -/
structure Fits (w : Wedge) (o : Outline) : Prop where
  shelters : o.Shelters w.place
  place_lt : w.place < o.code.size
  balanced : Balanced w.chunk
  braces_eq : Forest.braces w.chunk = []
  last : ∃ t, w.chunk.getLast? = some t ∧ t.isMark ";" = true
  plain : ∀ t ∈ w.chunk, t.isKeyword "operator" = false
  mute : Mute w.chunk
  text : (o.code.markBefore w.place "\x7b" = true ∧ ∃ (style : DiscardStyle) (words : List Bytes),
      (∀ v ∈ words, Kind.ofWord v = .identifier) ∧
      w.chunk.map Token.shape = words.flatMap style.shapes) ∨
    (o.code.mark w.place "\x7d" = true ∧ (∃ t, w.chunk.head? = some t ∧ t.kind = .keyword) ∧
      ∀ t ∈ w.chunk, t.isMark "(" = false ∧ t.isMark ")" = false)

/-- The tokens with the stretch put in. -/
def insert (w : Wedge) (tokens : List Token) : List Token :=
  tokens.take w.place ++ w.chunk ++ tokens.drop w.place

/-- **The tokens with all stretches put in**, at places of the tokens as they were. -/
def lace (wedges : List Wedge) (tokens : List Token) : List Token := wedges.foldr insert tokens

/-- Balanced tokens stay so with a balanced stretch put in. -/
theorem balanced_insert {w : Wedge} (hw : Balanced w.chunk) {tokens : List Token}
    (h : Balanced tokens) : Balanced (w.insert tokens) := by
  rw [Balanced, ← List.take_append_drop w.place tokens, settle_append] at h
  rw [insert, Balanced, settle_append, settle_append, Option.bind_assoc, ← h]
  simp only [hw.settle_eq, Option.bind_some]

end Wedge

/-- **The outline is that of its code.** -/
structure Outline.OfCode (o : Outline) : Prop where
  paired : Pairing.ofCode o.code = .ok o.pairing
  forest_eq : o.forest = Forest.ofCode o.code o.pairing

theorem Outline.Valid.ofCode {o : Outline} (h : o.Valid) : o.OfCode := ⟨h.paired, h.forest_eq⟩

/-- Balanced tokens have an outline. -/
theorem Outline.exists_ofCode {tokens : List Token} (h : Balanced tokens) :
    ∃ o : Outline, o.OfCode ∧ o.code.toList = tokens := by
  obtain ⟨pairing, hpaired⟩ := (@Pairing.exists_ofCode_iff tokens.toArray).mpr h
  exact ⟨⟨[], tokens, _, pairing, Forest.ofCode _ pairing⟩, ⟨hpaired, rfl⟩, rfl⟩

namespace Wedge

variable {v w : Wedge} {o o' : Outline} {place : Nat}

/-- **A wedge that fits goes in.** -/
theorem Fits.enters (h : w.Fits o) (ho : o.OfCode) (ho' : o'.OfCode)
    (hinsert : o'.code.toList = w.insert o.code.toList) : w.Enters o o' where
  cleaves :=
    { paired := ho.paired
      paired' := ho'.paired
      toList_eq := hinsert
      place_lt := h.place_lt
      balanced := h.balanced
      braces_eq := h.braces_eq
      last := h.last
      spot := h.text.imp And.left fun hfoot => ⟨hfoot.1, hfoot.2.1⟩
      operator := h.shelters.operator
      plain := h.plain
      mute := h.mute }
  forest_eq := ho.forest_eq
  forest_eq' := ho'.forest_eq
  spares := by
    intro brace hbrace
    obtain ⟨t, ht, -⟩ := (Option.any_eq_true _ _).mp hbrace
    rcases h.shelters.heads brace (Array.getElem?_eq_some_iff.mp ht).1 hbrace with
      hafter | hbefore | hplain
    · exact .inl (.inl hafter)
    · exact .inl (.inr hbefore)
    · exact .inr (blockKind_of_headsPlain hplain)
  lists := h.shelters.lists
  text := h.text.imp id fun hfoot => hfoot.2.2

/-- **A place stays sheltered** when a stretch goes in further on. -/
theorem Enters.shelters_move (h : v.Enters o o') (hlt : place < v.place) (hs : o.Shelters place) :
    o'.Shelters place where
  operator k hk hnear := by
    rw [← move_of_lt (w := v) (show k < v.place by omega), h.cleaves.has_move]
    exact hs.operator k hk hnear
  heads brace' _ hbrace' := by
    rcases v.move_or_chunk brace' with ⟨brace, rfl⟩ | ⟨k, hk, rfl⟩
    · rw [h.cleaves.mark_move] at hbrace'
      obtain ⟨t, ht, -⟩ := (Option.any_eq_true _ _).mp hbrace'
      have hcloser := Code.mark_eq_false hbrace' (show utf8 "\x7b" ≠ utf8 "\x7d" by decide)
      rw [h.cleaves.statementStart_move hcloser (Nat.le_refl brace) (Nat.le_refl _)]
      rcases hs.heads brace (Array.getElem?_eq_some_iff.mp ht).1 hbrace' with
        hafter | hbefore | hplain
      · exact .inl (Nat.le_trans hafter (v.le_move _))
      · exact .inr (.inl (by rwa [move_of_lt (by omega)]))
      · have hclear : v.Clear (statementStart o.code o.pairing brace brace) place := .inr hlt
        have hwords := h.cleaves.slice_move hclear
        rw [move_of_lt hlt] at hwords
        exact .inr (.inr (by rw [hwords, hplain]))
    · rw [Usage.mark_opener_chunk h hk] at hbrace'
      cases hbrace'
  lists f' hf' := by
    rw [h.functions_move] at hf'
    obtain ⟨f, hf, rfl⟩ := List.mem_map.mp hf'
    rcases hs.lists f hf with hafter | hbefore
    · exact .inl (Nat.le_trans hafter (v.le_move _))
    · refine .inr ?_
      show v.move f.2.params.closing < place
      rwa [move_of_lt (by omega)]

/-- **A wedge fits still** when a stretch goes in further on. -/
theorem Fits.move (hw : w.Fits o) (h : v.Enters o o') (hlt : w.place < v.place) : w.Fits o' := by
  have hplace := move_of_lt hlt
  have hsize := h.cleaves.size_eq
  refine { hw with
    shelters := h.shelters_move hlt hw.shelters
    place_lt := by have := hw.place_lt; omega
    text := hw.text.imp (fun hhead => ⟨?_, hhead.2⟩) fun hfoot => ⟨?_, hfoot.2⟩ }
  · obtain ⟨hpos, hmark⟩ := Code.hasBefore_iff.mp hhead.1
    refine Code.hasBefore_iff.mpr ⟨hpos, ?_⟩
    rw [← move_of_lt (w := v) (show w.place - 1 < v.place by omega)]
    exact (h.cleaves.has_move _ _).trans hmark
  · rw [← hplace, h.cleaves.mark_move]
    exact hfoot.1

/-! ## Rows of wedges -/

/-- **Wedges that fit may all go in.**  A wedge that goes further to the front fits still, and what
is unused in the end was unused before. -/
theorem exists_laced {wedges : List Wedge} (ho : o.OfCode)
    (hordered : wedges.Pairwise (·.place < ·.place)) (hfits : ∀ w ∈ wedges, w.Fits o) :
    ∃ o' : Outline, o'.OfCode ∧ o'.code.toList = lace wedges o.code.toList ∧
      (∀ w : Wedge, (∀ v ∈ wedges, w.place < v.place) → w.Fits o → w.Fits o') ∧
      ∀ id name, o'.Neglects id name → o.Neglects id name := by
  induction wedges with
  | nil => exact ⟨o, ho, rfl, fun _ _ hw => hw, fun _ _ hneglects => hneglects⟩
  | cons v wedges ih =>
    obtain ⟨hbefore, hordered⟩ := List.pairwise_cons.mp hordered
    obtain ⟨m, hm, hlaced, hkeeps, hneglects⟩ := ih hordered fun w hw => hfits w (.tail v hw)
    have hv := hkeeps v hbefore (hfits v (.head _))
    have hbalanced := balanced_insert hv.balanced (Pairing.exists_ofCode_iff.mp ⟨_, hm.paired⟩)
    obtain ⟨o', ho', hcode⟩ := Outline.exists_ofCode hbalanced
    have henters := hv.enters hm ho' hcode
    refine ⟨o', ho', ?_, fun w hw hwo => ?_, fun id name hunused =>
      hneglects id name (henters.neglects_of_move hunused)⟩
    · rw [hcode, hlaced]
      rfl
    · exact (hkeeps w (fun u hu => hw u (.tail v hu)) hwo).move henters (hw v (.head _))

end Wedge

end Quell
