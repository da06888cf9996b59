import Mathlib.Tactic.Common
import Quell.Proofs.Usage
import Quell.Proofs.Weave

/-!
# Proofs/Discard — a discard uses the name it is about

A discard declares nothing and leaves the scope of a walk as it is (`walks_discards`).  So the names
of discards at the head of a body count as used there (`exists_mem_inRegion`), and what a run
discards in a body the next one does not (`Woven.not_discards`).
-/

namespace Quell

open Lexer

/-! ## Code from an index on -/

/-- The code has tokens of the given classes and bytes from an index on. -/
def Code.ReadsAt (code : Code) (i : Nat) (shapes : List (Kind × Bytes)) : Prop :=
  ∀ k s, shapes[k]? = some s → ∃ start, code[i + k]? = some ⟨s.1, s.2, start⟩

namespace Code.ReadsAt

variable {code : Code} {i : Nat} {u w : List (Kind × Bytes)}

theorem left (h : code.ReadsAt i (u ++ w)) : code.ReadsAt i u := by
  intro k s hs
  refine h k s ?_
  rw [List.getElem?_append_left (List.getElem?_eq_some_iff.mp hs).1]
  exact hs

theorem right (h : code.ReadsAt i (u ++ w)) : code.ReadsAt (i + u.length) w := by
  intro k s hs
  rw [Nat.add_assoc]
  refine h (u.length + k) s ?_
  rw [List.getElem?_append_right (by omega), Nat.add_sub_cancel_left]
  exact hs

end Code.ReadsAt

namespace Declaration

/-! ## Names that are not declared -/

variable {code : Code} {pairing : Pairing} {name floor : Nat} {site : Site}

/-- A name is not declared right after a parenthesis: no type ends in one. -/
theorem declarationAt?_eq_none_of_paren {start : Nat}
    (h : code[name]? = some ⟨.punctuation, [41], start⟩) :
    declarationAt? code pairing (name + 1) floor site = none := by
  have hhas : ∀ test, code.has name test = test ⟨.punctuation, [41], start⟩ := fun test => by
    rw [Code.has, h, Option.any_some]
  have htype : typeStart? code floor (name + 1) = some (name + 1) := by
    have hangle : code.mark name ">" = false := by rw [Code.mark, hhas]; rfl
    have hword : code.has name (fun t => t.isName || isSpecifier t
        || t.isMarkIn ["::", "*", "&", "..."]) = false := by rw [hhas]; rfl
    rw [typeStart?, typeStartFrom?, if_neg (Nat.lt_irrefl 0), hangle, hword,
      if_neg Bool.false_ne_true, if_neg Bool.false_ne_true, if_pos rfl, ite_self]
  have hrun : code.runStart floor (·.isMarkIn ["*", "&"]) (name + 1) = name + 1 := by
    rw [Code.runStart, hhas, show (Token.isMarkIn ⟨.punctuation, [41], start⟩ ["*", "&"]) = false
      from rfl, Bool.and_false, if_neg Bool.false_ne_true]
  have hempty : isType code ⟨name + 1, name + 1⟩ = false := by
    rw [isType, Slice.isEmpty, decide_eq_true (Nat.le_refl _)]
    rfl
  have hlater : laterDeclarator? code pairing floor (name + 1) = none := by
    rw [laterDeclarator?, hrun, Code.markBefore, Code.hasBefore, hhas]
    exact if_pos (Bool.or_true _)
  rw [declarationAt?, htype]
  dsimp only
  rw [hempty, hlater]
  split_ifs <;> first | rfl | contradiction

end Declaration

/-- Brackets around one token that is none. -/
theorem partner_of_lone {o : Outline} (hpaired : Pairing.ofCode o.code = .ok o.pairing) {i : Nat}
    {opener t closer : Token} (hopener : o.code[i]? = some opener) (ht : o.code[i + 1]? = some t)
    (hcloser : o.code[i + 2]? = some closer) {shape : Bracket}
    (hopen : opener.opening? = some shape) (hclose : closer.closing? = some shape)
    (hneutral : Balanced [t]) :
    o.pairing.partner i = some (i + 2) := by
  rw [← Array.getElem?_toList] at hopener ht hcloser
  refine (Pairing.partner_eq_some_iff hpaired).mpr
    (.inl ⟨by omega, opener, closer, shape, hopener, hcloser, hopen, hclose, ?_⟩)
  have hempty : ∀ k, between o.code.toList k k = [] := fun k => by
    rw [between, List.drop_take, Nat.sub_self, List.take_zero]
  rw [between_split (Nat.le_refl _) (Nat.lt_succ_self _) ht, hempty, hempty, List.nil_append]
  exact hneutral

namespace Usage

/-! ## Walking over tokens -/

variable {o : Outline} {names : List String} {s s' s'' : Scope} {i : Nat}

/-- **The walk takes in `n` tokens from index `i` on**: their uses, and the scope after them. -/
def Walks (o : Outline) (names : List String) (s : Scope) (i n : Nat) (uses : List Nat)
    (s' : Scope) : Prop :=
  ∀ fuel, walk o names (fuel + n) s i = uses ++ walk o names fuel s' (i + n)

namespace Walks

theorem nil (s : Scope) (i : Nat) : Walks o names s i 0 [] s := fun _ => rfl

/-- The search walks over two stretches one after the other. -/
theorem trans {n m : Nat} {u v : List Nat} (h : Walks o names s i n u s')
    (h' : Walks o names s' (i + n) m v s'') : Walks o names s i (n + m) (u ++ v) s'' := by
  intro fuel
  rw [Nat.add_comm n m, ← Nat.add_assoc, h, h', List.append_assoc, Nat.add_assoc i,
    Nat.add_comm n m]

/-- One token that opens no region. -/
theorem of_step (hstop : i < s.stop) (hbrace : o.code.mark i "\x7b" = false) {used : Bool}
    (hstep : step o names s i = (s', used)) :
    Walks o names s i 1 (if used then [i] else []) s' := by
  intro fuel
  rw [walk, if_neg (Nat.not_le.mpr hstop), hbrace, if_neg Bool.false_ne_true, hstep]

/-- A step that finds nothing walks over one token. -/
theorem of_idle (hstop : i < s.stop) (hbrace : o.code.mark i "\x7b" = false)
    (hstep : step o names s i = (s', false)) : Walks o names s i 1 [] s' :=
  of_step hstop hbrace hstep

end Walks

variable {start : Nat} {w : Bytes}

/-- A token that says nothing about scopes or names. -/
theorem Walks.other {t : Token} (ht : o.code[i]? = some t) (hstop : i < s.stop)
    (hbrace : t.isMark "\x7b" = false) (hopen : t.isMark "(" = false)
    (hclose : t.isMark ")" = false) (hend : t.isMark ";" = false) (hname : t.isName = false) :
    Walks o names s i 1 [] s := by
  have hhas : ∀ test, o.code.has i test = test t := fun test => by
    rw [Code.has, ht, Option.any_some]
  refine .of_idle hstop (by rw [Code.mark, hhas, hbrace]) ?_
  rw [step, Code.mark, Code.mark, Code.mark, Code.nameAt, hhas, hhas, hhas, hhas, hopen, hclose,
    hend, hname]
  rfl

/-- Parentheses open. -/
theorem Walks.paren (ht : o.code[i]? = some ⟨.punctuation, [40], start⟩) (hstop : i < s.stop) :
    Walks o names s i 1 [] (s.openParen o i) := by
  refine .of_idle hstop (by rw [Code.mark, Code.has, ht]; rfl) ?_
  rw [step, Code.mark, Code.has, ht]
  rfl

/-- The only open parentheses close. -/
theorem Walks.closing {j : Nat} (hparens : s.parens = [])
    (hsite : Declaration.siteAt? o.code j = none) (hpartner : o.pairing.partner j = some i)
    (ht : o.code[i]? = some ⟨.punctuation, [41], start⟩) (hstop : i < s.stop) :
    Walks o names (s.openParen o j) i 1 [] s := by
  refine .of_idle hstop (by rw [Code.mark, Code.has, ht]; rfl) ?_
  have hclose : (s.openParen o j).closeParen i = s := by
    rw [Scope.openParen, hparens, hsite, hpartner, Scope.closeParen]
    dsimp only [Option.getD_some]
    rw [if_neg (not_not_intro rfl), ← hparens]
  rw [step, Code.mark, Code.mark, Code.has, Code.has, ht, hclose]
  rfl

/-- A statement ends. -/
theorem Walks.end (hparens : s.parens = []) (hpending : s.pending = [])
    (ht : o.code[i]? = some ⟨.punctuation, [59], start⟩) (hstop : i < s.stop) :
    Walks o names s i 1 [] s := by
  refine .of_idle hstop (by rw [Code.mark, Code.has, ht]; rfl) ?_
  have hempty : s.parens.isEmpty = true := by rw [hparens]; rfl
  rw [step, Code.mark, Code.mark, Code.mark, Code.has, Code.has, Code.has, ht, hempty]
  change ({ s with pending := [] }, false) = (s, false)
  rw [← hpending]

/-- A name that is not declared is a use, unless something hides it or it is that of a member. -/
theorem Walks.name (ht : o.code[i]? = some ⟨.identifier, w, start⟩) (hstop : i < s.stop)
    (hdeclares : declares o names s i = false) (hmember : isMember o.code i = false) :
    Walks o names s i 1
      (if names.contains (Utf8.legible w) && !s.hides (Utf8.legible w) then [i] else []) s := by
  have hname : o.code.name i = Utf8.legible w := by rw [Code.name, ht]; rfl
  refine .of_step hstop (by rw [Code.mark, Code.has, ht]; rfl) ?_
  rw [step, Code.mark, Code.mark, Code.mark, Code.nameAt, Code.has, Code.has, Code.has, Code.has,
    ht, hdeclares, hmember, hname]
  change (if (true && names.contains (Utf8.legible w)) = true then _ else (s, false)) = _
  rw [Bool.true_and, Bool.not_false, Bool.and_true]
  rcases names.contains (Utf8.legible w) with _ | _ <;> rfl

/-! ## Walking over discards -/

/-- Parentheses after a mark are a grouping, unless they belong to a lambda. -/
theorem siteAt?_of_mark {t : Token} (ht : o.code[i]? = some t) (hkind : t.kind = .punctuation)
    (hbracket : t.isMark "]" = false) : Declaration.siteAt? o.code (i + 1) = none := by
  have hkeyword : ∀ words, t.isKeywordIn words = false := fun words => by
    rw [Token.isKeywordIn, hkind]
    rfl
  have hcatch : t.isKeyword "catch" = false := by
    rw [Token.isKeyword, hkind]
    rfl
  rw [Declaration.siteAt?, Code.hasBefore, Code.hasBefore, Code.has, Code.has, ht,
    Option.any_some, Option.any_some, hkeyword, hcatch, hbracket]
  rfl

variable {style : DiscardStyle} {words : List Bytes}

variable (names) in
/-- **A discard leaves the scope as it is**, where a statement may start, and uses its name unless
that is hidden. -/
theorem walks_statement (hpaired : Pairing.ofCode o.code = .ok o.pairing)
    (h : o.code.ReadsAt (i + 1) (style.shapes w)) (hw : Kind.ofWord w = .identifier)
    (hbefore : o.code.has i Declaration.endsStatement = true) (hparens : s.parens = [])
    (hpending : s.pending = []) (hstop : i + 1 + (style.shapes w).length ≤ s.stop) :
    ∃ uses, Walks o names s (i + 1) (style.shapes w).length uses s ∧
      (Utf8.legible w ∈ names → s.shadowed.contains (Utf8.legible w) = false →
        ∃ k ∈ uses, o.code.name k = Utf8.legible w) := by
  rw [Code.has, Option.any_eq_true] at hbefore
  obtain ⟨t, ht, hends⟩ := hbefore
  have hkind : t.kind = .punctuation := beq_iff_eq.mp (Bool.and_eq_true_iff.mp hends).1
  have hbracket : t.isMark "]" = false := by
    obtain ⟨word, hword, hmark⟩ := Token.isMarkIn_iff.mp hends
    have hne : utf8 word ≠ utf8 "]" :=
      (by decide : ∀ word ∈ [";", "\x7b", "\x7d"], utf8 word ≠ utf8 "]") word hword
    exact Token.isMark_eq_false hmark hne
  have hhides : ∀ name, s.hides name = s.shadowed.contains name := fun name => by
    rw [Scope.hides, Scope.inParens, hparens, hpending]
    simp
  rcases style with _ | _
  · change i + 1 + 5 ≤ s.stop at hstop
    obtain ⟨_, hopen⟩ := h 0 _ rfl
    obtain ⟨_, hvoid⟩ := h 1 _ rfl
    obtain ⟨_, hclose⟩ := h 2 _ rfl
    obtain ⟨_, hname⟩ := h 3 _ rfl
    obtain ⟨_, hend⟩ := h 4 _ rfl
    rw [hw] at hname
    have hpartner := partner_of_lone hpaired hopen hvoid hclose rfl rfl (.neutral rfl rfl)
    have hdeclares : declares o names s (i + 1 + 3) = false := by
      rw [declares, Scope.place, hparens]
      dsimp only
      rw [Option.bind_some, Declaration.declarationAt?_eq_none_of_paren hclose]
    have hmember : isMember o.code (i + 1 + 3) = false := by
      rw [isMember, Code.hasBefore, Code.has, hclose]
      rfl
    have hfirst : Walks o names s (i + 1) 1 [] (s.openParen o (i + 1)) := .paren hopen (by omega)
    have hwalks := (((hfirst.trans
      (.other hvoid (show _ < s.stop by omega) rfl rfl rfl rfl rfl)).trans
      (.closing hparens (siteAt?_of_mark ht hkind hbracket) hpartner hclose (by omega))).trans
      (.name hname (by omega) hdeclares hmember)).trans (.end hparens hpending hend (by omega))
    refine ⟨_, hwalks, fun hlisted hclear => ⟨i + 1 + 3, ?_, by rw [Code.name, hname]; rfl⟩⟩
    rw [List.contains_iff_mem.mpr hlisted, hhides, hclear]
    simp
  · change i + 1 + 8 ≤ s.stop at hstop
    obtain ⟨_, hcast⟩ := h 0 _ rfl
    obtain ⟨_, hless⟩ := h 1 _ rfl
    obtain ⟨_, hvoid⟩ := h 2 _ rfl
    obtain ⟨_, hgreater⟩ := h 3 _ rfl
    obtain ⟨_, hopen⟩ := h 4 _ rfl
    obtain ⟨_, hname⟩ := h 5 _ rfl
    obtain ⟨_, hclose⟩ := h 6 _ rfl
    obtain ⟨_, hend⟩ := h 7 _ rfl
    rw [hw] at hname
    have hsite : Declaration.siteAt? o.code (i + 1 + 4) = none := siteAt?_of_mark hgreater rfl rfl
    have hpartner := partner_of_lone hpaired hopen hname hclose rfl rfl (.neutral rfl rfl)
    have hdeclares : declares o names (s.openParen o (i + 1 + 4)) (i + 1 + 5) = false := by
      rw [declares, Scope.place, Scope.openParen, hsite]
      rfl
    have hhides' : (s.openParen o (i + 1 + 4)).hides (Utf8.legible w) =
        s.shadowed.contains (Utf8.legible w) := hhides _
    have hmember : isMember o.code (i + 1 + 5) = false := by
      rw [isMember, Code.hasBefore, Code.has, hopen]
      rfl
    have hfirst : Walks o names s (i + 1) 1 [] s := .other hcast (by omega) rfl rfl rfl rfl rfl
    have hwalks := ((((((hfirst.trans
      (.other hless (by omega) rfl rfl rfl rfl rfl)).trans
      (.other hvoid (by omega) rfl rfl rfl rfl rfl)).trans
      (.other hgreater (by omega) rfl rfl rfl rfl rfl)).trans
      (.paren hopen (by omega))).trans
      (.name hname (show _ < s.stop by omega) hdeclares hmember)).trans
      (.closing hparens hsite hpartner hclose (by omega))).trans
      (.end hparens hpending hend (by omega))
    refine ⟨_, hwalks, fun hlisted hclear => ⟨i + 1 + 5, ?_, by rw [Code.name, hname]; rfl⟩⟩
    rw [List.contains_iff_mem.mpr hlisted, hhides', hclear]
    simp

/-- Every discard ends a statement. -/
theorem endsStatement_statement (h : o.code.ReadsAt (i + 1) (style.shapes w)) :
    o.code.has (i + (style.shapes w).length) Declaration.endsStatement = true := by
  rcases style with _ | _
  · obtain ⟨_, hend⟩ := h 4 _ rfl
    rw [Code.has, show i + (DiscardStyle.voidCast.shapes w).length = i + 1 + 4 from rfl, hend]
    rfl
  · obtain ⟨_, hend⟩ := h 7 _ rfl
    rw [Code.has, show i + (DiscardStyle.staticCast.shapes w).length = i + 1 + 7 from rfl, hend]
    rfl

variable (names) in
/-- **So do discards in a row.** -/
theorem walks_discards (hpaired : Pairing.ofCode o.code = .ok o.pairing)
    (h : o.code.ReadsAt (i + 1) (words.flatMap style.shapes))
    (hwords : ∀ w ∈ words, Kind.ofWord w = .identifier)
    (hbefore : o.code.has i Declaration.endsStatement = true) (hparens : s.parens = [])
    (hpending : s.pending = []) (hstop : i + 1 + (words.flatMap style.shapes).length ≤ s.stop) :
    ∃ uses, Walks o names s (i + 1) (words.flatMap style.shapes).length uses s ∧
      ∀ w ∈ words, Utf8.legible w ∈ names → s.shadowed.contains (Utf8.legible w) = false →
        ∃ k ∈ uses, o.code.name k = Utf8.legible w := by
  induction words generalizing i with
  | nil => exact ⟨[], .nil s _, by simp⟩
  | cons w words ih =>
    rw [List.flatMap_cons] at h hstop ⊢
    rw [List.length_append] at hstop ⊢
    obtain ⟨first, hfirst, hname⟩ := walks_statement names hpaired h.left (hwords w (by simp))
      hbefore hparens hpending (by omega)
    have hshift : i + 1 + (style.shapes w).length = i + (style.shapes w).length + 1 := by omega
    obtain ⟨rest, hrest, hnames⟩ := ih (hshift ▸ h.right) (fun v hv => hwords v (by simp [hv]))
      (endsStatement_statement h.left) (by omega)
    refine ⟨first ++ rest, hfirst.trans (hshift ▸ hrest), fun v hv hlisted hclear => ?_⟩
    rcases List.mem_cons.mp hv with rfl | hv
    · obtain ⟨k, hk, hspelled⟩ := hname hlisted hclear
      exact ⟨k, List.mem_append_left _ hk, hspelled⟩
    · obtain ⟨k, hk, hspelled⟩ := hnames v hv hlisted hclear
      exact ⟨k, List.mem_append_right _ hk, hspelled⟩

/-- **The discards at the head of a region use their names.** -/
theorem exists_mem_inRegion (hvalid : o.Valid) {r : Region} (hr : r ∈ o.forest.toList)
    (h : o.code.ReadsAt (r.opening + 1) (words.flatMap style.shapes))
    (hwords : ∀ w ∈ words, Kind.ofWord w = .identifier) (hw : w ∈ words)
    (hlisted : Utf8.legible w ∈ names) :
    ∃ k ∈ inRegion o names r, o.code.name k = Utf8.legible w := by
  obtain ⟨opener, closer, hopener, hcloser, hopen, hclose, ⟨hlt, -⟩, -⟩ := hvalid.braces hr
  have hbefore : o.code.has r.opening Declaration.endsStatement = true := by
    rw [Code.has, hopener, eq_of_opening hopen]
    rfl
  -- The region does not end among the discards: they have no brace.
  have hstop : r.opening + 1 + (words.flatMap style.shapes).length ≤ r.closing := by
    by_contra hinside
    obtain ⟨j, hj⟩ := Nat.exists_eq_add_of_lt hlt
    have hshape := List.getElem?_eq_getElem (l := words.flatMap style.shapes) (i := j) (by omega)
    obtain ⟨start, htoken⟩ := h j _ hshape
    rw [show r.opening + 1 + j = r.closing by omega, hcloser] at htoken
    have hbrace : Forest.brace? closer = some false := by
      rw [Forest.brace?, Token.opening?_eq_none hclose, hclose]
      rfl
    have hbraces := (balanced_flatMap_shapes style words).2
    rw [Forest.braces, List.filterMap_eq_nil_iff] at hbraces
    have hnone := hbraces _ (List.mem_map_of_mem (List.mem_of_getElem? hshape))
    cases htoken
    exact absurd (hnone.symm.trans hbrace) (by simp)
  have hfuel : (words.flatMap style.shapes).length ≤ o.code.size + 1 := by
    have := (Array.getElem?_eq_some_iff.mp hcloser).1
    omega
  obtain ⟨uses, hwalks, hnames⟩ := walks_discards (s := .ofRegion r []) names hvalid.paired h hwords
    hbefore rfl rfl hstop
  obtain ⟨k, hk, hspelled⟩ := hnames w hw hlisted rfl
  refine ⟨k, ?_, hspelled⟩
  rw [inRegion, ← Nat.sub_add_cancel hfuel, hwalks]
  exact List.mem_append_left _ hk

end Usage

/-! ## Where a text stands in the result -/

theorem takeWhile_append_of_false {α : Type} {p : α → Bool} {t : α} (ht : p t = false)
    (u w : List α) : (u ++ t :: w).takeWhile p = u.takeWhile p ∧
      (u ++ t :: w).dropWhile p = u.dropWhile p ++ t :: w := by
  induction u with
  | nil => simp [ht]
  | cons a u ih =>
    rcases ha : p a with _ | _
    · simp [ha]
    · simpa [ha] using ih

/-- The code of the result around a text that goes right after the token `t`. -/
theorem weave_around {pre post : List Token} {t : Token} {before after : List Edit} {e : Edit}
    (hpre : ∀ k ∈ pre, k.start < e.offset) (ht : t.start < e.offset)
    (hpost : ∀ k ∈ post, e.offset ≤ k.start) (hbefore : ∀ d ∈ before, d.offset ≤ t.start) :
    weave (pre ++ t :: post) (before ++ e :: after) =
      weave pre before ++ (reads [t] ++ (codeOf e.text ++ weave post after)) := by
  induction before generalizing pre with
  | nil =>
    have hfront : ∀ k ∈ pre ++ [t], k.start < e.offset :=
      List.forall_mem_append.mpr ⟨hpre, List.forall_mem_singleton.mpr ht⟩
    obtain ⟨htake, hdrop⟩ := takeWhile_append_of_bounds hfront hpost
    rw [List.append_assoc, List.singleton_append] at htake hdrop
    rw [List.nil_append, weave.eq_2, htake, hdrop, weave.eq_1, reads_append, List.append_assoc,
      List.append_assoc]
  | cons d before ih =>
    have hd : decide (t.start < d.offset) = false :=
      decide_eq_false (Nat.not_lt.mpr (hbefore d (by simp)))
    obtain ⟨htake, hdrop⟩ := takeWhile_append_of_false (p := (·.start < d.offset)) hd pre post
    rw [List.cons_append, weave, htake, hdrop, weave,
      ih (fun k hk => hpre k ((List.dropWhile_sublist _).subset hk))
        (fun k hk => hbefore k (by simp [hk]))]
    simp only [List.append_assoc]

namespace Outline.Valid

variable {o : Outline}

/-- The tokens around a code token. -/
theorem split (h : o.Valid) {i : Nat} {t : Token} (ht : o.code[i]? = some t) :
    ∃ pre post, o.tokens = pre ++ t :: post ∧ (Code.ofTokens pre).size = i ∧
      o.code.toList = (Code.ofTokens pre).toList ++ t :: (Code.ofTokens post).toList ∧
      (∀ k ∈ pre, k.start < t.stop) ∧ ∀ k ∈ post, t.stop ≤ k.start := by
  obtain ⟨hi, hcut⟩ : i ≤ o.code.toList.length ∧
      o.code.toList = o.code.toList.take i ++ t :: o.code.toList.drop (i + 1) := by
    rw [← Array.getElem?_toList] at ht
    obtain ⟨hi, rfl⟩ := List.getElem?_eq_some_iff.mp ht
    rw [List.getElem_cons_drop, List.take_append_drop]
    exact ⟨Nat.le_of_lt hi, rfl⟩
  obtain ⟨front, back, htokens, hfront, hback⟩ :=
    List.filter_eq_append_iff.mp (h.toList_code.symm.trans hcut)
  obtain ⟨trivia, post, rfl, htrivia, -, hpost⟩ := List.filter_eq_cons_iff.mp hback
  rw [← List.append_assoc] at htokens
  have hpre : (Code.ofTokens (front ++ trivia)).toList = o.code.toList.take i := by
    rw [← hfront, Code.ofTokens, List.filter_append, List.filter_eq_nil_iff.mpr htrivia,
      List.append_nil]
  have hsorted := h.pairwise
  rw [htokens, List.pairwise_append, List.pairwise_cons] at hsorted
  refine ⟨front ++ trivia, post, htokens, ?_, ?_, fun k hk => ?_, hsorted.2.1.1⟩
  · rw [← Array.length_toList, hpre, List.length_take, Nat.min_eq_left hi]
  · rw [hpre, Code.ofTokens, hpost]
    exact hcut
  · have := hsorted.2.2 k hk t (by simp)
    have := (h.bounds (h.mem_tokens ht)).1
    have := (h.bounds (t := k) (by rw [htokens]; exact List.mem_append_left _ hk)).1
    omega

/-- **The number of a region is that of the opening braces before it.** -/
theorem id_eq_count_iff (h : o.Valid) {u w : List Token} {t : Token}
    (hcode : o.code.toList = u ++ t :: w) (ht : t.opening? = some .curly) {r : Region}
    (hr : r ∈ o.forest.toList) :
    r.id = (Forest.braces u).count true ↔ r.opening = u.length := by
  obtain ⟨q, hq, hopening⟩ := Forest.getElem?_regions o.pairing hcode ht
  rw [← h.forest_eq] at hq
  constructor
  · intro hid
    have hget := h.get?_id hr
    rw [Forest.get?, hid, hq] at hget
    cases hget
    exact hopening
  · intro hsame
    have hqmem : q ∈ o.forest.toList := Array.mem_toList_iff.mpr (Array.mem_of_getElem? hq)
    obtain rfl := h.region_ext hr hqmem (hsame.trans hopening.symm)
    exact h.numbered.id_eq _ _ hq

end Outline.Valid

/-- **What goes after the brace of a region is there in the result.** -/
theorem Woven.readsAt {settings : Settings} {t : Transformed} {o o' : Outline}
    (h : Woven settings t o o') {e : Edit} (he : e ∈ t.edits) {r r' : Region}
    (hr : r ∈ o.forest.toList) (hr' : r' ∈ o'.forest.toList) (hoffset : e.offset = r.bodyOffset)
    (hid : r'.id = r.id) : o'.code.ReadsAt (r'.opening + 1) (codeOf e.text) := by
  obtain ⟨opener, -, hopener, -, hopen, -, -, -, hbody, -⟩ := h.before.braces hr
  obtain ⟨pre, post, htokens, hsize, hcode, hpre, hpost⟩ := h.before.split hopener
  obtain ⟨before, after, hedits⟩ := List.append_of_mem he
  have hplace : e.offset = opener.stop := by rw [hoffset, hbody]
  have hwide : opener.stop = opener.start + 1 := by rw [eq_of_opening hopen]; rfl
  have hbefore : ∀ d ∈ before, d.offset ≤ opener.start := by
    intro d hd
    have hordered := h.ordered
    rw [hedits, List.pairwise_append] at hordered
    have := hordered.2.2 d hd e (by simp)
    omega
  -- The code of the result is cut at the same brace.
  have hreads := h.reads_eq
  rw [hedits, htokens, weave_around (by rwa [hplace]) (by omega) (by rwa [hplace]) hbefore,
    ← toList_ofTokens, ← h.after.code_eq] at hreads
  obtain ⟨u, rest, hcode', hu, hrest⟩ := List.map_eq_append_iff.mp hreads
  rw [show reads [opener] = [(.punctuation, [123])] by rw [eq_of_opening hopen]; rfl,
    List.singleton_append] at hrest
  obtain ⟨brace, w, rfl, hbrace, hw⟩ := List.map_eq_cons_iff.mp hrest
  have hopen' : brace.opening? = some .curly := by
    rcases brace with ⟨kind, text, start⟩
    cases hbrace
    rfl
  have hcount : (Forest.braces u).count true = r.id := by
    rw [(h.before.id_eq_count_iff hcode hopen hr).mpr hsize.symm, ← braces_plant, hu,
      braces_weave fun d hd => h.inert d (by simp [hedits, hd]), ← toList_ofTokens, braces_plant]
  have hopening := (h.after.id_eq_count_iff hcode' hopen' hr').mp (hid.trans hcount.symm)
  intro k s hs
  have hshape : (w.map Token.shape)[k]? = some s := by
    rw [hw, List.getElem?_append_left (List.getElem?_eq_some_iff.mp hs).1]
    exact hs
  rw [List.getElem?_map] at hshape
  obtain ⟨token, htoken, rfl⟩ := Option.map_eq_some_iff.mp hshape
  refine ⟨token.start, ?_⟩
  rw [← Array.getElem?_toList, hcode', hopening, List.getElem?_append_right (by omega),
    show u.length + 1 + k - u.length = k + 1 by omega, List.getElem?_cons_succ, htoken]
  rfl

/-! ## Discards and findings -/

/-- The edit discards a parameter at the head of a region. -/
def Edit.Discards (e : Edit) (r : Region) (name : String) : Prop :=
  e.category = .unusedParamDiscard ∧ e.offset = r.bodyOffset ∧ name ∈ e.subjects

namespace UnusedParams

/-- A candidate is a named parameter that is not marked as unused. -/
theorem mem_candidates_iff {params : List Parameter} {p : String × Nat} :
    p ∈ candidates params ↔ ∃ q ∈ params, q.name = some p.1 ∧ q.token = some p.2 ∧
      q.maybeUnused = false := by
  rw [candidates, List.mem_filterMap]
  refine exists_congr fun q => and_congr_right fun _ => ?_
  constructor
  · intro h
    split at h
    · rename_i name token hname htoken
      split_ifs at h with hcandidate
      cases h
      rw [Parameter.isCandidate, Bool.and_eq_true, Bool.not_eq_true'] at hcandidate
      exact ⟨hname, htoken, hcandidate.2⟩
    · cases h
  · rintro ⟨hname, htoken, hunused⟩
    rw [hname, htoken]
    dsimp only
    rw [Parameter.isCandidate, hname, hunused]
    rfl

variable {o : Outline} {body : Region} {head : FunctionHead} {p : String × Nat}

/-- An unused parameter is a candidate whose name is not used. -/
theorem not_used {u : UnusedParams} (h : ofFunction? o body head = some u) (hp : p ∈ u.params) :
    p ∈ candidates (o.parameters head) ∧
      ∀ k ∈ Usage.uses o body head (o.parameters head), o.code.name k ≠ p.1 := by
  rw [ofFunction?] at h
  split at h
  · cases h
  cases h
  rcases mem_of_mem_foldl_add hp with hp | hp
  · cases hp
  obtain ⟨hcandidate, hunused⟩ := List.mem_filter.mp hp
  refine ⟨hcandidate, fun k hk hname => ?_⟩
  rw [Bool.not_eq_true', ← Bool.not_eq_true, List.contains_iff_mem] at hunused
  exact hunused (Usage.mem_usedNames_iff.mpr ⟨k, hk, hname⟩)

/-- Adding up keeps every name. -/
theorem exists_mem_foldl_add {found listed : List (String × Nat)} (hp : p ∈ listed ∨ p ∈ found) :
    ∃ q ∈ found.foldl add listed, q.1 = p.1 := by
  induction found generalizing listed p with
  | nil => exact ⟨p, hp.resolve_right List.not_mem_nil, rfl⟩
  | cons q found ih =>
    have hkeeps : ∀ {r}, r ∈ listed → r ∈ add listed q := by
      intro r hr
      rw [add]
      split_ifs
      · exact hr
      · exact List.mem_append_left _ hr
    rw [List.foldl_cons]
    rcases hp with hp | hp
    · exact ih (.inl (hkeeps hp))
    rcases List.mem_cons.mp hp with rfl | hp
    · rcases hlisted : listed.any (·.1 == p.1) with _ | _
      · refine ih (.inl ?_)
        rw [add, hlisted, if_neg Bool.false_ne_true]
        exact List.mem_append_right _ (List.mem_singleton_self p)
      · obtain ⟨r, hr, hname⟩ := List.any_eq_true.mp hlisted
        rw [← beq_iff_eq.mp hname]
        exact ih (.inl (hkeeps hr))
    · exact ih (.inr hp)

/-- A candidate whose name is not used is reported. -/
theorem exists_ofFunction? (hp : p ∈ candidates (o.parameters head))
    (hunused : ∀ k ∈ Usage.uses o body head (o.parameters head), o.code.name k ≠ p.1) :
    ∃ u, ofFunction? o body head = some u ∧ ∃ q ∈ u.params, q.1 = p.1 := by
  have hmem : p ∈ (candidates (o.parameters head)).filter fun p =>
      !(Usage.usedNames o body head (o.parameters head)).contains p.1 := by
    refine List.mem_filter.mpr ⟨hp, ?_⟩
    rw [Bool.not_eq_true', ← Bool.not_eq_true, List.contains_iff_mem]
    intro hused
    obtain ⟨k, hk, hname⟩ := Usage.mem_usedNames_iff.mp hused
    exact hunused k hk hname
  obtain ⟨q, hq, hname⟩ := @exists_mem_foldl_add p _ [] (.inr hmem)
  rw [ofFunction?]
  split
  · rename_i hnil
    rw [hnil] at hq
    cases hq
  · exact ⟨_, rfl, q, hq, hname⟩

end UnusedParams

namespace Plan

variable {o : Outline} {settings : Settings} {e : Edit} {r : Region} {name : String}

theorem category_ne_of_mem_switchEdits (he : e ∈ switchEdits o settings) :
    e.category ≠ .unusedParamDiscard := by
  obtain ⟨m, -, hm⟩ := List.mem_filterMap.mp he
  obtain ⟨r, -, rfl⟩ := Option.map_eq_some_iff.mp hm
  dsimp only
  rw [labels]
  intro hcategory
  split at hcategory <;> cases hcategory

/-- **A discard belongs to the function whose body it heads**, and is about a parameter of that
function. -/
theorem exists_unused (h : o.Valid) (he : Planned o settings e) (hr : r ∈ o.forest.toList)
    (hdiscards : e.Discards r name) :
    ∃ head u p, UnusedParams.ofFunction? o r head = some u ∧ p ∈ u.params ∧ p.1 = name ∧
      e.text = discardText o settings r
        ((u.params.map (word o)).map settings.params.style.statement) := by
  obtain ⟨hcategory, hplace, hsubject⟩ := hdiscards
  have he := he.mem.resolve_right fun he => category_ne_of_mem_switchEdits he hcategory
  obtain ⟨f, hf, hfe⟩ := mem_discardEdits he
  obtain ⟨u, hu, hoffset, htext, hsubjects⟩ := discardAt?_eq_some h hf hfe
  obtain rfl : r = f.1 := h.region_ext_of_bodyOffset hr (Outline.mem_functions_iff.mp hf).1
    (hplace.symm.trans hoffset)
  rw [hsubjects, UnusedParams.names] at hsubject
  obtain ⟨p, hp, hname⟩ := List.mem_map.mp hsubject
  exact ⟨f.2, u, p, hu, hp, hname, htext⟩

end Plan

/-- **What a run discards in a body is used there in the result.** -/
theorem Woven.not_discards {settings : Settings} {t : Transformed} {o o' : Outline}
    (h : Woven settings t o o') {e e' : Edit} (he : e ∈ t.edits)
    (he' : Plan.Planned o' settings e') {r r' : Region} (hr : r ∈ o.forest.toList)
    (hr' : r' ∈ o'.forest.toList) (hid : r'.id = r.id) {name : String}
    (hdiscards : e.Discards r name) : ¬e'.Discards r' name := by
  intro hdiscards'
  obtain ⟨head, u, p, hu, hp, rfl, htext⟩ :=
    Plan.exists_unused h.before ((h.planned e).mp he) hr hdiscards
  obtain ⟨head', u', p', hu', hp', hname, -⟩ := Plan.exists_unused h.after he' hr' hdiscards'
  obtain ⟨hcandidate, hunused⟩ := UnusedParams.not_used hu' hp'
  obtain ⟨q, hq, hlisted, -⟩ := UnusedParams.mem_candidates_iff.mp hcandidate
  have hlisted : p'.1 ∈ (o'.parameters head').filterMap (·.name) :=
    List.mem_filterMap.mpr ⟨q, hq, hlisted⟩
  have hreads := h.readsAt he hr hr' hdiscards.2.1 hid
  rw [htext, codeOf_chunk (Plan.chunk_discard h.before hu _)] at hreads
  have hwords : ∀ w ∈ u.params.map (Plan.word o), Kind.ofWord w = .identifier := by
    intro w hw
    obtain ⟨q, hq, rfl⟩ := List.mem_map.mp hw
    exact (Plan.word_spec h.before hu hq).2.1
  have hspelled := (Plan.word_spec h.before hu hp).2.2
  rw [hname, ← hspelled] at hlisted
  obtain ⟨k, hk, hkname⟩ := Usage.exists_mem_inRegion h.after hr' hreads hwords
    (List.mem_map_of_mem hp) hlisted
  refine hunused k ?_ (by rw [hkname, hspelled, hname])
  exact List.mem_append_left _ (List.mem_append_right _ hk)

end Quell
