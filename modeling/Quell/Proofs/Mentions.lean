import Mathlib.Data.List.Forall2
import Mathlib.Data.List.Sort
import Mathlib.Tactic.Common
import Quell.Proofs.Discard
import Quell.Proofs.Nesting

/-!
# Proofs/Mentions — a parameter is unused exactly if nothing mentions it

A walk keeps the parentheses of its region that are open (`parensBefore`), so it looks for a
declaration of a name where the name stands (`placeAt`).  As long as it finds none for one name, no
declaration hides that name (`Scope.At`), whatever else is declared, and its uses are the tokens of
the walked area that mention it (`mem_walk_iff`).
-/

namespace Quell

/-! ## Open parentheses -/

/-- The parentheses of a region that are open before token `i`, innermost first. -/
def Outline.parensBefore (o : Outline) (r : Region) (i : Nat) : List Nat :=
  (List.range i).reverse.filter fun j =>
    r.opening < j && o.code.mark j "(" && (o.pairing.partner j).any (i ≤ ·)

namespace Outline

variable {o : Outline} {r q : Region} {i j : Nat}

/-- The open parentheses before a token are those whose partners do not stand before it. -/
theorem mem_parensBefore_iff : j ∈ o.parensBefore r i ↔ j < i ∧ r.opening < j ∧
    o.code.mark j "(" = true ∧ ∃ closing, o.pairing.partner j = some closing ∧ i ≤ closing := by
  rw [parensBefore, List.mem_filter, List.mem_reverse, List.mem_range, Bool.and_eq_true,
    Bool.and_eq_true, decide_eq_true_iff, Option.any_eq_true, and_assoc]
  simp only [decide_eq_true_iff]

theorem pairwise_parensBefore (o : Outline) (r : Region) (i : Nat) :
    (o.parensBefore r i).Pairwise (· > ·) :=
  (List.pairwise_reverse.mpr List.pairwise_lt_range).filter _

/-- No parentheses are open at the start of a region. -/
theorem parensBefore_opening (o : Outline) (r : Region) :
    o.parensBefore r (r.opening + 1) = [] := by
  refine List.eq_nil_iff_forall_not_mem.mpr fun j hj => ?_
  obtain ⟨hlt, hopening, -⟩ := mem_parensBefore_iff.mp hj
  omega

/-- A token that opens no parentheses leaves those that it does not close. -/
theorem parensBefore_succ (hopen : o.code.mark i "(" = false) :
    o.parensBefore r (i + 1) = (o.parensBefore r i).filter (o.pairing.partner · ≠ some i) := by
  refine (pairwise_parensBefore o r _).eq_of_mem_iff
    ((pairwise_parensBefore o r i).filter _) fun j => ?_
  rw [List.mem_filter, decide_eq_true_iff, mem_parensBefore_iff, mem_parensBefore_iff]
  constructor
  · rintro ⟨hlt, hr, hmark, closing, hpartner, hle⟩
    have hne : j ≠ i := by
      rintro rfl
      rw [hmark] at hopen
      cases hopen
    refine ⟨⟨by omega, hr, hmark, closing, hpartner, by omega⟩, ?_⟩
    rw [hpartner, ne_eq, Option.some.injEq]
    omega
  · rintro ⟨⟨hlt, hr, hmark, closing, hpartner, hle⟩, hne⟩
    rw [hpartner, ne_eq, Option.some.injEq] at hne
    exact ⟨by omega, hr, hmark, closing, hpartner, by omega⟩

namespace Valid

variable (h : o.Valid)

include h

theorem partner_ne (hopen : o.code.mark j "(" = true) (hclose : o.code.mark i ")" = false) :
    o.pairing.partner j ≠ some i := by
  intro hpartner
  obtain ⟨closing, hpartner', -, hmark⟩ := h.exists_closing .round hopen
  rw [hpartner] at hpartner'
  cases hpartner'
  exact Bool.false_ne_true (hclose.symm.trans hmark)

/-- A token that is no parenthesis leaves the open ones as they are. -/
theorem parensBefore_pass (hopen : o.code.mark i "(" = false) (hclose : o.code.mark i ")" = false) :
    o.parensBefore r (i + 1) = o.parensBefore r i := by
  rw [parensBefore_succ hopen]
  refine List.filter_eq_self.mpr fun j hj => decide_eq_true ?_
  exact h.partner_ne (mem_parensBefore_iff.mp hj).2.2.1 hclose

/-- An opening parenthesis is open from then on. -/
theorem parensBefore_open (hr : r.opening < i) (hopen : o.code.mark i "(" = true) :
    o.parensBefore r (i + 1) = i :: o.parensBefore r i := by
  have hbelow : ∀ j ∈ o.parensBefore r i, i > j := fun j hj => (mem_parensBefore_iff.mp hj).1
  refine (pairwise_parensBefore o r _).eq_of_mem_iff
    (List.pairwise_cons.mpr ⟨hbelow, pairwise_parensBefore o r i⟩) fun j => ?_
  rw [List.mem_cons, mem_parensBefore_iff, mem_parensBefore_iff]
  constructor
  · rintro ⟨hj, hrj, hmark, closing, hpartner, hle⟩
    rcases Nat.lt_succ_iff_lt_or_eq.mp hj with hj | hj
    · exact .inr ⟨hj, hrj, hmark, closing, hpartner, by omega⟩
    · exact .inl hj
  · rintro (rfl | ⟨hj, hrj, hmark, closing, hpartner, hle⟩)
    · obtain ⟨closing, hpartner, hlt, -⟩ := h.exists_closing .round hopen
      exact ⟨Nat.lt_succ_self j, hr, hopen, closing, hpartner, hlt⟩
    · have hne := h.partner_ne hmark (Code.mark_eq_false hopen (by decide))
      rw [hpartner, ne_eq, Option.some.injEq] at hne
      exact ⟨by omega, hrj, hmark, closing, hpartner, by omega⟩

/-- Passing over a region leaves the open parentheses: no pair of brackets crosses its braces. -/
theorem parensBefore_closing (hq : q ∈ o.forest.toList) :
    o.parensBefore r (q.closing + 1) = o.parensBefore r q.opening := by
  obtain ⟨-, -, -, -, -, -, hpair, -⟩ := h.nested.spans q hq
  have hbrace := h.mark_opening hq
  have hlt := (h.matched hq).1
  refine (pairwise_parensBefore o r _).eq_of_mem_iff (pairwise_parensBefore o r _) fun j => ?_
  rw [mem_parensBefore_iff, mem_parensBefore_iff]
  constructor
  · rintro ⟨hj, hr, hmark, closing, hpartner, hle⟩
    refine ⟨?_, hr, hmark, closing, hpartner, by omega⟩
    by_contra hinside
    have hne := Code.ne_of_mark hmark hbrace (by decide)
    have hne' := Code.ne_of_mark hmark (h.mark_closing hq) (by decide)
    have := h.partnered.uncrossed _ _ _ _ hpair hpartner (by omega) (by omega)
    omega
  · rintro ⟨hj, hr, hmark, closing, hpartner, hle⟩
    refine ⟨by omega, hr, hmark, closing, hpartner, ?_⟩
    have hne := h.partner_ne hmark (Code.mark_eq_false hbrace (by decide))
    rw [hpartner, ne_eq, Option.some.injEq] at hne
    exact (h.partnered.uncrossed _ _ _ _ hpartner hpair hj (by omega)).2

/-- A closing parenthesis closes the innermost parentheses, if it closes any. -/
theorem parensBefore_close {rest : List Nat} (hparens : o.parensBefore r i = j :: rest)
    {closing : Nat} (hclosing : o.pairing.partner j = some closing)
    (hclose : o.code.mark i ")" = true) :
    o.parensBefore r (i + 1) = if closing = i then rest else j :: rest := by
  obtain ⟨hji, -, -, closing', hclosing', hle⟩ :=
    mem_parensBefore_iff.mp (hparens ▸ List.mem_cons_self : j ∈ o.parensBefore r i)
  rw [hclosing] at hclosing'
  cases hclosing'
  have hrest : ∀ k ∈ rest, o.pairing.partner k ≠ some i := by
    intro k hk hpartner
    have hlt : k < j := (List.pairwise_cons.mp (hparens ▸ pairwise_parensBefore o r i)).1 k hk
    have := h.partnered.uncrossed k i j closing hpartner hclosing hlt hji
    omega
  have hkept : rest.filter (o.pairing.partner · ≠ some i) = rest :=
    List.filter_eq_self.mpr fun k hk => decide_eq_true (hrest k hk)
  rw [parensBefore_succ (Code.mark_eq_false hclose (by decide)), hparens]
  split_ifs with hsame
  · rw [List.filter_cons_of_neg (by simp [hclosing, hsame]), hkept]
  · rw [List.filter_cons_of_pos (by simp [hclosing, hsame]), hkept]

end Valid

/-! ## Mentions -/

/-- Where a name at token `i` of a region would be declared, and from where on: in the innermost
parentheses around it, which may admit no declaration, or in a statement of the region. -/
def placeAt (o : Outline) (r : Region) (i : Nat) : Option Site × Nat :=
  match o.parensBefore r i with
  | [] => (some .statement, r.opening + 1)
  | j :: _ => (Declaration.siteAt? o.code j, j + 1)

/-- The name at token `i` reads as declared there. -/
def redeclares (o : Outline) (i : Nat) : Bool :=
  (o.forest.innermost? i).any fun r =>
    let (site, floor) := o.placeAt r i
    (site.bind (Declaration.declarationAt? o.code o.pairing i floor)).isSome

end Outline

/-- An identifier with the name stands at an index. -/
def Code.Spells (code : Code) (name : String) (i : Nat) : Prop :=
  code.nameAt i = true ∧ code.name i = name

/-- **A mention of a name**: an identifier that is not that of a member. -/
def Code.Mentions (code : Code) (name : String) (i : Nat) : Prop :=
  code.Spells name i ∧ Usage.isMember code i = false

/-- A token in a region and in no function, enum or class body inside. -/
def Region.Covers (o : Outline) (r : Region) (i : Nat) : Prop :=
  r.contains i = true ∧ ∀ q ∈ o.forest.toList, r.Encloses q → q.contains i = true →
    Usage.isClosed q.kind = false

/-- **The walked area of a function**: its body and its handlers, without the function, enum and
class bodies in them. -/
def Outline.Walked (o : Outline) (body : Region) (i : Nat) : Prop :=
  ∃ r, (r = body ∨ r ∈ o.handlersOf body.id) ∧ r.Covers o i

/-- What is covered by a region stands before its closing brace. -/
theorem Region.Covers.lt_closing {o : Outline} {r : Region} {i : Nat} (h : r.Covers o i) :
    i < r.closing :=
  (Region.contains_iff.mp h.1).2

theorem Region.Level.covers {o : Outline} {r : Region} {i : Nat} (h : r.Level o.forest i)
    (hi : i < r.closing) : r.Covers o i := by
  refine ⟨Region.contains_iff.mpr ⟨h.1, hi⟩, fun q hq hrq hqi => ?_⟩
  have := h.2 q hq hqi
  have := hrq.1
  omega

theorem Code.not_mentions {code : Code} {i : Nat} {word name : String}
    (h : code.mark i word = true) : ¬code.Mentions name i := by
  rintro ⟨⟨hname, -⟩, -⟩
  rw [nameAt_eq_false h] at hname
  cases hname

namespace Usage

/-! ## The scope of a walk -/

/-- The entry for the parentheses that open at an index. -/
structure Paren.Opens (o : Outline) (p : Paren) (j : Nat) : Prop where
  opening_eq : p.opening = j
  partner_eq : o.pairing.partner j = some p.closing
  site_eq : p.site = Declaration.siteAt? o.code j

namespace Scope

variable {o : Outline} {names : List String} {name : String} {s : Scope} {r q : Region} {i : Nat}

/-- A name is hidden unless no scope, no parentheses and no statement to come declares it. -/
theorem hides_eq_false_iff : s.hides name = false ↔
    name ∉ s.shadowed ∧ name ∉ s.pending ∧ ∀ p ∈ s.parens, name ∉ p.declared := by
  rw [hides, inParens, Bool.or_eq_false_iff, Bool.or_eq_false_iff]
  simp [and_assoc]

/-- **The scope before token `i` of a region**: the region's open parentheses, and no declaration
that hides the name. -/
structure At (o : Outline) (name : String) (r : Region) (i : Nat) (s : Scope) : Prop where
  stop_eq : s.stop = r.closing
  floor_eq : s.floor = r.opening + 1
  level : r.Level o.forest i
  parens : List.Forall₂ (Paren.Opens o) s.parens (o.parensBefore r i)
  clear : s.hides name = false

namespace At

variable (h : o.Valid)

/-- The first token of a region has the scope that the region starts with. -/
theorem ofRegion (o : Outline) {shadowed : List String} (r : Region) (hclear : name ∉ shadowed) :
    At o name r (r.opening + 1) (Scope.ofRegion r shadowed) where
  stop_eq := rfl
  floor_eq := rfl
  level := r.level_opening o.forest
  parens := by
    rw [o.parensBefore_opening]
    exact .nil
  clear := hides_eq_false_iff.mpr ⟨hclear, List.not_mem_nil, by simp [Scope.ofRegion]⟩

theorem enter (hs : At o name r i s) (q : Region) : At o name q (q.opening + 1) (s.enter q) := by
  obtain ⟨hshadowed, hpending, hparens⟩ := hides_eq_false_iff.mp hs.clear
  refine .ofRegion o q ?_
  simpa [inParens, hshadowed, hpending] using hparens

theorem settle (hs : At o name r i s) : At o name r i { s with pending := [] } := by
  obtain ⟨hshadowed, -, hparens⟩ := hides_eq_false_iff.mp hs.clear
  exact ⟨hs.stop_eq, hs.floor_eq, hs.level, hs.parens,
    hides_eq_false_iff.mpr ⟨hshadowed, List.not_mem_nil, hparens⟩⟩

include h

/-- Passing over a region. -/
theorem leave (hq : q ∈ o.forest.toList) (hs : At o name r q.opening s) :
    At o name r (q.closing + 1) { s with pending := [] } := by
  have hpast : At o name r (q.closing + 1) s :=
    ⟨hs.stop_eq, hs.floor_eq, h.level_closing hq hs.level,
      (h.parensBefore_closing hq).symm ▸ hs.parens, hs.clear⟩
  exact hpast.settle

/-- An opening parenthesis gives the scope of the next token. -/
theorem openParen (hs : At o name r i s) (hopen : o.code.mark i "(" = true) :
    At o name r (i + 1) (s.openParen o i) where
  stop_eq := hs.stop_eq
  floor_eq := hs.floor_eq
  level := h.level_succ hs.level (Code.mark_eq_false hopen (by decide))
  parens := by
    obtain ⟨closing, hpartner, -⟩ := h.exists_closing .round hopen
    rw [h.parensBefore_open hs.level.1 hopen, Scope.openParen, hpartner]
    exact .cons ⟨rfl, hpartner, rfl⟩ hs.parens
  clear := by
    obtain ⟨hshadowed, hpending, hparens⟩ := hides_eq_false_iff.mp hs.clear
    exact hides_eq_false_iff.mpr
      ⟨hshadowed, hpending, List.forall_mem_cons.mpr ⟨List.not_mem_nil, hparens⟩⟩

/-- Closing parentheses hands on what they declare, and nothing else. -/
theorem closeParen (hs : At o name r i s) (hclose : o.code.mark i ")" = true) :
    At o name r (i + 1) (s.closeParen i) := by
  have hlevel := h.level_succ hs.level (Code.mark_eq_false hclose (by decide))
  obtain ⟨hshadowed, hpending, hdeclared⟩ := hides_eq_false_iff.mp hs.clear
  have hparens := hs.parens
  rw [Scope.closeParen]
  rcases hopen : s.parens with _ | ⟨paren, outer⟩
  · rw [hopen, List.forall₂_nil_left_iff] at hparens
    refine ⟨hs.stop_eq, hs.floor_eq, hlevel, ?_, hs.clear⟩
    rw [hopen, Outline.parensBefore_succ (Code.mark_eq_false hclose (by decide)), hparens]
    exact .nil
  rw [hopen] at hparens hdeclared
  obtain ⟨hparen, houter⟩ := List.forall_mem_cons.mp hdeclared
  obtain ⟨j, rest, hj, hrest, hbefore⟩ := List.forall₂_cons_left_iff.mp hparens
  have hstack := h.parensBefore_close hbefore hj.partner_eq hclose
  dsimp only
  by_cases hclosing : paren.closing = i
  · rw [if_neg (not_not_intro hclosing)]
    rw [if_pos hclosing] at hstack
    split
    · exact ⟨hs.stop_eq, hs.floor_eq, hlevel, hstack ▸ hrest,
        hides_eq_false_iff.mpr ⟨hshadowed, hparen, houter⟩⟩
    · exact ⟨hs.stop_eq, hs.floor_eq, hlevel, hstack ▸ hrest,
        hides_eq_false_iff.mpr ⟨hshadowed, hparen, by simp⟩⟩
    · rename_i next outer
      rcases hrest with _ | ⟨hnext, hrest⟩
      obtain ⟨hnext', houter⟩ := List.forall_mem_cons.mp houter
      refine ⟨hs.stop_eq, hs.floor_eq, hlevel, ?_, ?_⟩
      · rw [hstack]
        exact .cons ⟨hnext.opening_eq, hnext.partner_eq, hnext.site_eq⟩ hrest
      · exact hides_eq_false_iff.mpr ⟨hshadowed, hpending,
          List.forall_mem_cons.mpr ⟨by simp [hnext', hparen], houter⟩⟩
    · exact ⟨hs.stop_eq, hs.floor_eq, hlevel, hstack ▸ hrest,
        hides_eq_false_iff.mpr ⟨hshadowed, hpending, by simp⟩⟩
  · rw [if_pos hclosing]
    rw [if_neg hclosing, ← hbefore] at hstack
    exact ⟨hs.stop_eq, hs.floor_eq, hlevel, hstack ▸ hs.parens, hs.clear⟩

/-- A token that opens or closes nothing. -/
theorem pass (hs : At o name r i s) (hbrace : o.code.mark i "\x7b" = false)
    (hopen : o.code.mark i "(" = false) (hclose : o.code.mark i ")" = false) :
    At o name r (i + 1) s :=
  ⟨hs.stop_eq, hs.floor_eq, h.level_succ hs.level hbrace,
    (h.parensBefore_pass hopen hclose).symm ▸ hs.parens, hs.clear⟩

omit h

/-- The declaration of another name. -/
theorem declare (hs : At o name r i s) {other : String} (hother : other ≠ name) :
    At o name r i (s.declare other) := by
  obtain ⟨hshadowed, hpending, hdeclared⟩ := hides_eq_false_iff.mp hs.clear
  have hparens := hs.parens
  rw [Scope.declare]
  rcases hopen : s.parens with _ | ⟨paren, outer⟩ <;> rw [hopen] at hparens hdeclared
  · refine ⟨hs.stop_eq, hs.floor_eq, hs.level, hparens,
      hides_eq_false_iff.mpr ⟨?_, hpending, hdeclared⟩⟩
    simp [hother.symm, hshadowed]
  · obtain ⟨hparen, houter⟩ := List.forall_mem_cons.mp hdeclared
    obtain ⟨j, rest, hj, hrest, hbefore⟩ := List.forall₂_cons_left_iff.mp hparens
    refine ⟨hs.stop_eq, hs.floor_eq, hs.level, ?_, hides_eq_false_iff.mpr
      ⟨hshadowed, hpending, List.forall_mem_cons.mpr ⟨?_, houter⟩⟩⟩
    · rw [hbefore]
      exact .cons ⟨hj.opening_eq, hj.partner_eq, hj.site_eq⟩ hrest
    · simp [hother.symm, hparen]

/-- **A walk looks for a declaration where the name stands.** -/
theorem place_eq (hs : At o name r i s) : s.place = o.placeAt r i := by
  have hparens := hs.parens
  rw [Scope.place, Outline.placeAt]
  rcases hopen : s.parens with _ | ⟨paren, outer⟩
  · rw [hopen, List.forall₂_nil_left_iff] at hparens
    rw [hparens, hs.floor_eq]
  · rw [hopen] at hparens
    obtain ⟨j, rest, hj, -, hbefore⟩ := List.forall₂_cons_left_iff.mp hparens
    rw [hbefore]
    dsimp only
    rw [hj.opening_eq, hj.site_eq]

include h

/-- Where the name is not redeclared, the search finds no declaration of it. -/
theorem declares_eq_false (hs : At o name r i s) (names : List String)
    (hr : r ∈ o.forest.toList) (hi : i < r.closing) (hfresh : o.redeclares i = false) :
    declares o names s i = false := by
  rw [Outline.redeclares, h.innermost?_of_level hr hs.level hi, Option.any_some, ← hs.place_eq]
    at hfresh
  rw [declares]
  dsimp only at hfresh ⊢
  rw [Option.isSome_eq_false_iff, Option.isNone_iff_eq_none] at hfresh
  rw [hfresh]

/-- **One token of a walk** keeps the scope, and is a use of the name exactly if it mentions it. -/
theorem step (hs : At o name r i s) (hr : r ∈ o.forest.toList) (hi : i < r.closing)
    (hbrace : o.code.mark i "\x7b" = false) (hlisted : name ∈ names)
    (hfresh : o.code.Spells name i → o.redeclares i = false) :
    At o name r (i + 1) (step o names s i).1 ∧
      ((step o names s i).2 = true ∧ o.code.name i = name ↔ o.code.Mentions name i) := by
  rw [Usage.step]
  by_cases hopen : o.code.mark i "(" = true
  · rw [if_pos hopen]
    exact ⟨hs.openParen h hopen, iff_of_false (by simp) (Code.not_mentions hopen)⟩
  by_cases hclose : o.code.mark i ")" = true
  · rw [if_neg hopen, if_pos hclose]
    exact ⟨hs.closeParen h hclose, iff_of_false (by simp) (Code.not_mentions hclose)⟩
  rw [if_neg hopen, if_neg hclose]
  have hpass := hs.pass h hbrace (by simpa using hopen) (by simpa using hclose)
  split_ifs with hend hname hdeclares
  · exact ⟨hpass.settle, iff_of_false (by simp)
      (Code.not_mentions (Bool.and_eq_true_iff.mp hend).1)⟩
  · have hother : o.code.name i ≠ name := by
      intro hsame
      have := hs.declares_eq_false h names hr hi
        (hfresh ⟨(Bool.and_eq_true_iff.mp hname).1, hsame⟩)
      rw [this] at hdeclares
      cases hdeclares
    exact ⟨hpass.declare hother, iff_of_false (by simp) fun hmention => hother hmention.1.2⟩
  · refine ⟨hpass, ?_, ?_⟩
    · rintro ⟨huse, hsame⟩
      exact ⟨⟨(Bool.and_eq_true_iff.mp hname).1, hsame⟩,
        (Bool.not_eq_true' _).mp (Bool.and_eq_true_iff.mp huse).2⟩
    · rintro ⟨⟨-, hsame⟩, hmember⟩
      rw [hsame, hs.clear, hmember]
      exact ⟨rfl, rfl⟩
  · refine ⟨hpass, iff_of_false (by simp) fun hmention => hname ?_⟩
    rw [hmention.1.1, hmention.1.2, List.contains_iff_mem.mpr hlisted]
    rfl

end At

end Scope

/-! ## Walks -/

section Walk

variable {o : Outline} (h : o.Valid) {names : List String} {name : String} {r q : Region}
  {i k : Nat}

include h

theorem atOpening?_eq (hq : q ∈ o.forest.toList) : o.forest.atOpening? q.opening = some q := by
  have hmem := Array.mem_toList_iff.mp hq
  rcases hfound : o.forest.atOpening? q.opening with _ | l
  · exact absurd (Array.find?_eq_none.mp hfound q hmem) (by simp)
  · have hl : l ∈ o.forest.toList := Array.mem_toList_iff.mpr (Array.mem_of_find?_eq_some hfound)
    have hsame := Array.find?_some (p := fun r : Region => r.opening == q.opening) hfound
    rw [h.region_ext hl hq (beq_iff_eq.mp hsame)]

/-- A token of a region inside is covered as it is in there, if that region is walked. -/
theorem covers_iff (hr : r ∈ o.forest.toList) (hq : q ∈ o.forest.toList)
    (hlevel : r.Level o.forest q.opening) (hi : q.opening < r.closing) (hk : q.contains k = true) :
    r.Covers o k ↔ isClosed q.kind = false ∧ q.Covers o k := by
  have hrq := h.encloses hr hq hlevel.1 hi
  have hqk := Region.contains_iff.mp hk
  constructor
  · rintro ⟨-, hopen⟩
    refine ⟨hopen q hq hrq hk, hk, fun l hl hql => hopen l hl ?_⟩
    exact ⟨hrq.1.trans hql.1, hql.2.trans hrq.2⟩
  · rintro ⟨hclosed, -, hopen⟩
    refine ⟨Region.contains_iff.mpr ⟨hrq.1.trans hqk.1, hqk.2.trans hrq.2⟩, fun l hl hrl hlk => ?_⟩
    rcases Nat.lt_trichotomy l.opening q.opening with hlt | hsame | hgt
    · -- A region that opens before `q` and is around the token is around `r` too.
      have hlevel' := hlevel.2 l hl (Region.contains_iff.mpr
        ⟨hlt, hqk.1.trans (Region.contains_iff.mp hlk).2⟩)
      have := hrl.1
      omega
    · rw [h.region_ext hl hq hsame]
      exact hclosed
    · exact hopen l hl (h.encloses_of_contains hq hl hk hlk hgt) hlk

/-- What a walk finds in a region inside: nothing, if it passes over it. -/
theorem mem_inside_iff (hr : r ∈ o.forest.toList) (hq : q ∈ o.forest.toList)
    (hlevel : r.Level o.forest q.opening) (hi : q.opening < r.closing) {inside : List Nat}
    (hinside : isClosed q.kind = false → (k ∈ inside ∧ o.code.name k = name ↔
      q.opening + 1 ≤ k ∧ q.Covers o k ∧ o.code.Mentions name k)) :
    k ∈ (if isClosed q.kind then [] else inside) ∧ o.code.name k = name ↔
      q.contains k = true ∧ r.Covers o k ∧ o.code.Mentions name k := by
  have hcovers : q.contains k = true → (r.Covers o k ↔ isClosed q.kind = false ∧ q.Covers o k) :=
    covers_iff h hr hq hlevel hi
  split_ifs with hclosed
  · refine iff_of_false (by simp) ?_
    rintro ⟨hk, hrk, -⟩
    rw [((hcovers hk).mp hrk).1] at hclosed
    cases hclosed
  · have hopen := (Bool.not_eq_true _).mp hclosed
    rw [hinside hopen]
    constructor
    · rintro ⟨-, hqk, hmention⟩
      exact ⟨hqk.1, (hcovers hqk.1).mpr ⟨hopen, hqk⟩, hmention⟩
    · rintro ⟨hk, hrk, hmention⟩
      exact ⟨(Region.contains_iff.mp hk).1, ((hcovers hk).mp hrk).2, hmention⟩

/-- **The uses of a name that is not redeclared are its mentions.** -/
theorem mem_walk_iff {fuel : Nat} {s : Scope} (hs : s.At o name r i) (hr : r ∈ o.forest.toList)
    (hlisted : name ∈ names) (hfuel : r.closing < fuel + i)
    (hfresh : ∀ k, i ≤ k → r.Covers o k → o.code.Spells name k → o.redeclares k = false) :
    k ∈ walk o names fuel s i ∧ o.code.name k = name ↔
      i ≤ k ∧ r.Covers o k ∧ o.code.Mentions name k := by
  induction fuel generalizing s r i with
  | zero =>
    refine iff_of_false (by simp [walk]) ?_
    rintro ⟨hik, hcovers, -⟩
    have := hcovers.lt_closing
    omega
  | succ fuel ih =>
    rw [walk]
    by_cases hstop : r.closing ≤ i
    · rw [if_pos (hs.stop_eq ▸ hstop)]
      refine iff_of_false (by simp) ?_
      rintro ⟨hik, hcovers, -⟩
      have := hcovers.lt_closing
      omega
    rw [if_neg (hs.stop_eq ▸ hstop)]
    have hi : i < r.closing := by omega
    rcases hbrace : o.code.mark i "\x7b" with _ | _
    · have hcovers := hs.level.covers hi
      obtain ⟨hnext, huse⟩ := hs.step h hr hi hbrace hlisted (hfresh i (Nat.le_refl i) hcovers)
      have hrest := ih hnext hr (by omega) fun k hk => hfresh k (by omega)
      rw [if_neg Bool.false_ne_true]
      dsimp only
      rw [List.mem_append, or_and_right, hrest]
      constructor
      · rintro (⟨hk, hname⟩ | ⟨hik, hrest⟩)
        · split_ifs at hk with huses
          · obtain rfl := List.mem_singleton.mp hk
            exact ⟨Nat.le_refl k, hcovers, huse.mp ⟨huses, hname⟩⟩
          · cases hk
        · exact ⟨by omega, hrest⟩
      · rintro ⟨hik, hcovers, hmention⟩
        rcases Nat.eq_or_lt_of_le hik with rfl | hlt
        · obtain ⟨huses, hname⟩ := huse.mpr hmention
          rw [if_pos huses]
          exact .inl ⟨List.mem_singleton_self i, hname⟩
        · exact .inr ⟨hlt, hcovers, hmention⟩
    · obtain ⟨q, hq, rfl⟩ := h.exists_region hbrace
      have hqlt := (h.matched hq).1
      have hrq := h.encloses hr hq hs.level.1 hi
      have hrest := ih (hs.leave h hq) hr (by omega) fun k hk => hfresh k (by omega)
      have hinside := mem_inside_iff h hr hq hs.level hi fun hopen =>
        ih (hs.enter q) hq (by have := hrq.2; omega) fun k hk hqk => hfresh k (by omega)
          ((covers_iff h hr hq hs.level hi hqk.1).mpr ⟨hopen, hqk⟩)
      rw [if_pos rfl, atOpening?_eq h hq]
      dsimp only
      rw [List.mem_append, or_and_right, hinside, hrest]
      constructor
      · rintro (⟨hk, hrest⟩ | ⟨hle, hrest⟩)
        · exact ⟨Nat.le_of_lt (Region.contains_iff.mp hk).1, hrest⟩
        · exact ⟨by omega, hrest⟩
      · rintro ⟨hle, hcovers, hmention⟩
        have hne : k ≠ q.opening := by
          rintro rfl
          exact Code.not_mentions (h.mark_opening hq) hmention
        have hne' : k ≠ q.closing := by
          rintro rfl
          exact Code.not_mentions (h.mark_closing hq) hmention
        by_cases hlt : k < q.closing
        · exact .inl ⟨Region.contains_iff.mpr ⟨by omega, hlt⟩, hcovers, hmention⟩
        · exact .inr ⟨by omega, hcovers, hmention⟩

/-- **What is found in a region is what mentions the name there.** -/
theorem mem_inRegion_iff (hr : r ∈ o.forest.toList) (hlisted : name ∈ names)
    (hfresh : ∀ k, r.Covers o k → o.code.Spells name k → o.redeclares k = false) :
    k ∈ inRegion o names r ∧ o.code.name k = name ↔ r.Covers o k ∧ o.code.Mentions name k := by
  have hbound : r.closing < o.code.size := (h.matched hr).lt_length
  have hstart : Scope.At o name r (r.opening + 1) (.ofRegion r []) := .ofRegion o r List.not_mem_nil
  rw [inRegion, mem_walk_iff h hstart hr hlisted (by omega) fun k _ => hfresh k]
  exact and_iff_right_of_imp fun hcovers => (Region.contains_iff.mp hcovers.1.1).1

omit h in
/-- **What is found in a trailer is what mentions the name there.** -/
theorem mem_inTrailer_iff {head : FunctionHead} {body : Region} (hlisted : name ∈ names) :
    k ∈ inTrailer o names head body ∧ o.code.name k = name ↔
      (head.params.closing < k ∧ k < body.opening) ∧ o.code.Mentions name k := by
  rw [inTrailer, List.mem_filter, Slice.mem_indices, and_assoc]
  refine and_congr_right fun _ => ?_
  rw [Bool.and_eq_true, Bool.and_eq_true, Bool.not_eq_true', List.contains_iff_mem]
  constructor
  · rintro ⟨⟨⟨hname, -⟩, hmember⟩, hsame⟩
    exact ⟨⟨hname, hsame⟩, hmember⟩
  · rintro ⟨⟨hname, rfl⟩, hmember⟩
    exact ⟨⟨⟨hname, hlisted⟩, hmember⟩, rfl⟩

/-- **A function uses a name that is not redeclared exactly if something mentions it**, between
parameter list and body or in the walked area. -/
theorem mem_uses_iff {body : Region} (hbody : body ∈ o.forest.toList) {head : FunctionHead}
    {params : List Parameter} (hlisted : name ∈ params.filterMap (·.name))
    (hfresh : ∀ k, o.Walked body k → o.code.Spells name k → o.redeclares k = false) :
    k ∈ uses o body head params ∧ o.code.name k = name ↔
      (head.params.closing < k ∧ k < body.opening ∨ o.Walked body k) ∧ o.code.Mentions name k := by
  have hregion : ∀ r, r = body ∨ r ∈ o.handlersOf body.id →
      (k ∈ inRegion o (params.filterMap (·.name)) r ∧ o.code.name k = name ↔
        r.Covers o k ∧ o.code.Mentions name k) := by
    intro r hr
    have hmem : r ∈ o.forest.toList := by
      rcases hr with rfl | hr
      · exact hbody
      · exact List.mem_of_mem_filter hr
    exact mem_inRegion_iff h hmem hlisted fun k hk => hfresh k ⟨r, hr, hk⟩
  rw [uses, List.mem_append, List.mem_append, List.mem_flatMap, or_and_right, or_and_right,
    mem_inTrailer_iff hlisted, hregion body (.inl rfl), or_and_right, or_assoc]
  refine or_congr_right ?_
  constructor
  · rintro (⟨hcovers, hmention⟩ | ⟨⟨r, hr, hk⟩, hname⟩)
    · exact ⟨⟨body, .inl rfl, hcovers⟩, hmention⟩
    · obtain ⟨hcovers, hmention⟩ := (hregion r (.inr hr)).mp ⟨hk, hname⟩
      exact ⟨⟨r, .inr hr, hcovers⟩, hmention⟩
  · rintro ⟨⟨r, rfl | hr, hcovers⟩, hmention⟩
    · exact .inl ⟨hcovers, hmention⟩
    · obtain ⟨hk, hname⟩ := (hregion r (.inr hr)).mpr ⟨hcovers, hmention⟩
      exact .inr ⟨⟨r, hr, hk⟩, hname⟩

end Walk

end Usage

/-! ## Verdicts -/

/-- A named parameter that may be reported is a candidate. -/
theorem UnusedParams.exists_candidate {o : Outline} {head : FunctionHead} {p : Parameter}
    (hp : p ∈ o.parameters head) (hcandidate : p.isCandidate = true) {name : String}
    (hname : p.name = some name) : ∃ token, (name, token) ∈ candidates (o.parameters head) := by
  obtain ⟨piece, -, rfl⟩ := List.mem_map.mp hp
  obtain ⟨token, htoken, -⟩ := Option.map_eq_some_iff.mp hname
  rw [Parameter.isCandidate, Bool.and_eq_true, Bool.not_eq_true'] at hcandidate
  exact ⟨token, mem_candidates_iff.mpr ⟨_, hp, hname, htoken, hcandidate.2⟩⟩

/-- What is reported for a function are its candidates that it does not use. -/
theorem Outline.Valid.reported_iff {o : Outline} (h : o.Valid) {body : Region}
    {head : FunctionHead} (hf : (body, head) ∈ o.functions) {p : Parameter}
    (hp : p ∈ o.parameters head) (hcandidate : p.isCandidate = true) {name : String}
    (hname : p.name = some name) :
    (∃ u ∈ o.unusedParams, u.region = body.id ∧ name ∈ u.names) ↔
      ∀ k ∈ Usage.uses o body head (o.parameters head), o.code.name k ≠ name := by
  obtain ⟨hbody, hkind⟩ := Outline.mem_functions_iff.mp hf
  constructor
  · rintro ⟨u, hu, hregion, hlisted⟩
    obtain ⟨f, hf', hu⟩ := List.mem_filterMap.mp hu
    obtain ⟨hbody', hkind'⟩ := Outline.mem_functions_iff.mp hf'
    -- Regions are known by their numbers, so this is the same function.
    have hsame := h.get?_id hbody'
    rw [← Plan.region_eq hu, hregion, h.get?_id hbody] at hsame
    cases hsame
    rw [hkind] at hkind'
    cases hkind'
    obtain ⟨q, hq, rfl⟩ := List.mem_map.mp hlisted
    exact (UnusedParams.not_used hu hq).2
  · intro hunused
    obtain ⟨token, htoken⟩ := UnusedParams.exists_candidate hp hcandidate hname
    obtain ⟨u, hu, q, hq, hsame⟩ := UnusedParams.exists_ofFunction? htoken hunused
    exact ⟨u, List.mem_filterMap.mpr ⟨_, hf, hu⟩, Plan.region_eq hu,
      List.mem_map.mpr ⟨q, hq, hsame⟩⟩

/-- **A parameter whose name is not redeclared is reported as unused exactly if nothing mentions
it**, neither between parameter list and body nor in the walked area. -/
theorem unused_iff_unmentioned {source : Bytes} {o : Outline} (h : Outline.ofSource source = .ok o)
    {body : Region} {head : FunctionHead} (hf : (body, head) ∈ o.functions) {p : Parameter}
    (hp : p ∈ o.parameters head) (hcandidate : p.isCandidate = true) {name : String}
    (hname : p.name = some name)
    (hfresh : ∀ i, o.Walked body i → o.code.Spells name i → o.redeclares i = false) :
    (∃ u ∈ o.unusedParams, u.region = body.id ∧ name ∈ u.names) ↔
      ¬∃ i, (head.params.closing < i ∧ i < body.opening ∨ o.Walked body i) ∧
        o.code.Mentions name i := by
  have hvalid := (Outline.ofSource_eq_ok_iff_valid.mp h).2
  have hbody := (Outline.mem_functions_iff.mp hf).1
  have hlisted : name ∈ (o.parameters head).filterMap (·.name) :=
    List.mem_filterMap.mpr ⟨p, hp, hname⟩
  rw [hvalid.reported_iff hf hp hcandidate hname, not_exists]
  refine forall_congr' fun i => ?_
  rw [← Usage.mem_uses_iff hvalid hbody hlisted hfresh, not_and]

/-- Next to other declarations, in a loop and a lambda, a member is no mention of the parameter `a`,
and neither is what stands in a method of a local class. -/
theorem unused_iff_unmentioned_member :
    ∃ o body head p, Outline.ofSource
        (utf8 ("void f(int a, int b) \x7bfor (int c : v) \x7bx.a = " ++
      "[&](int d) \x7breturn g(b, d);\x7d(1);\x7d struct S \x7bint m() \x7breturn a;\x7d\x7d;\x7d"))
        = .ok o ∧
      (body, head) ∈ o.functions ∧ p ∈ o.parameters head ∧ p.name = some "a" ∧
      (∃ u ∈ o.unusedParams, u.region = body.id ∧ "a" ∈ u.names) ∧
      ¬∃ i, (head.params.closing < i ∧ i < body.opening ∨ o.Walked body i) ∧
        o.code.Mentions "a" i := by
  obtain ⟨o, h, hvalues⟩ := Outline.exists_ofSource
    (utf8 ("void f(int a, int b) \x7bfor (int c : v) \x7bx.a = " ++
      "[&](int d) \x7breturn g(b, d);\x7d(1);\x7d struct S \x7bint m() \x7breturn a;\x7d\x7d;\x7d"))
    (fun o =>
      (o.functions.any fun f => f.1.id == 0 &&
          (o.parameters f.2).any fun p => p.isCandidate && p.name == some "a",
        o.unusedParams.any fun u => u.region == 0 && u.names.contains "a",
        (List.range o.code.size).all fun i => o.code.name i != "a" || !o.redeclares i))
    (a := (true, true, true)) (by decide +kernel)
  simp only [Prod.mk.injEq, List.any_eq_true, List.all_eq_true, Bool.and_eq_true, beq_iff_eq,
    List.contains_iff_mem, List.mem_range] at hvalues
  obtain ⟨⟨⟨body, head⟩, hf, hid, p, hp, hcandidate, hname⟩, ⟨u, hu, hregion, hlisted⟩, hfresh⟩ :=
    hvalues
  have hreported : ∃ u ∈ o.unusedParams, u.region = body.id ∧ "a" ∈ u.names :=
    ⟨u, hu, hregion.trans hid.symm, hlisted⟩
  refine ⟨o, body, head, p, h, hf, hp, hname, hreported,
    (unused_iff_unmentioned h hf hp hcandidate hname fun i _ hspells => ?_).mp hreported⟩
  obtain ⟨t, ht, -⟩ := (Option.any_eq_true _ _).mp hspells.1
  have := hfresh i (Array.getElem?_eq_some_iff.mp ht).1
  simpa [hspells.2] using this

end Quell
