import Mathlib.Tactic.Common
import Quell.Proofs.Dyck
import Quell.Proofs.Layout

/-!
# Proofs/Nesting — the regions of a file form a forest

While a forest grows, its pending regions are those whose braces are still open, innermost first
(`Growing`).  So the parent of a region is the last one to open around it, and the regions of a
finished outline are `Nested`: one per opening brace, apart from each other or one inside the other,
with parents, children and ancestors as the braces say.

A token index is *level* with a region if no region further inside is around it.  A walk that passes
over inner regions keeps level, and the innermost region of a level token is the region itself
(`innermost?_eq_some_iff`).
-/

namespace Quell

/-! ## How regions lie -/

namespace Region

/-- The braces of `q` stand strictly inside those of `r`. -/
def Encloses (r q : Region) : Prop := r.opening < q.opening ∧ q.closing < r.closing

/-- One of the two regions ends before the other starts. -/
def Apart (r q : Region) : Prop := r.closing < q.opening ∨ q.closing < r.opening

/-- **The region spans a pair of braces**: they are partners, and its byte offsets are theirs. -/
def Spans (code : Code) (pairing : Pairing) (r : Region) : Prop :=
  ∃ opener closer, code[r.opening]? = some opener ∧ opener.isMark "\x7b" = true ∧
    code[r.closing]? = some closer ∧ closer.isMark "\x7d" = true ∧
    pairing.partner r.opening = some r.closing ∧ r.start = opener.start ∧
    r.stop = closer.start + 1

/-- **The parent is the last region to open around this one**; without a parent there is none. -/
def Parented (regions : Array Region) (r : Region) : Prop :=
  match r.parent with
  | none => ∀ q ∈ regions, ¬q.Encloses r
  | some p => ∃ q, regions[p]? = some q ∧ q.Encloses r ∧
      ∀ q' ∈ regions, q'.Encloses r → q'.opening ≤ q.opening

/-- A region that opens later is nobody's parent so far. -/
theorem Parented.push {regions : Array Region} {r new : Region} (h : r.Parented regions)
    (hlater : r.opening ≤ new.opening) : r.Parented (regions.push new) := by
  have hnew : ∀ q ∈ regions.push new, q.Encloses r → q ∈ regions := by
    intro q hq hencloses
    rcases Array.mem_push.mp hq with hq | rfl
    · exact hq
    · exact absurd hencloses.1 (by omega)
  rw [Parented] at h ⊢
  cases hparent : r.parent with
  | none =>
    rw [hparent] at h
    exact fun q hq hencloses => h q (hnew q hq hencloses) hencloses
  | some p =>
    rw [hparent] at h
    obtain ⟨q, hq, hencloses, hlast⟩ := h
    refine ⟨q, ?_, hencloses, fun q' hq' hencloses' => hlast q' (hnew q' hq' hencloses') hencloses'⟩
    rw [Array.getElem?_push_lt (Array.getElem?_eq_some_iff.mp hq).1]
    exact congrArg some (Array.getElem?_eq_some_iff.mp hq).2

end Region

namespace Forest

/-! ## Regions still open -/

/-- Regions are numbered in the order of their braces. -/
theorem Numbered.opening_lt_iff {code : Code} {pairing : Pairing} {i : Nat} {regions : Array Region}
    (h : Numbered code pairing i regions) {a b : Nat} {q r : Region} (hq : regions[a]? = some q)
    (hr : regions[b]? = some r) : q.opening < r.opening ↔ a < b := by
  have key : ∀ {a b : Nat} {q r : Region}, regions[a]? = some q → regions[b]? = some r → a < b →
      q.opening < r.opening := by
    intro a b q r hq hr hab
    obtain ⟨ha, rfl⟩ := Array.getElem?_eq_some_iff.mp hq
    obtain ⟨hb, rfl⟩ := Array.getElem?_eq_some_iff.mp hr
    exact List.pairwise_iff_getElem.mp h.ordered a b ha hb hab
  refine ⟨fun hlt => ?_, key hq hr⟩
  rcases Nat.lt_trichotomy a b with hab | rfl | hba
  · exact hab
  · rw [hq] at hr
    cases hr
    omega
  · have := key hr hq hba
    omega

/-- **A forest under construction before token `i`**: the pending regions are those that are not
closed yet, innermost first, and every region so far has its parent. -/
structure Growing (code : Code) (pairing : Pairing) (i : Nat) (g : Growth) : Prop where
  numbered : Numbered code pairing i g.regions
  complete : ∀ j t, code[j]? = some t → t.opening? = some .curly → j < i →
    ∃ r ∈ g.regions, r.opening = j
  pending_iff : ∀ id, id ∈ g.pending ↔ ∃ r, g.regions[id]? = some r ∧ i ≤ r.closing
  sorted : g.pending.Pairwise (· > ·)
  parents : ∀ r ∈ g.regions, r.Parented g.regions

namespace Growing

variable {code : Code} {pairing : Pairing} {i : Nat} {g : Growth}

theorem empty : Growing code pairing 0 {} := ⟨.empty, by simp, by simp, by simp, by simp⟩

/-- The regions so far are complete over a token that is no opening brace. -/
theorem complete_succ (h : Growing code pairing i g) {t : Token} (ht : code[i]? = some t)
    (hopen : t.opening? ≠ some .curly) (j : Nat) (u : Token) (hu : code[j]? = some u)
    (hcurly : u.opening? = some .curly)
    (hj : j < i + 1) : ∃ r ∈ g.regions, r.opening = j := by
  refine h.complete j u hu hcurly ?_
  rcases Nat.lt_succ_iff_lt_or_eq.mp hj with hj | rfl
  · exact hj
  · rw [ht] at hu
    cases hu
    exact absurd hcurly hopen

/-- The parent of a region is among the regions so far. -/
theorem parent_lt_size (h : Growing code pairing i g) {r : Region} (hr : r ∈ g.regions) {p : Nat}
    (hp : r.parent = some p) : p < g.regions.size := by
  have hparented := h.parents r hr
  rw [Region.Parented, hp] at hparented
  obtain ⟨parent, hget, -⟩ := hparented
  exact (Array.getElem?_eq_some_iff.mp hget).1

variable (hpaired : Pairing.ofCode code = .ok pairing) (h : Growing code pairing i g)

include hpaired h

/-- The braces of the regions so far. -/
theorem matched {r : Region} (hr : r ∈ g.regions) :
    Matched code.toList r.opening r.closing ∧
      ∃ closer, code[r.closing]? = some closer ∧ closer.closing? = some .curly := by
  obtain ⟨-, closer, -, hcloser, -, hclose, hmatch, -⟩ := (h.numbered.formed r hr).matched hpaired
  exact ⟨hmatch, closer, hcloser, hclose⟩

/-- No region closes at a token that is no closing brace. -/
theorem closing_ne {t : Token} (ht : code[i]? = some t) (hclose : t.closing? ≠ some .curly)
    {r : Region} (hr : r ∈ g.regions) : r.closing ≠ i := by
  rintro rfl
  obtain ⟨-, closer, hcloser, hcurly⟩ := h.matched hpaired hr
  rw [ht] at hcloser
  cases hcloser
  exact hclose hcurly

/-- What is pending stays so over a token that is no closing brace. -/
theorem pending_succ_iff {t : Token} (ht : code[i]? = some t) (hclose : t.closing? ≠ some .curly)
    (id : Nat) : id ∈ g.pending ↔ ∃ r, g.regions[id]? = some r ∧ i + 1 ≤ r.closing := by
  rw [h.pending_iff]
  refine exists_congr fun r => and_congr_right fun hr => ?_
  have := h.closing_ne hpaired ht hclose (Array.mem_of_getElem? hr)
  omega

/-- A region that opens now lies in the innermost pending one. -/
theorem parented {r : Region} (hopening : r.opening = i)
    (hmatch : Matched code.toList i r.closing) (hparent : r.parent = g.pending.head?) :
    r.Parented g.regions := by
  have hlt := hmatch.1
  -- Whatever encloses the new region is pending.
  have hpending : ∀ q ∈ g.regions, q.Encloses r → ∃ id ∈ g.pending, g.regions[id]? = some q := by
    intro q hq hencloses
    obtain ⟨id, hid⟩ := Array.getElem?_of_mem hq
    exact ⟨id, (h.pending_iff id).mpr ⟨q, hid, by have := hencloses.2; omega⟩, hid⟩
  rw [Region.Parented, hparent]
  cases hhead : g.pending with
  | nil =>
    intro q hq hencloses
    obtain ⟨id, hid, -⟩ := hpending q hq hencloses
    rw [hhead] at hid
    cases hid
  | cons p outer =>
    obtain ⟨q, hq, hopen⟩ := (h.pending_iff p).mp (by rw [hhead]; exact List.mem_cons_self)
    have hmem := Array.mem_of_getElem? hq
    have hbefore := h.numbered.before q hmem
    have hqmatch := (h.matched hpaired hmem).1
    have hne : q.closing ≠ i := by
      rintro rfl
      exact hqmatch.not_chain hmatch
    refine ⟨q, hq, ⟨by omega, hqmatch.lt_of_opening hmatch hbefore (by omega)⟩, ?_⟩
    intro q' hq' hencloses
    obtain ⟨id, hid, hget⟩ := hpending q' hq' hencloses
    have hle : id ≤ p := by
      have hsorted := h.sorted
      rw [hhead] at hid hsorted
      rcases List.mem_cons.mp hid with rfl | hid
      · exact Nat.le_refl _
      · exact Nat.le_of_lt ((List.pairwise_cons.mp hsorted).1 id hid)
    have := h.numbered.opening_lt_iff hq hget
    omega

/-- The innermost pending region is the one that a closing brace closes. -/
theorem exists_closed {t : Token} (ht : code[i]? = some t) (hclose : t.closing? = some .curly) :
    ∃ id outer r, g.pending = id :: outer ∧ g.regions[id]? = some r ∧ r.closing = i := by
  have hbalanced := Pairing.exists_ofCode_iff.mp ⟨pairing, hpaired⟩
  obtain ⟨j, hmatch⟩ := Pairing.exists_opener hbalanced (by simpa using ht) hclose
  obtain ⟨hlt, opener, closer, shape, hopener, hcloser, hopen, hshape, -⟩ := id hmatch
  rw [Array.getElem?_toList] at hopener hcloser
  rw [ht] at hcloser
  cases hcloser
  rw [hclose] at hshape
  cases hshape
  obtain ⟨r, hr, rfl⟩ := h.complete j opener hopener hopen hlt
  obtain rfl := hmatch.right_unique (h.matched hpaired hr).1
  obtain ⟨id, hid⟩ := Array.getElem?_of_mem hr
  have hpending := (h.pending_iff id).mpr ⟨r, hid, Nat.le_refl _⟩
  cases hhead : g.pending with
  | nil =>
    rw [hhead] at hpending
    cases hpending
  | cons p outer =>
    refine ⟨p, outer, r, rfl, ?_, rfl⟩
    rw [hhead] at hpending
    rcases List.mem_cons.mp hpending with rfl | hinner
    · exact hid
    · -- A region that opens further inside and is still open would cross this one.
      have hp := (List.pairwise_cons.mp (hhead ▸ h.sorted)).1 id hinner
      obtain ⟨q, hq, hopen⟩ := (h.pending_iff p).mp (by rw [hhead]; exact List.mem_cons_self)
      have hmem := Array.mem_of_getElem? hq
      have hlater := (h.numbered.opening_lt_iff hid hq).mpr hp
      have := hmatch.lt_of_opening (h.matched hpaired hmem).1 hlater (h.numbered.before q hmem)
      omega

/-- **One token keeps the forest growing.** -/
theorem step {t : Token} (ht : code[i]? = some t) :
    Growing code pairing (i + 1) (g.step code pairing i t) := by
  have hnumbered := step_numbered h.numbered ht
  rw [Growth.step] at hnumbered ⊢
  split_ifs at hnumbered ⊢ with hopen hclose
  · -- An opening brace adds a region inside the innermost pending one.
    dsimp only at hnumbered ⊢
    generalize hnew : Region.mk _ _ _ _ _ _ _ = r at hnumbered ⊢
    have hopening : r.opening = i := by rw [← hnew]
    have hparent : r.parent = g.pending.head? := by rw [← hnew]
    have hlast : (g.regions.push r)[g.regions.size]? = some r := Array.getElem?_push_size
    have hformed := hnumbered.formed r (Array.mem_of_getElem? hlast)
    obtain ⟨-, -, -, -, -, -, hmatch, -⟩ := hformed.matched hpaired
    rw [hopening] at hmatch
    have hneutral : t.closing? ≠ some .curly := by
      intro hclose
      rw [Token.opening?_eq_none hclose] at hopen
      cases hopen
    refine ⟨hnumbered, fun j u hu hcurly hj => ?_, fun id => ?_, ?_, fun q hq => ?_⟩
    · rcases Nat.lt_succ_iff_lt_or_eq.mp hj with hj | rfl
      · obtain ⟨q, hq, hplace⟩ := h.complete j u hu hcurly hj
        exact ⟨q, Array.mem_push.mpr (.inl hq), hplace⟩
      · exact ⟨r, Array.mem_push.mpr (.inr rfl), hopening⟩
    · rw [List.mem_cons, h.pending_succ_iff hpaired ht hneutral, Array.getElem?_push]
      split_ifs with hid
      · subst hid
        have := hmatch.1
        simp only [true_or, Option.some.injEq, exists_eq_left', true_iff]
        omega
      · rw [or_iff_right hid]
    · refine List.pairwise_cons.mpr ⟨fun id hid => ?_, h.sorted⟩
      obtain ⟨q, hq, -⟩ := (h.pending_iff id).mp hid
      exact (Array.getElem?_eq_some_iff.mp hq).1
    · rcases Array.mem_push.mp hq with hq | rfl
      · have := h.numbered.before q hq
        exact (h.parents q hq).push (by omega)
      · exact (h.parented hpaired hopening hmatch hparent).push (Nat.le_refl _)
  · -- A closing brace takes the innermost pending region away, and no other.
    rw [beq_iff_eq] at hopen hclose
    have hcomplete := h.complete_succ ht hopen
    obtain ⟨p, outer, r, hpending, hr, rfl⟩ := h.exists_closed hpaired ht hclose
    refine ⟨hnumbered, hcomplete, fun id => ?_, ?_, h.parents⟩
    · have hsorted := h.sorted
      have hiff := h.pending_iff id
      rw [hpending] at hsorted hiff
      rw [hpending, List.tail_cons]
      constructor
      · intro hid
        obtain ⟨q, hq, hle⟩ := hiff.mp (List.mem_cons_of_mem p hid)
        refine ⟨q, hq, Nat.lt_of_le_of_ne hle fun hsame => ?_⟩
        have hmatch := (h.matched hpaired (Array.mem_of_getElem? hr)).1
        have hmatch' := (h.matched hpaired (Array.mem_of_getElem? hq)).1
        rw [← hsame] at hmatch'
        have := hmatch.left_unique hmatch'
        have := h.numbered.opening_lt_iff hq hr
        have := (List.pairwise_cons.mp hsorted).1 id hid
        omega
      · rintro ⟨q, hq, hle⟩
        refine (List.mem_cons.mp (hiff.mpr ⟨q, hq, by omega⟩)).resolve_left ?_
        rintro rfl
        rw [hq] at hr
        cases hr
        omega
    · exact h.sorted.tail
  · rw [beq_iff_eq] at hopen hclose
    exact ⟨hnumbered, h.complete_succ ht hopen, h.pending_succ_iff hpaired ht hclose,
      h.sorted, h.parents⟩

end Growing

/-- **The invariant holds after every token.** -/
theorem growFrom_growing {code : Code} {pairing : Pairing}
    (hpaired : Pairing.ofCode code = .ok pairing) {tokens : List Token} {g : Growth} {i : Nat}
    (htokens : code.Holds i tokens)
    (h : Growing code pairing i g) :
    Growing code pairing (i + tokens.length) (growFrom code pairing i g tokens) := by
  induction tokens generalizing i g with
  | nil => exact h
  | cons t rest ih =>
    have := ih htokens.tail (h.step hpaired htokens.head)
    rwa [growFrom, List.length_cons, show i + (rest.length + 1) = i + 1 + rest.length by omega]

/-- **Every region of a finished forest has its parent.** -/
theorem parented_of_mem {code : Code} {pairing : Pairing}
    (hpaired : Pairing.ofCode code = .ok pairing) {r : Region}
    (hr : r ∈ (ofCode code pairing).regions) : r.Parented (ofCode code pairing).regions :=
  (growFrom_growing hpaired (.whole code) .empty).parents r hr

/-! ## The finished forest -/

/-- The opening braces are the tokens that are `{`. -/
theorem openingsFrom_eq_filter (code : Code) {i : Nat} {tokens : List Token}
    (htokens : code.Holds i tokens) :
    openingsFrom i tokens = (List.range' i tokens.length).filter (code.mark · "\x7b") := by
  induction tokens generalizing i with
  | nil => rfl
  | cons t rest ih =>
    have hmark : code.mark i "\x7b" = (t.opening? == some .curly) := by
      rw [Code.mark, Code.has, htokens.head, Option.any_some,
        Bool.eq_iff_iff, beq_iff_eq, Token.opening?_eq_some_iff]
      rfl
    rw [openingsFrom, ih htokens.tail, List.length_cons, List.range'_succ, List.filter_cons, hmark]

/-- **How the regions of a file lie.** -/
structure Nested (code : Code) (pairing : Pairing) (f : Forest) : Prop where
  /-- There is exactly one region per opening brace. -/
  openings : f.toList.map (·.opening) = (List.range code.size).filter (code.mark · "\x7b")
  /-- Regions are numbered in the order of their opening braces. -/
  id_eq : ∀ k r, f.get? k = some r → r.id = k
  ordered : f.toList.Pairwise (·.opening < ·.opening)
  spans : ∀ r ∈ f.toList, r.Spans code pairing
  /-- Two regions are apart, or one lies strictly inside the other. -/
  laminar : ∀ r ∈ f.toList, ∀ q ∈ f.toList, r ≠ q → r.Apart q ∨ r.Encloses q ∨ q.Encloses r
  parented : ∀ r ∈ f.toList, r.Parented f.regions
  /-- The regions directly inside a region, or at file scope, are those with that parent, in
  order. -/
  children : ∀ p, (f.childrenOf p).map (·.id) =
    (List.range f.size).filter fun k => (f.get? k).any (·.parent == p)
  parent_lt : ∀ r ∈ f.toList, ∀ p, r.parent = some p → p < r.id
  /-- The ancestors of a region are the region itself and those of its parent, up to a region
  without one. -/
  ancestors_eq : ∀ r ∈ f.toList, f.ancestors r.id = r :: r.parent.elim [] f.ancestors
  rooted : ∀ r ∈ f.toList, ∃ root, (f.ancestors r.id).getLast? = some root ∧ root.parent = none

theorem mem_toList_iff {f : Forest} {r : Region} : r ∈ f.toList ↔ r ∈ f.regions :=
  Array.mem_toList_iff

theorem mem_of_get? {f : Forest} {id : Nat} {r : Region} (h : f.get? id = some r) :
    r ∈ f.toList := mem_toList_iff.mpr (Array.mem_of_getElem? h)

theorem mem_childrenOf_iff {f : Forest} {p : Option Nat} {r : Region} :
    r ∈ f.childrenOf p ↔ r ∈ f.toList ∧ r.parent = p := by
  rw [childrenOf, List.mem_filter, beq_iff_eq]

theorem climb_none (f : Forest) (fuel : Nat) : f.climb fuel none = [] := by
  cases fuel <;> rfl

/-- Climbing ends by itself where every parent has a smaller number. -/
theorem climb_eq_ancestors {f : Forest} (hid : ∀ k r, f.get? k = some r → r.id = k)
    (hlt : ∀ r ∈ f.toList, ∀ p, r.parent = some p → p < r.id) {id fuel : Nat} (h : id < fuel) :
    f.climb fuel (some id) = f.ancestors id := by
  induction id using Nat.strongRecOn generalizing fuel with
  | _ id ih =>
    obtain ⟨fuel, rfl⟩ : ∃ n, fuel = n + 1 := ⟨fuel - 1, by omega⟩
    rw [ancestors, climb, climb]
    cases hr : f.get? id with
    | none => rfl
    | some r =>
      dsimp only
      cases hparent : r.parent with
      | none => rw [climb_none, climb_none]
      | some p =>
        have hp := hlt r (mem_of_get? hr) p hparent
        rw [hid id r hr] at hp
        rw [ih p hp (show p < fuel by omega), ih p hp hp]

end Forest

theorem Region.contains_iff {r : Region} {i : Nat} :
    r.contains i = true ↔ r.opening < i ∧ i < r.closing := by
  rw [contains, Bool.and_eq_true, decide_eq_true_iff, decide_eq_true_iff]

/-- **Token `i` is level with the region**: no region further inside is around it. -/
def Region.Level (f : Forest) (r : Region) (i : Nat) : Prop :=
  r.opening < i ∧ ∀ q ∈ f.toList, q.contains i = true → q.opening ≤ r.opening

/-- The first token of a region is level with it. -/
theorem Region.level_opening (f : Forest) (r : Region) : r.Level f (r.opening + 1) := by
  refine ⟨Nat.lt_succ_self _, fun q _ hcontains => ?_⟩
  have := contains_iff.mp hcontains
  omega

namespace Outline.Valid

variable {o : Outline} (h : o.Valid)

include h

/-- Ids are in the order of the opening braces. -/
theorem id_lt_iff {q r : Region} (hq : q ∈ o.forest.toList) (hr : r ∈ o.forest.toList) :
    q.id < r.id ↔ q.opening < r.opening :=
  (h.numbered.opening_lt_iff (h.get?_id hq) (h.get?_id hr)).symm

/-- The braces of a region match. -/
theorem matched {r : Region} (hr : r ∈ o.forest.toList) :
    Matched o.code.toList r.opening r.closing := by
  obtain ⟨-, -, -, -, -, -, hmatch, -⟩ := h.braces hr
  exact hmatch

/-- The parent of a region is the smallest region around it. -/
theorem parented {r : Region} (hr : r ∈ o.forest.toList) : r.Parented o.forest.regions := by
  rw [Forest.mem_toList_iff, h.forest_eq] at hr
  rw [h.forest_eq]
  exact Forest.parented_of_mem h.paired hr

/-- A region that opens between the braces of another closes there. -/
theorem encloses {r q : Region} (hr : r ∈ o.forest.toList) (hq : q ∈ o.forest.toList)
    (hlt : r.opening < q.opening) (hinside : q.opening < r.closing) : r.Encloses q :=
  ⟨hlt, (h.matched hr).lt_of_opening (h.matched hq) hlt hinside⟩

/-- **Two regions lie apart, or one in the other.** -/
theorem laminar {r q : Region} (hr : r ∈ o.forest.toList) (hq : q ∈ o.forest.toList)
    (hne : r ≠ q) : r.Apart q ∨ r.Encloses q ∨ q.Encloses r := by
  have key : ∀ {r q : Region}, r ∈ o.forest.toList → q ∈ o.forest.toList →
      r.opening < q.opening → r.Apart q ∨ r.Encloses q := by
    intro r q hr hq hlt
    rcases Nat.lt_trichotomy q.opening r.closing with hinside | hsame | hafter
    · exact .inr (h.encloses hr hq hlt hinside)
    · exact absurd (hsame ▸ h.matched hq) (h.matched hr).not_chain
    · exact .inl (.inl hafter)
  rcases Nat.lt_trichotomy r.opening q.opening with hlt | hsame | hlt
  · exact (key hr hq hlt).imp_right .inl
  · exact absurd (h.region_ext hr hq hsame) hne
  · exact (key hq hr hlt).imp (·.symm) .inr

/-- The parent of a region is around it. -/
theorem exists_parent {r : Region} (hr : r ∈ o.forest.toList) {p : Nat}
    (hp : r.parent = some p) :
    ∃ q ∈ o.forest.toList, q.id = p ∧ o.forest.get? p = some q ∧ q.Encloses r ∧
      ∀ q' ∈ o.forest.toList, q'.Encloses r → q'.opening ≤ q.opening := by
  have hparented := h.parented hr
  rw [Region.Parented, hp] at hparented
  obtain ⟨q, hq, hencloses, hlast⟩ := hparented
  exact ⟨q, Forest.mem_of_get? hq, h.numbered.id_eq p q hq, hq, hencloses,
    fun q' hq' => hlast q' (Forest.mem_toList_iff.mp hq')⟩

/-- The region with the number of a parent is the last one to open around. -/
theorem encloses_of_parent {r q : Region} (hr : r ∈ o.forest.toList) (hq : q ∈ o.forest.toList)
    (hparent : q.parent = some r.id) : r.Encloses q ∧
      ∀ l ∈ o.forest.toList, l.Encloses q → l.opening ≤ r.opening := by
  obtain ⟨p, -, -, hget, hspec⟩ := h.exists_parent hq hparent
  rw [h.get?_id hr] at hget
  cases hget
  exact hspec

/-- Regions that the same regions are around have one parent. -/
theorem parent_congr {r q : Region} (hr : r ∈ o.forest.toList) (hq : q ∈ o.forest.toList)
    (hsame : ∀ l ∈ o.forest.toList, l.Encloses r ↔ l.Encloses q) : r.parent = q.parent := by
  have hnone : ∀ {r q : Region}, q ∈ o.forest.toList → r ∈ o.forest.toList → r.parent = none →
      (∀ l ∈ o.forest.toList, l.Encloses r ↔ l.Encloses q) → q.parent = none := by
    intro r q hq hr hparent hsame
    cases hqparent : q.parent with
    | none => rfl
    | some p =>
      obtain ⟨l, hl, -, -, hencloses, -⟩ := h.exists_parent hq hqparent
      have hparented := h.parented hr
      rw [Region.Parented, hparent] at hparented
      exact absurd ((hsame l hl).mpr hencloses) (hparented l (Forest.mem_toList_iff.mp hl))
  cases hrparent : r.parent with
  | none => exact (hnone hq hr hrparent hsame).symm
  | some p =>
    cases hqparent : q.parent with
    | none =>
      rw [hnone hr hq hqparent fun l hl => (hsame l hl).symm] at hrparent
      cases hrparent
    | some p' =>
      obtain ⟨l, hl, rfl, -, hlr, hlast⟩ := h.exists_parent hr hrparent
      obtain ⟨l', hl', rfl, -, hlq, hlast'⟩ := h.exists_parent hq hqparent
      have hle := hlast' l hl ((hsame l hl).mp hlr)
      have hge := hlast l' hl' ((hsame l' hl').mpr hlq)
      rw [h.region_ext hl hl' (Nat.le_antisymm hle hge)]

theorem parent_lt {r : Region} (hr : r ∈ o.forest.toList) {p : Nat} (hp : r.parent = some p) :
    p < r.id := by
  obtain ⟨q, hq, rfl, -, hencloses, -⟩ := h.exists_parent hr hp
  exact (h.id_lt_iff hq hr).mpr hencloses.1

/-- The ancestors of a region are itself and those of its parent. -/
theorem ancestors_eq {r : Region} (hr : r ∈ o.forest.toList) :
    o.forest.ancestors r.id = r :: r.parent.elim [] o.forest.ancestors := by
  rw [Forest.ancestors, Forest.climb, h.get?_id hr]
  dsimp only
  cases hparent : r.parent with
  | none => rw [Forest.climb_none, Option.elim_none]
  | some p =>
    rw [Option.elim_some, Forest.climb_eq_ancestors h.numbered.id_eq (fun r hr p => h.parent_lt hr)
      (h.parent_lt hr hparent)]

/-- The way out of every region ends at a root. -/
theorem exists_root {r : Region} (hr : r ∈ o.forest.toList) :
    ∃ root, (o.forest.ancestors r.id).getLast? = some root ∧ root.parent = none := by
  induction hn : r.id using Nat.strongRecOn generalizing r with
  | _ n ih =>
    subst hn
    rw [h.ancestors_eq hr]
    cases hparent : r.parent with
    | none => exact ⟨r, rfl, hparent⟩
    | some p =>
      obtain ⟨q, hq, rfl, -⟩ := h.exists_parent hr hparent
      obtain ⟨root, hlast, hroot⟩ := ih q.id (h.parent_lt hr hparent) hq rfl
      refine ⟨root, ?_, hroot⟩
      rw [Option.elim_some, List.getLast?_cons, hlast, Option.getD_some]

/-- Every number below the count is the id of a region, in order. -/
theorem map_id : o.forest.toList.map (·.id) = List.range o.forest.size := by
  refine List.ext_getElem (by simp [Forest.toList, Forest.size]) fun k hk hk' => ?_
  rw [List.getElem_map, List.getElem_range]
  exact h.numbered.id_eq k _ (Array.getElem?_eq_getElem (by simpa [Forest.size] using hk'))

theorem map_id_childrenOf (p : Option Nat) : (o.forest.childrenOf p).map (·.id) =
    (List.range o.forest.size).filter fun k => (o.forest.get? k).any (·.parent == p) := by
  rw [← h.map_id, List.filter_map, Forest.childrenOf]
  refine congrArg (List.map Region.id) (List.filter_congr fun r hr => ?_)
  rw [Function.comp_apply, h.get?_id hr, Option.any_some]

/-- **The regions of a file form a forest.** -/
theorem nested : Forest.Nested o.code o.pairing o.forest where
  openings := by
    rw [h.forest_eq, Forest.map_opening_regions, Forest.openingsFrom_eq_filter o.code
      (.whole o.code), List.range_eq_range', Array.length_toList]
  id_eq := h.numbered.id_eq
  ordered := h.numbered.ordered
  spans r hr := by
    obtain ⟨opener, closer, hopener, hcloser, hopen, hclose, hmatch, hstart, hstop⟩ :=
      (h.numbered.formed r (Forest.mem_toList_iff.mp hr)).matched h.paired
    rw [Token.opening?_eq_some_iff, Bracket.opener] at hopen
    rw [Token.closing?_eq_some_iff, Bracket.closer] at hclose
    refine ⟨opener, closer, hopener, hopen, hcloser, hclose,
      (Pairing.partner_eq_some_iff h.paired).mpr (.inl hmatch), hstart, ?_⟩
    rw [hstop, Token.stop, (Token.isMark_iff.mp hclose).2]
    rfl
  laminar _ hr _ hq := h.laminar hr hq
  parented _ hr := h.parented hr
  children := h.map_id_childrenOf
  parent_lt _ hr _ := h.parent_lt hr
  ancestors_eq _ hr := h.ancestors_eq hr
  rooted _ hr := h.exists_root hr

/-! ## The innermost region -/

variable {i : Nat}

/-- Of two regions around a token the one that opens later is inside. -/
theorem encloses_of_contains {r q : Region} (hr : r ∈ o.forest.toList)
    (hq : q ∈ o.forest.toList) (hri : r.contains i = true) (hqi : q.contains i = true)
    (hlt : r.opening < q.opening) : r.Encloses q := by
  rw [Region.contains_iff] at hri hqi
  exact h.encloses hr hq hlt (by omega)

/-- A region without a parent is in no other. -/
theorem not_encloses_of_parent_eq_none {q r : Region} (hq : q ∈ o.forest.toList)
    (hparent : q.parent = none) (hr : r ∈ o.forest.toList) : ¬r.Encloses q := by
  have hparented := h.parented hq
  rw [Region.Parented, hparent] at hparented
  exact hparented r (Forest.mem_toList_iff.mp hr)

/-- A region somewhere in a scope is directly there or lies in one that is. -/
theorem exists_child_around {scope : Option Region} (hscope : ∀ l ∈ scope, l ∈ o.forest.toList)
    {q : Region} (hq : q ∈ o.forest.toList) (hinside : ∀ l ∈ scope, l.Encloses q) :
    ∃ c ∈ o.forest.childrenOf (scope.map (·.id)),
      c.opening ≤ q.opening ∧ q.closing ≤ c.closing := by
  induction hn : q.id using Nat.strongRecOn generalizing q with
  | _ n ih =>
    subst hn
    by_cases hchild : q.parent = scope.map (·.id)
    · exact ⟨q, Forest.mem_childrenOf_iff.mpr ⟨hq, hchild⟩, Nat.le_refl _, Nat.le_refl _⟩
    cases hparent : q.parent with
    | none =>
      cases scope with
      | none => exact absurd hparent hchild
      | some l =>
        exact absurd (hinside l rfl) (h.not_encloses_of_parent_eq_none hq hparent (hscope l rfl))
    | some p =>
      -- The parent is still in the scope.
      obtain ⟨r, hr, rfl, -, hencloses, hlast⟩ := h.exists_parent hq hparent
      have hparentIn : ∀ l ∈ scope, l.Encloses r := by
        intro l hl
        have hlq := hinside l hl
        have hle := hlast l (hscope l hl) hlq
        have hne : l.opening ≠ r.opening := by
          intro hsame
          obtain rfl := h.region_ext (hscope l hl) hr hsame
          rw [Option.mem_def.mp hl] at hchild
          exact hchild hparent
        have hrq := hencloses.1
        have hqlt := (h.matched hq).1
        exact h.encloses (hscope l hl) hr (by omega) (by have := hlq.2; omega)
      obtain ⟨c, hc, hopening, hclosing⟩ := ih r.id (h.parent_lt hq hparent) hr hparentIn rfl
      obtain ⟨hrq, hqr⟩ := hencloses
      exact ⟨c, hc, by omega, by omega⟩

/-- A region around a token, somewhere in a scope, lies in a region that is directly there. -/
theorem exists_child {scope : Option Region} (hscope : ∀ l ∈ scope, l ∈ o.forest.toList)
    {q : Region} (hq : q ∈ o.forest.toList) (hinside : ∀ l ∈ scope, l.Encloses q)
    (hcontains : q.contains i = true) :
    ∃ c ∈ o.forest.childrenOf (scope.map (·.id)), c.contains i = true := by
  obtain ⟨c, hc, hopening, hclosing⟩ := h.exists_child_around hscope hq hinside
  rw [Region.contains_iff] at hcontains
  exact ⟨c, hc, Region.contains_iff.mpr ⟨by omega, by omega⟩⟩

/-- Of the regions directly in a scope, none is inside another. -/
theorem not_encloses_of_siblings {level : Option Nat} {c d : Region}
    (hc : c ∈ o.forest.childrenOf level) (hd : d ∈ o.forest.childrenOf level) :
    ¬c.Encloses d := by
  intro hencloses
  obtain ⟨hmem, hparent⟩ := Forest.mem_childrenOf_iff.mp hc
  obtain ⟨hdmem, hdparent⟩ := Forest.mem_childrenOf_iff.mp hd
  -- The inner one would have another parent.
  cases level with
  | none =>
    have hparented := h.parented hdmem
    rw [Region.Parented, hdparent] at hparented
    exact hparented c (Forest.mem_toList_iff.mp hmem) hencloses
  | some p =>
    obtain ⟨q, hq, rfl, hget, hqc, -⟩ := h.exists_parent hmem hparent
    obtain ⟨-, hlast⟩ := h.encloses_of_parent hq hdmem hdparent
    have := hlast c hmem hencloses
    have := hqc.1
    omega

/-- Directly in a scope, the last region to open before a token is the only one that can be around
it. -/
theorem getLast?_childrenOf {level : Option Nat} {c : Region}
    (hc : c ∈ o.forest.childrenOf level) (hcontains : c.contains i = true) :
    ((o.forest.childrenOf level).takeWhile (·.opening < i)).getLast? = some c := by
  have hci := Region.contains_iff.mp hcontains
  have hmem := (Forest.mem_childrenOf_iff.mp hc).1
  refine getLast?_takeWhile_eq_some (h.numbered.ordered.filter _) hc hci.1 fun d hd hdi => ?_
  by_contra hlt
  exact h.not_encloses_of_siblings hc hd
    (h.encloses hmem (Forest.mem_childrenOf_iff.mp hd).1 (by omega) (by omega))

/-- **Descending finds the innermost region of a scope around a token**, or there is none. -/
theorem descend_spec (fuel : Nat) (scope : Option Region)
    (hscope : ∀ l ∈ scope, l ∈ o.forest.toList)
    (hfuel : o.forest.size < fuel + scope.elim 0 (·.id + 1)) :
    match o.forest.descend i fuel (scope.map (·.id)) with
    | none => ∀ q ∈ o.forest.toList, (∀ l ∈ scope, l.Encloses q) → q.contains i = false
    | some r => r ∈ o.forest.toList ∧ r.contains i = true ∧
        ∀ q ∈ o.forest.toList, q.contains i = true → q.opening ≤ r.opening := by
  induction fuel generalizing scope with
  | zero =>
    cases scope with
    | none => exact absurd hfuel (by simp)
    | some l =>
      have hid := (Array.getElem?_eq_some_iff.mp (h.get?_id (hscope l rfl))).1
      exact absurd hfuel (by rw [Forest.size, Option.elim_some]; omega)
  | succ fuel ih =>
    -- If no region directly in the scope is around the token, none in the scope is.
    have hnone : (∀ c ∈ o.forest.childrenOf (scope.map (·.id)), c.contains i = false) →
        ∀ q ∈ o.forest.toList, (∀ l ∈ scope, l.Encloses q) → q.contains i = false := by
      intro hchildren q hq hinside
      by_contra hcontains
      obtain ⟨c, hc, hci⟩ := h.exists_child hscope hq hinside (by simpa using hcontains)
      rw [hchildren c hc] at hci
      cases hci
    rw [Forest.descend]
    rcases hlast : ((o.forest.childrenOf (scope.map (·.id))).takeWhile
        (·.opening < i)).getLast? with _ | r
    · rw [hlast]
      refine hnone fun c hc => ?_
      by_contra hcontains
      rw [h.getLast?_childrenOf hc (by simpa using hcontains)] at hlast
      cases hlast
    · rw [hlast]
      dsimp only
      split_ifs with hcontains
      · have hmem := (List.takeWhile_sublist _).subset (List.mem_of_getLast? hlast)
        obtain ⟨hr, hparent⟩ := Forest.mem_childrenOf_iff.mp hmem
        have hdeeper : o.forest.size < fuel + (some r).elim 0 (·.id + 1) := by
          cases scope with
          | none => simp only [Option.elim_none, Option.elim_some] at hfuel ⊢; omega
          | some l =>
            have hlt : l.id < r.id := h.parent_lt hr hparent
            simp only [Option.elim_some] at hfuel ⊢
            omega
        have hinner := ih (some r) (by simpa using hr) hdeeper
        rw [Option.map_some] at hinner
        rcases hdescend : o.forest.descend i fuel (some r.id) with _ | s
        · rw [hdescend] at hinner
          refine ⟨hr, hcontains, fun q hq hqi => ?_⟩
          rw [Option.getD_none]
          by_contra hlt
          have hencloses := h.encloses_of_contains hr hq hcontains hqi (by omega)
          rw [hinner q hq (by simpa using hencloses)] at hqi
          cases hqi
        · rw [hdescend] at hinner
          exact hinner
      · refine hnone fun c hc => ?_
        by_contra hci
        rw [h.getLast?_childrenOf hc (by simpa using hci)] at hlast
        cases hlast
        exact hci (by simpa using hcontains)

/-- **The innermost region around a token** is the last one to open around it. -/
theorem innermost?_eq_some_iff {r : Region} : o.forest.innermost? i = some r ↔
    r ∈ o.forest.toList ∧ r.contains i = true ∧
      ∀ q ∈ o.forest.toList, q.contains i = true → q.opening ≤ r.opening := by
  have hspec := h.descend_spec (i := i) (o.forest.size + 1) none (by simp) (by simp)
  rw [Option.map_none, ← Forest.innermost?] at hspec
  constructor
  · intro hfound
    rw [hfound] at hspec
    exact hspec
  · rintro ⟨hr, hcontains, hlast⟩
    rcases hfound : o.forest.innermost? i with _ | s
    · rw [hfound] at hspec
      rw [hspec r hr (by simp)] at hcontains
      cases hcontains
    · rw [hfound] at hspec
      obtain ⟨hs, hsi, hslast⟩ := hspec
      have hsame : s.opening = r.opening :=
        Nat.le_antisymm (hlast s hs hsi) (hslast r hr hcontains)
      rw [h.region_ext hs hr hsame]

/-- A token that no region is around has no innermost one. -/
theorem innermost?_eq_none_iff : o.forest.innermost? i = none ↔
    ∀ q ∈ o.forest.toList, q.contains i = false := by
  have hspec := h.descend_spec (i := i) (o.forest.size + 1) none (by simp) (by simp)
  rw [Option.map_none, ← Forest.innermost?] at hspec
  constructor
  · intro hnone
    rw [hnone] at hspec
    exact fun q hq => hspec q hq (by simp)
  · intro hout
    rcases hfound : o.forest.innermost? i with _ | r
    · rfl
    · obtain ⟨hr, hcontains, -⟩ := h.innermost?_eq_some_iff.mp hfound
      rw [hout r hr] at hcontains
      cases hcontains

/-! ## Keeping level -/

variable {r q : Region}

/-- A region opens at every opening brace. -/
theorem exists_region (hbrace : o.code.mark i "\x7b" = true) :
    ∃ q ∈ o.forest.toList, q.opening = i := by
  have hmem : i ∈ o.forest.toList.map (·.opening) := by
    rw [h.nested.openings, List.mem_filter, List.mem_range]
    refine ⟨?_, hbrace⟩
    rw [Code.mark, Code.has, Option.any_eq_true] at hbrace
    obtain ⟨t, ht, -⟩ := hbrace
    exact (Array.getElem?_eq_some_iff.mp ht).1
  exact List.mem_map.mp hmem

/-- A region opens with a brace. -/
theorem mark_opening (hq : q ∈ o.forest.toList) : o.code.mark q.opening "\x7b" = true := by
  obtain ⟨opener, -, hopener, hmark, -⟩ := h.nested.spans q hq
  rw [Code.mark, Code.has, hopener, Option.any_some, hmark]

theorem mark_closing (hq : q ∈ o.forest.toList) : o.code.mark q.closing "\x7d" = true := by
  obtain ⟨-, closer, -, -, hcloser, hmark, -⟩ := h.nested.spans q hq
  rw [Code.mark, Code.has, hcloser, Option.any_some, hmark]

theorem opening_ne (hq : q ∈ o.forest.toList) (hbrace : o.code.mark i "\x7b" = false) :
    q.opening ≠ i := by
  rintro rfl
  exact Bool.false_ne_true (hbrace.symm.trans (h.mark_opening hq))

theorem partnered : Partnered o.code.toList o.pairing := Pairing.partnered_of_ofCode h.paired

/-- Brackets that open are closed later. -/
theorem exists_closing (shape : Bracket) (hopen : o.code.mark i shape.opener = true) :
    ∃ j, o.pairing.partner i = some j ∧ i < j ∧ o.code.mark j shape.closer = true :=
  Pairing.exists_closing h.paired shape hopen

/-- Brackets that close were opened before. -/
theorem exists_opening (shape : Bracket) (hclose : o.code.mark i shape.closer = true) :
    ∃ j, o.pairing.partner i = some j ∧ j < i ∧ o.code.mark j shape.opener = true :=
  Pairing.exists_opening h.paired shape hclose

/-- **The innermost region is the one that the token is directly in.** -/
theorem innermost?_of_level (hr : r ∈ o.forest.toList) (hlevel : r.Level o.forest i)
    (hi : i < r.closing) : o.forest.innermost? i = some r :=
  h.innermost?_eq_some_iff.mpr ⟨hr, Region.contains_iff.mpr ⟨hlevel.1, hi⟩, hlevel.2⟩

/-- A token that opens no region keeps level. -/
theorem level_succ (hlevel : r.Level o.forest i) (hbrace : o.code.mark i "\x7b" = false) :
    r.Level o.forest (i + 1) := by
  refine ⟨Nat.lt_succ_of_lt hlevel.1, fun q hq hcontains => ?_⟩
  obtain ⟨hopening, hclosing⟩ := Region.contains_iff.mp hcontains
  have hne := h.opening_ne hq hbrace
  exact hlevel.2 q hq (Region.contains_iff.mpr ⟨by omega, by omega⟩)

/-- Passing over a region keeps level. -/
theorem level_closing (hq : q ∈ o.forest.toList) (hlevel : r.Level o.forest q.opening) :
    r.Level o.forest (q.closing + 1) := by
  have hqlt := (h.matched hq).1
  refine ⟨by have := hlevel.1; omega, fun l hl hcontains => ?_⟩
  obtain ⟨hopening, hclosing⟩ := Region.contains_iff.mp hcontains
  by_cases hsame : l = q
  · subst hsame
    omega
  rcases h.laminar hl hq hsame with (hapart | hapart) | hencloses | hencloses
  · omega
  · omega
  · exact hlevel.2 l hl (Region.contains_iff.mpr ⟨hencloses.1, by have := hencloses.2; omega⟩)
  · have := hencloses.2
    omega

/-- What opens level with a region and before its end lies directly in it. -/
theorem parent_of_level (hr : r ∈ o.forest.toList) (hq : q ∈ o.forest.toList)
    (hlevel : r.Level o.forest q.opening) (hi : q.opening < r.closing) :
    r.Encloses q ∧ q.parent = some r.id := by
  have hencloses := h.encloses hr hq hlevel.1 hi
  have hqlt := (h.matched hq).1
  refine ⟨hencloses, ?_⟩
  cases hparent : q.parent with
  | none => exact absurd hencloses (h.not_encloses_of_parent_eq_none hq hparent hr)
  | some p =>
    obtain ⟨l, hl, rfl, -, hlq, hlast⟩ := h.exists_parent hq hparent
    have hle := hlevel.2 l hl (Region.contains_iff.mpr ⟨hlq.1, by have := hlq.2; omega⟩)
    have hge := hlast r hr hencloses
    rw [h.region_ext hl hr (Nat.le_antisymm hle hge)]

end Outline.Valid

/-- **The regions of a buffer that has an outline form a forest.** -/
theorem ofSource_nested {source : Bytes} {o : Outline} (h : Outline.ofSource source = .ok o) :
    Forest.Nested o.code o.pairing o.forest :=
  (Outline.ofSource_eq_ok_iff_valid.mp h).2.nested

/-- Braces in braces, in parentheses and next to each other. -/
theorem ofSource_nested_braces :
    ∃ o, Outline.ofSource (utf8 "a\x7b\x7b\x7d(b\x7b;\x7d)\x7d\x7b\x7d") = .ok o ∧
      o.forest.toList.map (fun r => (r.opening, r.closing, r.parent)) =
        [(1, 10, none), (2, 3, some 0), (6, 8, some 0), (11, 12, none)] ∧
      Forest.Nested o.code o.pairing o.forest := by
  obtain ⟨o, h, hregions⟩ := Outline.exists_ofSource
    (utf8 "a\x7b\x7b\x7d(b\x7b;\x7d)\x7d\x7b\x7d")
    (fun o => o.forest.toList.map fun r => (r.opening, r.closing, r.parent))
    (a := [(1, 10, none), (2, 3, some 0), (6, 8, some 0), (11, 12, none)]) (by decide +kernel)
  exact ⟨o, h, hregions, ofSource_nested h⟩

end Quell
