import Mathlib.Tactic.Common
import Quell.Proofs.Bracket

/-!
# Proofs/Forest — the regions of a file and its braces

The pass that grows a forest takes one token after the other.  Each region it adds is `Formed`: its
braces are code tokens, its extent is theirs.  Regions are numbered in the order of their opening
braces (`Forest.Numbered`), one per brace (`map_opening_regions`), and who is the parent of whom is
settled by the word of braces alone (`map_parent_regions`).
-/

namespace Quell

/-! ## Runs of the code -/

/-- The tokens stand in the code from index `i` on. -/
def Code.Holds (code : Code) (i : Nat) (tokens : List Token) : Prop :=
  ∀ k t, tokens[k]? = some t → code[i + k]? = some t

namespace Code.Holds

variable {code : Code} {i : Nat} {t : Token} {rest : List Token}

theorem head (h : code.Holds i (t :: rest)) : code[i]? = some t := h 0 t rfl

theorem tail (h : code.Holds i (t :: rest)) : code.Holds (i + 1) rest := by
  intro k u hu
  rw [show i + 1 + k = i + (k + 1) by omega]
  exact h (k + 1) u (by simpa using hu)

theorem take (code : Code) (n : Nat) : code.Holds 0 (code.toList.take n) := by
  intro k t hk
  rw [List.getElem?_take] at hk
  split_ifs at hk
  simpa using hk

theorem whole (code : Code) : code.Holds 0 code.toList := fun k t hk => by simpa using hk

end Code.Holds

/-! ## The regions are those of the braces -/

/-- **The region is the one of the brace it opens at**, with the brace's partner and the extent of
both. -/
def Region.Formed (code : Code) (pairing : Pairing) (r : Region) : Prop :=
  ∃ brace, code[r.opening]? = some brace ∧ brace.opening? = some .curly ∧
    r.closing = (pairing.partner r.opening).getD r.opening ∧ r.start = brace.start ∧
    r.stop = (code[r.closing]?.getD brace).stop

/-- The braces of a region match where the brackets are paired, and its byte offsets are theirs. -/
theorem Region.Formed.matched {code : Code} {pairing : Pairing} {r : Region}
    (h : r.Formed code pairing) (hpaired : Pairing.ofCode code = .ok pairing) :
    ∃ opener closer, code[r.opening]? = some opener ∧ code[r.closing]? = some closer ∧
      opener.opening? = some .curly ∧ closer.closing? = some .curly ∧
      Matched code.toList r.opening r.closing ∧ r.start = opener.start ∧ r.stop = closer.stop := by
  obtain ⟨opener, hopener, hopen, hclosing, hstart, hstop⟩ := h
  have hbalanced := Pairing.exists_ofCode_iff.mp ⟨pairing, hpaired⟩
  obtain ⟨j, hmatch⟩ := hbalanced.exists_matched (i := r.opening) (by simpa using hopener) hopen
  have hpartner : pairing.partner r.opening = some j :=
    (Pairing.partner_eq_some_iff hpaired).mpr (.inl hmatch)
  obtain rfl : r.closing = j := by rw [hclosing, hpartner]; rfl
  have hparts := hmatch
  obtain ⟨-, opener', closer, shape, hopener', hcloser, hopen', hclose, -⟩ := hparts
  rw [Array.getElem?_toList] at hopener' hcloser
  rw [hopener] at hopener'
  cases hopener'
  rw [hopen] at hopen'
  cases hopen'
  refine ⟨opener, closer, hopener, hcloser, hopen, hclose, hmatch, hstart, ?_⟩
  rw [hstop, hcloser, Option.getD_some]

namespace Forest

/-- Regions that are numbered in the order of their opening braces, all before token `i`. -/
structure Numbered (code : Code) (pairing : Pairing) (i : Nat) (regions : Array Region) : Prop where
  formed : ∀ r ∈ regions, r.Formed code pairing
  before : ∀ r ∈ regions, r.opening < i
  id_eq : ∀ (k : Nat) (r : Region), regions[k]? = some r → r.id = k
  ordered : regions.toList.Pairwise (·.opening < ·.opening)

namespace Numbered

variable {code : Code} {pairing : Pairing} {i : Nat} {regions : Array Region}

theorem empty : Numbered code pairing 0 #[] := ⟨by simp, by simp, by simp, by simp⟩

/-- A token that opens no region keeps the numbering. -/
theorem mono (h : Numbered code pairing i regions) : Numbered code pairing (i + 1) regions :=
  ⟨h.formed, fun r hr => Nat.lt_succ_of_lt (h.before r hr), h.id_eq, h.ordered⟩

/-- A region pushed gets the next number. -/
theorem push (h : Numbered code pairing i regions) {r : Region} (hformed : r.Formed code pairing)
    (hopening : r.opening = i) (hid : r.id = regions.size) :
    Numbered code pairing (i + 1) (regions.push r) := by
  refine ⟨fun q hq => ?_, fun q hq => ?_, fun k q hq => ?_, ?_⟩
  · rcases Array.mem_push.mp hq with hq | rfl
    · exact h.formed q hq
    · exact hformed
  · rcases Array.mem_push.mp hq with hq | rfl
    · exact Nat.lt_succ_of_lt (h.before q hq)
    · omega
  · rw [Array.getElem?_push] at hq
    split_ifs at hq with hk
    · cases hq
      rw [hid, hk]
    · exact h.id_eq k q hq
  · rw [Array.toList_push, List.pairwise_append]
    refine ⟨h.ordered, by simp, fun q hq p hp => ?_⟩
    rw [List.mem_singleton] at hp
    rw [hp, hopening]
    exact h.before q (Array.mem_toList_iff.mp hq)

end Numbered

/-- One token keeps the regions numbered. -/
theorem step_numbered {code : Code} {pairing : Pairing} {g : Growth} {i : Nat} {t : Token}
    (h : Numbered code pairing i g.regions) (ht : code[i]? = some t) :
    Numbered code pairing (i + 1) (g.step code pairing i t).regions := by
  rw [Growth.step]
  split_ifs with hopen
  · exact h.push ⟨t, ht, by simpa using hopen, rfl, rfl, rfl⟩ rfl rfl
  · exact h.mono
  · exact h.mono

/-- The regions are numbered after every token. -/
theorem growFrom_numbered {code : Code} {pairing : Pairing} {tokens : List Token} {g : Growth}
    {i : Nat} (htokens : code.Holds i tokens)
    (h : Numbered code pairing i g.regions) :
    Numbered code pairing (i + tokens.length) (growFrom code pairing i g tokens).regions := by
  induction tokens generalizing i g with
  | nil => exact h
  | cons t rest ih =>
    have := ih htokens.tail (step_numbered h htokens.head)
    rwa [growFrom, List.length_cons, show i + (rest.length + 1) = i + 1 + rest.length by omega]

/-- **The regions of a file are those of its braces**, in order. -/
theorem ofCode_numbered (code : Code) (pairing : Pairing) :
    Numbered code pairing code.size (ofCode code pairing).regions := by
  have := @growFrom_numbered code pairing code.toList {} 0 (.whole code) .empty
  rw [ofCode]
  simpa using this

/-! ## Parents follow the word of braces -/

/-- A brace, and whether it opens. -/
def brace? (t : Token) : Option Bool :=
  if t.opening? == some .curly then some true
  else if t.closing? == some .curly then some false
  else none

/-- The word of braces among tokens. -/
def braces (tokens : List Token) : List Bool := tokens.filterMap brace?

/-- The parents of the regions that a word of braces opens, given the number of regions so far and
those that are open, innermost first. -/
def parentsFrom : (count : Nat) → (pending : List Nat) → List Bool → List (Option Nat)
  | _, _, [] => []
  | count, pending, true :: word => pending.head? :: parentsFrom (count + 1) (count :: pending) word
  | count, pending, false :: word => parentsFrom count pending.tail word

/-- The parents of the regions are told by the braces alone. -/
theorem map_parent_growFrom (code : Code) (pairing : Pairing) (tokens : List Token) (g : Growth)
    (i : Nat) : (growFrom code pairing i g tokens).regions.toList.map (·.parent) =
      g.regions.toList.map (·.parent) ++ parentsFrom g.regions.size g.pending (braces tokens) := by
  induction tokens generalizing i g with
  | nil => simp [growFrom, braces, parentsFrom]
  | cons t rest ih =>
    rw [growFrom, ih, Growth.step, braces, braces, List.filterMap_cons, brace?]
    split_ifs with hopen hclose
    · simp only [Array.toList_push, List.map_append, List.map_cons, List.map_nil,
        Array.size_push, parentsFrom, List.append_assoc, List.cons_append, List.nil_append]
    · rfl
    · rfl

/-- **Who is whose parent is read off the braces.** -/
theorem map_parent_regions (code : Code) (pairing : Pairing) :
    (ofCode code pairing).toList.map (·.parent) = parentsFrom 0 [] (braces code.toList) := by
  rw [ofCode, toList, map_parent_growFrom]
  rfl

/-! ## One region per opening brace -/

/-- The indices of the opening braces among tokens that start at index `i`. -/
def openingsFrom : (i : Nat) → List Token → List Nat
  | _, [] => []
  | i, t :: rest =>
    if t.opening? == some .curly then i :: openingsFrom (i + 1) rest else openingsFrom (i + 1) rest

theorem openingsFrom_append (i : Nat) (u w : List Token) :
    openingsFrom i (u ++ w) = openingsFrom i u ++ openingsFrom (i + u.length) w := by
  induction u generalizing i with
  | nil => rfl
  | cons t rest ih =>
    rw [List.cons_append, openingsFrom, openingsFrom, ih, List.length_cons,
      show i + 1 + rest.length = i + (rest.length + 1) by omega]
    split_ifs <;> rfl

/-- The word of braces tells how many open. -/
theorem length_openingsFrom (i : Nat) (tokens : List Token) :
    (openingsFrom i tokens).length = (braces tokens).count true := by
  induction tokens generalizing i with
  | nil => rfl
  | cons t rest ih =>
    rw [openingsFrom, braces, List.filterMap_cons, brace?]
    split_ifs with hopen hclose
    · rw [List.length_cons, ih, List.count_cons_self]
      rfl
    · rw [ih, List.count_cons_of_ne (by decide)]
      rfl
    · exact ih (i + 1)

/-- The regions open at the opening braces, in order. -/
theorem map_opening_growFrom (code : Code) (pairing : Pairing) (tokens : List Token) (g : Growth)
    (i : Nat) : (growFrom code pairing i g tokens).regions.toList.map (·.opening) =
      g.regions.toList.map (·.opening) ++ openingsFrom i tokens := by
  induction tokens generalizing i g with
  | nil => simp [growFrom, openingsFrom]
  | cons t rest ih =>
    rw [growFrom, ih, Growth.step, openingsFrom]
    split_ifs with hopen hclose
    · simp only [Array.toList_push, List.map_append, List.map_cons, List.map_nil,
        List.append_assoc, List.cons_append, List.nil_append]
    · rfl
    · rfl

/-- **There is one region per opening brace**, in order. -/
theorem map_opening_regions (code : Code) (pairing : Pairing) :
    (ofCode code pairing).toList.map (·.opening) = openingsFrom 0 code.toList := by
  rw [ofCode, toList, map_opening_growFrom]
  rfl

/-- A region's number is that of the opening braces before its own. -/
theorem getElem?_regions {code : Code} (pairing : Pairing) {u w : List Token} {t : Token}
    (hcode : code.toList = u ++ t :: w) (ht : t.opening? = some .curly) :
    ∃ r, (ofCode code pairing).regions[(braces u).count true]? = some r ∧ r.opening = u.length := by
  have hopenings := map_opening_regions code pairing
  rw [hcode, openingsFrom_append, openingsFrom, ht, beq_self_eq_true, if_pos rfl,
    Nat.zero_add] at hopenings
  have hget := congrArg (·[(openingsFrom 0 u).length]?) hopenings
  rw [List.getElem?_map, List.getElem?_append_right (Nat.le_refl _), Nat.sub_self,
    List.getElem?_cons_zero, length_openingsFrom, toList, Array.getElem?_toList] at hget
  exact Option.map_eq_some_iff.mp hget

/-! ## What the first tokens add -/

/-- Regions grow over two stretches one after the other. -/
theorem growFrom_append (code : Code) (pairing : Pairing) (i : Nat) (g : Growth)
    (u w : List Token) :
    growFrom code pairing i g (u ++ w) =
      growFrom code pairing (i + u.length) (growFrom code pairing i g u) w := by
  induction u generalizing i g with
  | nil => rfl
  | cons t u ih =>
    rw [List.cons_append, growFrom, ih, growFrom, List.length_cons,
      show i + 1 + u.length = i + (u.length + 1) by omega]

/-- The tokens from index `i` on only add regions that open there. -/
theorem exists_later (code : Code) (pairing : Pairing) (i : Nat) (g : Growth)
    (tokens : List Token) :
    ∃ later, (growFrom code pairing i g tokens).regions.toList = g.regions.toList ++ later ∧
      ∀ r ∈ later, i ≤ r.opening := by
  induction tokens generalizing i g with
  | nil => exact ⟨[], by simp [growFrom], by simp⟩
  | cons t rest ih =>
    obtain ⟨later, hlater, hopening⟩ := ih (i + 1) (g.step code pairing i t)
    have hrest : ∀ r ∈ later, i ≤ r.opening := fun r hr => Nat.le_of_succ_le (hopening r hr)
    rw [growFrom, hlater, Growth.step]
    split_ifs
    · rw [Array.toList_push, List.append_assoc]
      refine ⟨_, rfl, fun r hr => ?_⟩
      rcases List.mem_append.mp hr with hr | hr
      · obtain rfl := List.mem_singleton.mp hr
        exact Nat.le_refl i
      · exact hrest r hr
    · exact ⟨later, rfl, hrest⟩
    · exact ⟨later, rfl, hrest⟩

/-- **The regions that open before token `n` are those grown from the first `n` tokens.** -/
theorem filter_opening_lt (code : Code) (pairing : Pairing) (n : Nat) :
    (ofCode code pairing).toList.filter (·.opening < n) =
      (growFrom code pairing 0 {} (code.toList.take n)).regions.toList := by
  have hsplit := growFrom_append code pairing 0 {} (code.toList.take n) (code.toList.drop n)
  rw [List.take_append_drop, Nat.zero_add] at hsplit
  obtain ⟨later, hlater, hopening⟩ := exists_later code pairing (code.toList.take n).length
    (growFrom code pairing 0 {} (code.toList.take n)) (code.toList.drop n)
  have hfirst : ∀ r ∈ (growFrom code pairing 0 {} (code.toList.take n)).regions.toList,
      r.opening < n := by
    intro r hr
    have hnumbered :=
      @growFrom_numbered code pairing (code.toList.take n) {} 0 (.take code n) .empty
    have := hnumbered.before r (Array.mem_toList_iff.mp hr)
    rw [List.length_take] at this
    omega
  rw [← hsplit] at hlater
  rw [ofCode, toList, hlater, List.filter_append, List.filter_eq_self.mpr (by simpa using hfirst),
    List.filter_eq_nil_iff.mpr, List.append_nil]
  intro r hr
  have hle := hopening r hr
  have hmem : r ∈ (ofCode code pairing).regions := by
    rw [ofCode, ← Array.mem_toList_iff, hlater]
    exact List.mem_append_right _ hr
  have hlt := (ofCode_numbered code pairing).before r hmem
  rw [List.length_take, Array.length_toList] at hle
  simpa using (by omega : n ≤ r.opening)

end Forest

end Quell
