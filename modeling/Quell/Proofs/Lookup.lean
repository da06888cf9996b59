import Mathlib.Algebra.BigOperators.Group.Finset.Basic
import Mathlib.Algebra.Ring.Int.Defs
import Quell.Proofs.Legible
import Quell.Proofs.Nesting

/-!
# Proofs/Lookup — a declaration in a scope around its use is found

The tokens directly in a scope are those whose innermost region it is (`mem_directTokens_iff`).  The
scan over them counts parentheses and brackets; partners stand in the same scope, so up to a token
that no group of the scope holds they cancel (`sum_sway_eq_zero`) and the scan tries the declaration
there.  The climb through the regions around the use reaches the scope with a limit that still lies
after the declaration.
-/

namespace Quell

/-! ## The tokens directly in a scope -/

/-- Regions that lie one after the other, from `start` on and before `stop`. -/
structure InRow (start stop : Nat) (regions : List Region) : Prop where
  start_le : ∀ q ∈ regions, start ≤ q.opening
  le_closing : ∀ q ∈ regions, q.opening ≤ q.closing
  lt_stop : ∀ q ∈ regions, q.closing < stop
  apart : regions.Pairwise (·.closing < ·.opening)

namespace InRow

variable {start stop i : Nat} {r : Region} {rest regions : List Region}

theorem tail (h : InRow start stop (r :: rest)) : InRow (r.closing + 1) stop rest where
  start_le := (List.pairwise_cons.mp h.apart).1
  le_closing q hq := h.le_closing q (List.mem_cons_of_mem r hq)
  lt_stop q hq := h.lt_stop q (List.mem_cons_of_mem r hq)
  apart := (List.pairwise_cons.mp h.apart).2

/-- The gaps of a row are that before its first region and those of the rest. -/
theorem flatMap_gapsFrom_cons (r : Region) (rest : List Region) :
    (Outline.gapsFrom stop start (r :: rest)).flatMap (·.indices) =
      (Slice.mk start r.opening).indices ++
        (Outline.gapsFrom stop (r.closing + 1) rest).flatMap (·.indices) := by
  rw [Outline.gapsFrom]
  split_ifs with hlt
  · rw [List.flatMap_cons]
  · rw [Slice.indices, Slice.size, show r.opening - start = 0 by omega]
    rfl

theorem flatMap_gapsFrom_nil :
    (Outline.gapsFrom stop start []).flatMap (·.indices) = (Slice.mk start stop).indices := by
  rw [Outline.gapsFrom]
  split_ifs with hlt
  · rw [List.flatMap_singleton]
  · rw [Slice.indices, Slice.size, show stop - start = 0 by omega]
    rfl

/-- A token in one of the gaps stands in the bounds and in none of the regions. -/
theorem mem_gaps_iff (h : InRow start stop regions) :
    i ∈ (Outline.gapsFrom stop start regions).flatMap (·.indices) ↔
      start ≤ i ∧ i < stop ∧ ∀ q ∈ regions, i < q.opening ∨ q.closing < i := by
  induction regions generalizing start with
  | nil => simp [flatMap_gapsFrom_nil, Slice.mem_indices]
  | cons r rest ih =>
    have hr := h.start_le r List.mem_cons_self
    have hle := h.le_closing r List.mem_cons_self
    have hlt := h.lt_stop r List.mem_cons_self
    rw [flatMap_gapsFrom_cons, List.mem_append, Slice.mem_indices, ih h.tail]
    simp only [List.forall_mem_cons]
    constructor
    · rintro (⟨hstart, hi⟩ | ⟨hi, hstop, hout⟩)
      · refine ⟨hstart, by omega, .inl hi, fun q hq => .inl ?_⟩
        have := h.tail.start_le q hq
        omega
      · exact ⟨by omega, hstop, .inr hi, hout⟩
    · rintro ⟨hstart, hstop, hbefore | hafter, hout⟩
      · exact .inl ⟨hstart, hbefore⟩
      · exact .inr ⟨hafter, hstop, hout⟩

/-- The gaps are in order. -/
theorem pairwise_gaps (h : InRow start stop regions) :
    ((Outline.gapsFrom stop start regions).flatMap (·.indices)).Pairwise (· < ·) := by
  induction regions generalizing start with
  | nil =>
    rw [flatMap_gapsFrom_nil]
    exact List.pairwise_lt_range'
  | cons r rest ih =>
    rw [flatMap_gapsFrom_cons, List.pairwise_append]
    refine ⟨List.pairwise_lt_range', ih h.tail, fun i hi j hj => ?_⟩
    have := (Slice.mem_indices.mp hi).2
    have := (h.tail.mem_gaps_iff.mp hj).1
    have := h.le_closing r List.mem_cons_self
    dsimp only at *
    omega

end InRow

namespace Outline.Valid

variable {o : Outline} (h : o.Valid) {scope : Option Region}

include h

/-- The regions directly in a scope lie in a row. -/
theorem inRow_children (hscope : ∀ l ∈ scope, l ∈ o.forest.toList) :
    InRow (o.floor (scope.map (·.id))) ((scope.map (·.closing)).getD o.code.size)
      (o.forest.childrenOf (scope.map (·.id))) where
  start_le q hq := by
    obtain ⟨hmem, hparent⟩ := Forest.mem_childrenOf_iff.mp hq
    cases scope with
    | none => exact Nat.zero_le _
    | some r =>
      rw [Option.map_some, Outline.floor, h.get?_id (hscope r rfl)]
      exact (h.encloses_of_parent (hscope r rfl) hmem hparent).1.1
  le_closing q hq := Nat.le_of_lt (h.matched (Forest.mem_childrenOf_iff.mp hq).1).1
  lt_stop q hq := by
    obtain ⟨hmem, hparent⟩ := Forest.mem_childrenOf_iff.mp hq
    cases scope with
    | none => simpa using (h.matched hmem).lt_length
    | some r => exact (h.encloses_of_parent (hscope r rfl) hmem hparent).1.2
  apart := by
    refine (h.numbered.ordered.filter _).imp_of_mem fun {c d} hc hd hlt => ?_
    have hcmem := (Forest.mem_childrenOf_iff.mp hc).1
    have hdmem := (Forest.mem_childrenOf_iff.mp hd).1
    have hclose := (h.matched hdmem).1
    rcases h.laminar hcmem hdmem (by rintro rfl; omega) with (hapart | hapart) | hin | hin
    · exact hapart
    · omega
    · exact absurd hin (h.not_encloses_of_siblings hc hd)
    · have := hin.1
      omega

/-- The direct runs of a scope are the gaps between its children. -/
theorem direct_eq (hscope : ∀ l ∈ scope, l ∈ o.forest.toList) :
    o.direct (scope.map (·.id)) =
      gapsFrom ((scope.map (·.closing)).getD o.code.size) (o.floor (scope.map (·.id)))
        (o.forest.childrenOf (scope.map (·.id))) := by
  cases scope with
  | none => rfl
  | some r => simp [direct, floor, h.get?_id (hscope r rfl), Region.inner]

/-- The direct tokens of a scope are those in the gaps. -/
theorem directTokens_eq (hscope : ∀ l ∈ scope, l ∈ o.forest.toList) :
    o.directTokens (scope.map (·.id)) =
      (gapsFrom ((scope.map (·.closing)).getD o.code.size) (o.floor (scope.map (·.id)))
        (o.forest.childrenOf (scope.map (·.id)))).flatMap (·.indices) := by
  rw [directTokens, h.direct_eq hscope]

theorem pairwise_directTokens (hscope : ∀ l ∈ scope, l ∈ o.forest.toList) :
    (o.directTokens (scope.map (·.id))).Pairwise (· < ·) := by
  rw [h.directTokens_eq hscope]
  exact (h.inRow_children hscope).pairwise_gaps

/-- A token that is no brace stands before a region, in it or after it. -/
theorem not_contains_iff {q : Region} (hq : q ∈ o.forest.toList) {i : Nat}
    (hopen : o.code.mark i "\x7b" = false) (hclose : o.code.mark i "\x7d" = false) :
    q.contains i = false ↔ i < q.opening ∨ q.closing < i := by
  have hne : q.opening ≠ i := h.opening_ne hq hopen
  have hne' : q.closing ≠ i := by
    rintro rfl
    exact Bool.false_ne_true (hclose.symm.trans (h.mark_closing hq))
  rw [← Bool.not_eq_true, Region.contains_iff]
  omega

/-- A token in no child of a scope is in no region that the scope encloses. -/
theorem forall_childrenOf_iff (hscope : ∀ l ∈ scope, l ∈ o.forest.toList) {i : Nat} :
    (∀ q ∈ o.forest.childrenOf (scope.map (·.id)), q.contains i = false) ↔
      ∀ q ∈ o.forest.toList, (∀ l ∈ scope, l.Encloses q) → q.contains i = false := by
  constructor
  · intro hout q hq hin
    by_contra hcontains
    obtain ⟨c, hc, hci⟩ := h.exists_child hscope hq hin (by simpa using hcontains)
    rw [hout c hc] at hci
    cases hci
  · intro hout q hq
    obtain ⟨hmem, hparent⟩ := Forest.mem_childrenOf_iff.mp hq
    refine hout q hmem fun l hl => ?_
    rw [Option.mem_def.mp hl] at hparent
    exact (h.encloses_of_parent (hscope l hl) hmem hparent).1

/-- **The tokens directly in a scope are those whose innermost region it is**, braces aside. -/
theorem mem_directTokens_iff (hscope : ∀ l ∈ scope, l ∈ o.forest.toList) {i : Nat}
    (hopen : o.code.mark i "\x7b" = false) (hclose : o.code.mark i "\x7d" = false) :
    i ∈ o.directTokens (scope.map (·.id)) ↔ i < o.code.size ∧ o.forest.innermost? i = scope := by
  have hchildren : (∀ q ∈ o.forest.childrenOf (scope.map (·.id)), i < q.opening ∨ q.closing < i) ↔
      ∀ q ∈ o.forest.childrenOf (scope.map (·.id)), q.contains i = false :=
    forall₂_congr fun q hq =>
      (h.not_contains_iff (Forest.mem_childrenOf_iff.mp hq).1 hopen hclose).symm
  rw [h.directTokens_eq hscope, (h.inRow_children hscope).mem_gaps_iff, hchildren,
    h.forall_childrenOf_iff hscope]
  cases scope with
  | none =>
    rw [h.innermost?_eq_none_iff]
    simp [floor]
  | some r =>
    have hr := hscope r rfl
    have hsize : r.closing < o.code.size := by simpa using (h.matched hr).lt_length
    have hfloor : o.floor (some r.id) = r.opening + 1 := by
      rw [floor, h.get?_id hr]
      rfl
    rw [h.innermost?_eq_some_iff, Region.contains_iff, Option.map_some, Option.map_some, hfloor,
      Option.getD_some]
    constructor
    · rintro ⟨hlow, hhigh, hout⟩
      refine ⟨by omega, hr, ⟨hlow, hhigh⟩, fun q hq hqi => ?_⟩
      by_contra hlt
      have hri := Region.contains_iff.mpr ⟨hlow, hhigh⟩
      have hencloses := h.encloses_of_contains hr hq hri hqi (by omega)
      rw [hout q hq (by simpa using hencloses)] at hqi
      cases hqi
    · rintro ⟨-, -, ⟨hlow, hhigh⟩, hlast⟩
      refine ⟨hlow, hhigh, fun q hq hin => ?_⟩
      by_contra hqi
      have := hlast q hq (by simpa using hqi)
      have := (hin r rfl).1
      omega

end Outline.Valid

/-! ## Parentheses and brackets cancel -/

/-- What a token adds to the depth in parentheses and brackets. -/
def Code.sway (code : Code) (i : Nat) : Int :=
  if code.has i (·.isMarkIn ["(", "["]) then 1
  else if code.has i (·.isMarkIn [")", "]"]) then -1
  else 0

/-- A mark of parentheses or brackets, on one side of the group. -/
theorem Code.has_groupMark_iff {code : Code} {i : Nat} (side : Bracket → String) :
    code.has i (·.isMarkIn [side .round, side .square]) = true ↔
      ∃ shape, shape ≠ .curly ∧ code.mark i (side shape) = true := by
  rw [has_isMarkIn_iff]
  constructor
  · rintro ⟨word, hword, hmark⟩
    rcases List.mem_pair.mp hword with rfl | rfl
    · exact ⟨.round, by decide, hmark⟩
    · exact ⟨.square, by decide, hmark⟩
  · rintro ⟨shape, hshape, hmark⟩
    cases shape with
    | round => exact ⟨_, List.mem_cons_self, hmark⟩
    | square => exact ⟨_, List.mem_cons_of_mem _ List.mem_cons_self, hmark⟩
    | curly => exact absurd rfl hshape

/-- What goes one level deeper is an opening bracket that is no brace. -/
theorem Code.opens_iff {code : Code} {i : Nat} : code.has i (·.isMarkIn ["(", "["]) = true ↔
    ∃ shape, shape ≠ .curly ∧ code.mark i (Bracket.opener shape) = true :=
  has_groupMark_iff Bracket.opener

theorem Code.closes_iff {code : Code} {i : Nat} : code.has i (·.isMarkIn [")", "]"]) = true ↔
    ∃ shape, shape ≠ .curly ∧ code.mark i (Bracket.closer shape) = true :=
  has_groupMark_iff Bracket.closer

theorem Code.sway_of_opens {code : Code} {i : Nat}
    (h : code.has i (·.isMarkIn ["(", "["]) = true) : code.sway i = 1 := if_pos h

theorem Code.sway_of_closes {code : Code} {i : Nat}
    (h : code.has i (·.isMarkIn [")", "]"]) = true) : code.sway i = -1 := by
  rw [sway, if_neg, if_pos h]
  rw [opens_iff]
  rintro ⟨shape, -, hopen⟩
  obtain ⟨other, -, hclose⟩ := closes_iff.mp h
  refine Bool.false_ne_true ((mark_eq_false hopen ?_).symm.trans hclose)
  cases shape <;> cases other <;> decide

/-- What changes the depth is a bracket that is no brace. -/
theorem Code.opens_or_closes {code : Code} {i : Nat} (h : code.sway i ≠ 0) :
    code.has i (·.isMarkIn ["(", "["]) = true ∨ code.has i (·.isMarkIn [")", "]"]) = true := by
  rw [sway] at h
  split_ifs at h with hopen hclose
  · exact .inl hopen
  · exact .inr hclose
  · exact absurd rfl h

/-- A name leaves the depth as it is. -/
theorem Code.sway_eq_zero {code : Code} {i : Nat} (h : code.nameAt i = true) :
    code.sway i = 0 := by
  rw [sway, has_isMarkIn_of_nameAt h, has_isMarkIn_of_nameAt h]
  rfl

/-- Token `i` stands in parentheses or brackets that open directly in the scope. -/
def Outline.InGroup (o : Outline) (scope : Option Region) (i : Nat) : Prop :=
  ∃ opening < i, o.code.has opening (·.isMarkIn ["(", "["]) = true ∧
    o.forest.innermost? opening = scope ∧ ∃ closing ∈ o.pairing.partner opening, i < closing

instance (o : Outline) (scope : Option Region) (i : Nat) : Decidable (o.InGroup scope i) :=
  inferInstanceAs (Decidable (∃ opening < i, _))

namespace Outline.Valid

variable {o : Outline} (h : o.Valid) {scope : Option Region} {i j : Nat}

include h

/-- **A group in parentheses or brackets adds as much to the depth as it takes away.** -/
theorem exists_counter (hsway : o.code.sway i ≠ 0) :
    ∃ j, o.pairing.partner i = some j ∧ o.code.sway i + o.code.sway j = 0 ∧
      (i < j → o.code.has i (·.isMarkIn ["(", "["]) = true) := by
  rcases Code.opens_or_closes hsway with hopen | hclose
  · obtain ⟨shape, hshape, hmark⟩ := Code.opens_iff.mp hopen
    obtain ⟨j, hpartner, -, hcloser⟩ := h.exists_closing shape hmark
    refine ⟨j, hpartner, ?_, fun _ => hopen⟩
    rw [Code.sway_of_opens hopen,
      Code.sway_of_closes (Code.closes_iff.mpr ⟨shape, hshape, hcloser⟩)]
    rfl
  · obtain ⟨shape, hshape, hmark⟩ := Code.closes_iff.mp hclose
    obtain ⟨j, hpartner, hlt, hopener⟩ := h.exists_opening shape hmark
    refine ⟨j, hpartner, ?_, fun hafter => absurd hafter (Nat.lt_asymm hlt)⟩
    rw [Code.sway_of_closes hclose,
      Code.sway_of_opens (Code.opens_iff.mpr ⟨shape, hshape, hopener⟩)]
    rfl

/-- Tokens in the same regions have the same innermost region. -/
theorem innermost?_congr (hsame : ∀ q ∈ o.forest.toList, q.contains i = q.contains j) :
    o.forest.innermost? i = o.forest.innermost? j := by
  refine Option.ext fun r => ?_
  rw [h.innermost?_eq_some_iff, h.innermost?_eq_some_iff]
  refine and_congr_right fun hr => ?_
  rw [hsame r hr]
  exact and_congr_right fun _ => forall₂_congr fun q hq => by rw [hsame q hq]

/-- Partners stand in the same scope. -/
theorem innermost?_partner (hpartner : o.pairing.partner i = some j) :
    o.forest.innermost? i = o.forest.innermost? j := by
  have key : ∀ {i j : Nat} {q : Region}, q ∈ o.forest.toList → o.pairing.partner i = some j →
      q.contains i = true → q.contains j = true := by
    intro i j q hq hpartner hcontains
    obtain ⟨-, -, -, -, -, -, hbraces, -⟩ := h.nested.spans q hq
    rw [Region.contains_iff] at hcontains ⊢
    exact h.partnered.uncrossed _ _ _ _ hbraces hpartner hcontains.1 hcontains.2
  refine h.innermost?_congr fun q hq => Bool.eq_iff_iff.mpr ⟨key hq hpartner, key hq ?_⟩
  exact h.partnered.symm i j hpartner

/-- A token that counts for the depth is no brace. -/
theorem mem_directTokens_of_sway (hscope : ∀ l ∈ scope, l ∈ o.forest.toList)
    (hsway : o.code.sway i ≠ 0) :
    i ∈ o.directTokens (scope.map (·.id)) ↔ o.forest.innermost? i = scope := by
  obtain ⟨word, hword, hmark⟩ : ∃ word ∈ ["(", "[", ")", "]"], o.code.mark i word = true := by
    rcases Code.opens_or_closes hsway with hopen | hclose
    · obtain ⟨word, hword, hmark⟩ := Code.has_isMarkIn_iff.mp hopen
      exact ⟨word, List.mem_append_left [")", "]"] hword, hmark⟩
    · obtain ⟨word, hword, hmark⟩ := Code.has_isMarkIn_iff.mp hclose
      exact ⟨word, List.mem_append_right ["(", "["] hword, hmark⟩
  have hne : ∀ word ∈ ["(", "[", ")", "]"], utf8 word ≠ utf8 "\x7b" ∧ utf8 word ≠ utf8 "\x7d" := by
    decide
  rw [h.mem_directTokens_iff hscope (Code.mark_eq_false hmark (hne word hword).1)
    (Code.mark_eq_false hmark (hne word hword).2)]
  refine and_iff_right ?_
  obtain ⟨t, ht, -⟩ := (Option.any_eq_true _ _).mp hmark
  exact (Array.getElem?_eq_some_iff.mp ht).1

/-- **Before a token that no group of the scope holds, the groups of the scope cancel.** -/
theorem sum_sway_eq_zero (hscope : ∀ l ∈ scope, l ∈ o.forest.toList) {u w : List Nat} {d : Nat}
    (hsplit : o.directTokens (scope.map (·.id)) = u ++ d :: w) (hd : o.code.sway d = 0)
    (hout : ¬o.InGroup scope d) : (u.map o.code.sway).sum = 0 := by
  have hsorted := h.pairwise_directTokens hscope
  rw [hsplit, List.pairwise_append, List.pairwise_cons] at hsorted
  obtain ⟨hu, ⟨hafter, -⟩, hbefore⟩ := hsorted
  have hmem : ∀ i, o.code.sway i ≠ 0 → (i ∈ u ↔ i < d ∧ o.forest.innermost? i = scope) := by
    intro i hsway
    rw [← h.mem_directTokens_of_sway hscope hsway, hsplit, List.mem_append, List.mem_cons]
    constructor
    · exact fun hi => ⟨hbefore i hi d List.mem_cons_self, .inl hi⟩
    · rintro ⟨hlt, hi | rfl | hi⟩
      · exact hi
      · exact absurd hlt (Nat.lt_irrefl i)
      · exact absurd (hafter i hi) (Nat.lt_asymm hlt)
  rw [← List.sum_toFinset _ (hu.imp Nat.ne_of_lt), ← Finset.sum_filter_ne_zero]
  -- Each end of a group is sent to the other one.
  refine Finset.sum_involution (fun i _ => (o.pairing.partner i).getD i) ?_ ?_ ?_ ?_
  all_goals
    intro i hi
    obtain ⟨hi, hsway⟩ := Finset.mem_filter.mp hi
    rw [List.mem_toFinset] at hi
    obtain ⟨j, hpartner, hcancel, hopens⟩ := h.exists_counter hsway
    simp only [hpartner, Option.getD_some]
  · exact hcancel
  · rintro - rfl
    omega
  · obtain ⟨hlt, hin⟩ := (hmem i hsway).mp hi
    have hsway' : o.code.sway j ≠ 0 := by omega
    rw [Finset.mem_filter, List.mem_toFinset, hmem j hsway', ← h.innermost?_partner hpartner]
    refine ⟨⟨?_, hin⟩, hsway'⟩
    by_contra hge
    have hne : j ≠ d := by
      rintro rfl
      exact hsway' hd
    exact hout ⟨i, hlt, hopens (by omega), hin, j, hpartner, by omega⟩
  · rw [h.partnered.symm i j hpartner, Option.getD_some]

end Outline.Valid

/-! ## The scan over one scope -/

namespace Operand

variable {o : Outline} {name : String} {floor limit i d : Nat}

/-- One token moves the depth, and loses no declaration further on. -/
theorem mem_declaredFrom_cons {depth : Int} {rest : List Nat} {type : DeclaredType}
    (h : type ∈ declaredFrom o floor name (depth + o.code.sway i) rest) :
    type ∈ declaredFrom o floor name depth (i :: rest) := by
  rw [declaredFrom]
  rw [Code.sway] at h
  split_ifs at h ⊢ with hopen hclose hname
  · exact h
  · exact h
  · rw [Int.add_zero] at h
    cases Declaration.declarationAt? o.code o.pairing i floor .statement with
    | none => exact h
    | some found => exact List.mem_cons_of_mem found.type h
  · rwa [Int.add_zero] at h

theorem nameAt_of_spells (h : o.code.has i (fun t => t.isName && t.spells name) = true) :
    o.code.nameAt i = true := by
  obtain ⟨t, ht, hspells⟩ := (Option.any_eq_true _ _).mp h
  rw [Code.nameAt, Code.has, ht, Option.any_some]
  exact (Bool.and_eq_true_iff.mp hspells).1

/-- **A declaration at depth zero is among those found.** -/
theorem mem_declaredFrom {depth : Int} {u w : List Nat} {found : LocalDecl}
    (hdepth : depth + (u.map o.code.sway).sum = 0)
    (hname : o.code.has d (fun t => t.isName && t.spells name) = true)
    (hfound : Declaration.declarationAt? o.code o.pairing d floor .statement = some found) :
    found.type ∈ declaredFrom o floor name depth (u ++ d :: w) := by
  induction u generalizing depth with
  | nil =>
    have hzero : depth = 0 := by simpa using hdepth
    have hmark := Code.has_isMarkIn_of_nameAt (nameAt_of_spells hname)
    rw [List.nil_append, declaredFrom, hmark, hmark, if_neg Bool.false_ne_true,
      if_neg Bool.false_ne_true, if_pos (by simp [hzero, hname]), hfound]
    exact List.mem_cons_self
  | cons i u ih =>
    rw [List.map_cons, List.sum_cons] at hdepth
    exact mem_declaredFrom_cons (ih (by omega))

/-- The declaration of a name directly in a scope. -/
def inScope? (o : Outline) (name : String) (limit : Nat) : Option Region → Option DeclaredType
  | none => lastBefore? o none name limit
  | some r => inRegion? o name limit r

/-- **The scan of a scope finds a declaration before the limit.** -/
theorem isSome_inScope? (h : o.Valid) {scope : Option Region}
    (hscope : ∀ r ∈ scope, r ∈ o.forest.toList)
    (henum : ∀ r ∈ scope, ∀ e, r.kind ≠ .enumBody e)
    (hname : o.code.has d (fun t => t.isName && t.spells name) = true)
    (hin : o.forest.innermost? d = scope) (hout : ¬o.InGroup scope d) (hlimit : d < limit)
    (hfound : (Declaration.declarationAt? o.code o.pairing d (o.floor (scope.map (·.id)))
      .statement).isSome = true) : (inScope? o name limit scope).isSome = true := by
  obtain ⟨found, hfound⟩ := Option.isSome_iff_exists.mp hfound
  obtain ⟨t, ht, -⟩ := (Option.any_eq_true _ _).mp hname
  have hword := nameAt_of_spells hname
  have hdirect : d ∈ o.directTokens (scope.map (·.id)) :=
    (h.mem_directTokens_iff hscope (Code.mark_of_nameAt hword _) (Code.mark_of_nameAt hword _)).mpr
      ⟨(Array.getElem?_eq_some_iff.mp ht).1, hin⟩
  obtain ⟨u, w, hsplit⟩ := List.append_of_mem hdirect
  have hsum : (0 : Int) + (u.map o.code.sway).sum = 0 := by
    rw [h.sum_sway_eq_zero hscope hsplit (Code.sway_eq_zero hword) hout, Int.add_zero]
  have hsorted := h.pairwise_directTokens hscope
  rw [hsplit, List.pairwise_append] at hsorted
  have hbefore : (o.directTokens (scope.map (·.id))).takeWhile (· < limit) =
      u ++ d :: w.takeWhile (· < limit) := by
    rw [hsplit, List.takeWhile_append_of_pos, List.takeWhile_cons_of_pos (by simpa using hlimit)]
    intro i hi
    have := hsorted.2.2 i hi d List.mem_cons_self
    exact decide_eq_true (by omega)
  have hlast : (lastBefore? o (scope.map (·.id)) name limit).isSome = true := by
    rw [lastBefore?, hbefore, List.getLast?_isSome]
    exact List.ne_nil_of_mem (mem_declaredFrom hsum hname hfound)
  cases scope with
  | none => exact hlast
  | some r =>
    rw [inScope?, inRegion?]
    split
    · rw [Option.map_some] at hsplit
      rw [memberOf?, hsplit, List.isSome_head?]
      exact List.ne_nil_of_mem (mem_declaredFrom hsum hname hfound)
    · exact absurd ‹_› (henum r rfl _)
    · exact hlast

/-! ## The climb through the regions -/

/-- A token of a scope that stands before `i` stands before every region of the scope around `i`. -/
theorem lt_opening (h : o.Valid) {scope : Option Region} (hword : o.code.nameAt d = true)
    (hin : o.forest.innermost? d = scope) (hbefore : d < i) {q : Region}
    (hq : q ∈ o.forest.toList) (hcontains : q.contains i = true)
    (hinside : ∀ r ∈ scope, r.opening < q.opening) : d < q.opening := by
  have hne := h.opening_ne hq (Code.mark_of_nameAt hword _)
  have hi := Region.contains_iff.mp hcontains
  have hout : q.contains d = false := by
    cases scope with
    | none => exact h.innermost?_eq_none_iff.mp hin q hq
    | some r =>
      rw [← Bool.not_eq_true]
      intro hqd
      have := (h.innermost?_eq_some_iff.mp hin).2.2 q hq hqd
      have := hinside r rfl
      omega
  rw [← Bool.not_eq_true, Region.contains_iff] at hout
  omega

/-- **The climb from a region reaches every scope around it**, with a limit after the token of the
scope. -/
theorem isSome_lookUp? (h : o.Valid) {scope : Option Region} (hword : o.code.nameAt d = true)
    (hin : o.forest.innermost? d = scope) (hbefore : d < i)
    (hfound : ∀ limit, d < limit → (inScope? o name limit scope).isSome = true) {q : Region}
    (hq : q ∈ o.forest.toList) (hcontains : q.contains i = true)
    (hscope : ∀ r ∈ scope, r ∈ o.forest.toList ∧ r.contains i = true ∧ r.opening ≤ q.opening)
    (hlimit : d < limit) : (lookUp? o name limit (o.forest.ancestors q.id)).isSome = true := by
  induction hn : q.id using Nat.strongRecOn generalizing q limit with
  | _ n ih =>
    subst hn
    rw [h.ancestors_eq hq, lookUp?]
    by_cases hhere : scope = some q
    · have := hfound limit hlimit
      rw [hhere, inScope?] at this
      simp [this]
    have hinside : ∀ r ∈ scope, r.opening < q.opening := by
      intro r hr
      obtain ⟨hmem, -, hle⟩ := hscope r hr
      refine Nat.lt_of_le_of_ne hle fun hsame => hhere ?_
      rw [← h.region_ext hmem hq hsame]
      exact hr
    have hnext : d < q.opening := lt_opening h hword hin hbefore hq hcontains hinside
    suffices houter :
        (lookUp? o name q.opening (q.parent.elim [] o.forest.ancestors)).isSome = true by
      simp [houter]
    have hencloses : ∀ r ∈ scope, r.Encloses q := fun r hr =>
      h.encloses_of_contains (hscope r hr).1 hq (hscope r hr).2.1 hcontains (hinside r hr)
    cases hparent : q.parent with
    | none =>
      cases scope with
      | none => exact hfound q.opening hnext
      | some r =>
        have hmem := (hscope r rfl).1
        exact absurd (hencloses r rfl) (h.not_encloses_of_parent_eq_none hq hparent hmem)
    | some p =>
      obtain ⟨outer, houter, rfl, -, houtside, hlast⟩ := h.exists_parent hq hparent
      have hi := Region.contains_iff.mp hcontains
      refine ih outer.id (h.parent_lt hq hparent) houter
        (Region.contains_iff.mpr ⟨houtside.1.trans hi.1, hi.2.trans houtside.2⟩)
        (fun r hr => ?_) hnext rfl
      obtain ⟨hmem, hri, -⟩ := hscope r hr
      exact ⟨hmem, hri, hlast r hmem (hencloses r hr)⟩

/-- **The climb from a use finds what every scope around it declares.** -/
theorem isSome_varType? (h : o.Valid) {scope : Option Region} (hword : o.code.nameAt d = true)
    (hin : o.forest.innermost? d = scope) (hbefore : d < i)
    (hfound : ∀ limit, d < limit → (inScope? o (o.code.name i) limit scope).isSome = true)
    (hscope : ∀ r ∈ scope, r.contains i = true) : (varType? o i).isSome = true := by
  have hmem : ∀ r ∈ scope, r ∈ o.forest.toList := fun r hr =>
    (h.innermost?_eq_some_iff.mp (hin.trans hr)).1
  rw [varType?, around]
  cases hinner : o.forest.innermost? i with
  | none =>
    cases scope with
    | none => exact hfound i hbefore
    | some r =>
      have := h.innermost?_eq_none_iff.mp hinner r (hmem r rfl)
      exact absurd ((hscope r rfl).symm.trans this) (by decide)
  | some q =>
    obtain ⟨hq, hcontains, hlast⟩ := h.innermost?_eq_some_iff.mp hinner
    exact isSome_lookUp? h hword hin hbefore hfound hq hcontains
      (fun r hr => ⟨hmem r hr, hscope r hr, hlast r (hmem r hr) (hscope r hr)⟩) hbefore

end Operand

/-- **Variables are found by their spelling.**  An earlier token with the bytes of a name, directly
in a scope around it that is no enum, in no group of that scope, and declared there by a statement,
gives the name a type, and so a switch on the name too; the bytes are those of a text. -/
theorem variables_found {source : Bytes} {o : Outline} (h : Outline.ofSource source = .ok o)
    {i d : Nat} {use earlier : Token} {name : String} {scope : Option Region}
    (huse : o.code[i]? = some use) (hname : use.isName = true) (htext : use.text = utf8 name)
    (hearlier : o.code[d]? = some earlier) (hsame : earlier.isName = true ∧ earlier.text = use.text)
    (hbefore : d < i) (hscope : ∀ r ∈ scope, r.contains i = true)
    (henum : ∀ r ∈ scope, ∀ e, r.kind ≠ .enumBody e) (hin : o.forest.innermost? d = scope)
    (hout : ¬o.InGroup scope d)
    (hdeclared : (Declaration.declarationAt? o.code o.pairing d (o.floor (scope.map (·.id)))
      .statement).isSome = true) :
    ∃ type, Operand.varType? o i = some type ∧ ∀ condition : Group,
      Label.stripParens o.code o.pairing condition.inner.size condition.inner = ⟨i, i + 1⟩ →
        Operand.typeOf o condition = .ok type := by
  have hvalid := (Outline.ofSource_eq_ok_iff_valid.mp h).2
  have hat : o.code.nameAt i = true := by
    rw [Code.nameAt, Code.has, huse, Option.any_some, hname]
  have hspelled : o.code.name i = name := by
    rw [Code.name, huse, Option.map_some, Option.getD_some, Token.name, htext, Utf8.legible_utf8]
  have hdname : o.code.has d (fun t => t.isName && t.spells name) = true := by
    rw [Code.has, hearlier, Option.any_some, hsame.1, Bool.true_and, Token.spells, hsame.2, htext,
      beq_self_eq_true]
  have hmem : ∀ r ∈ scope, r ∈ o.forest.toList := fun r hr =>
    (hvalid.innermost?_eq_some_iff.mp (hin.trans hr)).1
  have htype : (Operand.varType? o i).isSome = true := by
    refine Operand.isSome_varType? hvalid (Operand.nameAt_of_spells hdname) hin hbefore
      (fun limit hlimit => ?_) hscope
    rw [hspelled]
    exact Operand.isSome_inScope? hvalid hmem henum hdname hin hout hlimit hdeclared
  obtain ⟨type, htype⟩ := Option.isSome_iff_exists.mp htype
  refine ⟨type, htype, fun condition hstrip => ?_⟩
  have hone : (Slice.mk i (i + 1)).size = 1 := Nat.add_sub_cancel_left i 1
  rw [Operand.typeOf]
  simp only [hstrip]
  rw [if_pos (Bool.and_eq_true_iff.mpr ⟨decide_eq_true hone, hat⟩), htype]

/-- Past a block that declares the name too, and past a call: the declaration before the `if`. -/
theorem variables_found_outside :
    ∃ o r, Outline.ofSource (utf8 ("enum E \x7bA\x7d; void f() \x7b\x7bE é;\x7d g(p[0]); E é; "
        ++ "if (p) \x7bswitch ((é)) \x7bcase A:;\x7d\x7d\x7d")) = .ok o ∧
      o.code[35]? = some (Token.mk .identifier (utf8 "é") 62) ∧
      o.code[25]? = some (Token.mk .identifier (utf8 "é") 41) ∧
      r.kind = .functionBody ⟨"f", ⟨8, 9⟩, false⟩ ∧
      r.contains 35 = true ∧ o.forest.innermost? 25 = some r ∧ ¬o.InGroup (some r) 25 ∧
      (Declaration.declarationAt? o.code o.pairing 25 (o.floor (some r.id)) .statement).isSome ∧
      Label.stripParens o.code o.pairing 3 ⟨34, 37⟩ = ⟨35, 36⟩ ∧
      ∃ type, Operand.varType? o 35 = some type ∧ Operand.typeOf o ⟨33, 37⟩ = .ok type := by
  let r : Region := ⟨1, .functionBody ⟨"f", ⟨8, 9⟩, false⟩, 10, 45, 21, 79, none⟩
  obtain ⟨o, h, hdata⟩ := Outline.exists_ofSource
    (utf8 ("enum E \x7bA\x7d; void f() \x7b\x7bE é;\x7d g(p[0]); E é; "
        ++ "if (p) \x7bswitch ((é)) \x7bcase A:;\x7d\x7d\x7d"))
    (fun o => decide (o.code[35]? = some (Token.mk .identifier (utf8 "é") 62) ∧
      o.code[25]? = some (Token.mk .identifier (utf8 "é") 41) ∧ o.forest.innermost? 25 = some r ∧
      ¬o.InGroup (some r) 25 ∧
      (Declaration.declarationAt? o.code o.pairing 25 (o.floor (some r.id)) .statement).isSome ∧
      Label.stripParens o.code o.pairing 3 ⟨34, 37⟩ = ⟨35, 36⟩)) (a := true) (by decide +kernel)
  obtain ⟨huse, hearlier, hin, hout, hdeclared, hstrip⟩ := of_decide_eq_true hdata
  obtain ⟨type, htype, hswitch⟩ := variables_found h huse rfl rfl hearlier ⟨rfl, rfl⟩ (by decide)
    (by simp only [Option.mem_some_iff, forall_eq']; decide)
    (by simp only [Option.mem_some_iff, forall_eq']; nofun) hin hout hdeclared
  exact ⟨o, r, h, huse, hearlier, rfl, rfl, hin, hout, hdeclared, hstrip, type, htype,
    hswitch ⟨33, 37⟩ hstrip⟩

/-- A name with an ill-formed byte is declared, and not found. -/
theorem variable_not_found :
    ∃ o r, Outline.ofSource (utf8 "enum E \x7bA, B\x7d; void f() \x7bE " ++ 255 ::
        utf8 ";switch (" ++ 255 :: utf8 ") \x7bcase A:;\x7d\x7d") = .ok o ∧
      o.code[18]? = some (Token.mk .identifier [255] 37) ∧
      o.code[14]? = some (Token.mk .identifier [255] 27) ∧
      r.kind = .functionBody ⟨"f", ⟨10, 11⟩, false⟩ ∧ r.contains 18 = true ∧
      o.forest.innermost? 14 = some r ∧ ¬o.InGroup (some r) 14 ∧
      (Declaration.declarationAt? o.code o.pairing 14 (o.floor (some r.id)) .statement).isSome ∧
      Operand.varType? o 18 = none ∧
      Operand.typeOf o ⟨17, 19⟩ = .error (.undeclared "\\xff") := by
  let r : Region := ⟨1, .functionBody ⟨"f", ⟨10, 11⟩, false⟩, 12, 26, 24, 51, none⟩
  obtain ⟨o, h, hdata⟩ := Outline.exists_ofSource
    (utf8 "enum E \x7bA, B\x7d; void f() \x7bE " ++ 255 ::
        utf8 ";switch (" ++ 255 :: utf8 ") \x7bcase A:;\x7d\x7d")
    (fun o => decide (o.code[18]? = some (Token.mk .identifier [255] 37) ∧
      o.code[14]? = some (Token.mk .identifier [255] 27) ∧ o.forest.innermost? 14 = some r ∧
      ¬o.InGroup (some r) 14 ∧
      (Declaration.declarationAt? o.code o.pairing 14 (o.floor (some r.id)) .statement).isSome ∧
      Operand.varType? o 18 = none ∧
      Operand.typeOf o ⟨17, 19⟩ = .error (.undeclared "\\xff"))) (a := true) (by decide +kernel)
  obtain ⟨huse, hearlier, hin, hout, hdeclared, htype, hswitch⟩ := of_decide_eq_true hdata
  exact ⟨o, r, h, huse, hearlier, rfl, rfl, hin, hout, hdeclared, htype, hswitch⟩

end Quell
