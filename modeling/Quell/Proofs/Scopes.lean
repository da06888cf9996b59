import Quell.Proofs.Lookup

/-!
# Proofs/Scopes — the scopes of a file partition its tokens

The descent through the levels finds the last region to open around a token, and the gaps between
the regions directly in a scope hold exactly the tokens whose innermost region it is.  A brace is in
no gap: its region is directly in the scope or lies in one that is.  So every token but the braces
stands in one run of one scope (`scopes_partition`).
-/

namespace Quell

/-! ## The runs of a scope -/

/-- A gap holds a token. -/
theorem Outline.start_lt_of_mem_gapsFrom {start stop : Nat} {regions : List Region} {s : Slice}
    (hs : s ∈ gapsFrom stop start regions) : s.start < s.stop := by
  induction regions generalizing start with
  | nil =>
    rw [gapsFrom] at hs
    split_ifs at hs with hlt
    · rwa [List.mem_singleton.mp hs]
    · cases hs
  | cons r rest ih =>
    rw [gapsFrom] at hs
    split_ifs at hs with hlt
    · rcases List.mem_cons.mp hs with rfl | hs
      · exact hlt
      · exact ih hs
    · exact ih hs

namespace InRow

variable {start stop : Nat} {regions : List Region}

theorem le_start_of_mem_gapsFrom (h : InRow start stop regions) {s : Slice}
    (hs : s ∈ Outline.gapsFrom stop start regions) : start ≤ s.start := by
  have hindex : s.start ∈ (Outline.gapsFrom stop start regions).flatMap (·.indices) :=
    List.mem_flatMap.mpr ⟨s, hs, Slice.mem_indices.mpr
      ⟨Nat.le_refl _, Outline.start_lt_of_mem_gapsFrom hs⟩⟩
  exact (h.mem_gaps_iff.mp hindex).1

/-- Between two gaps stands a region. -/
theorem pairwise_gapsFrom (h : InRow start stop regions) :
    (Outline.gapsFrom stop start regions).Pairwise fun s t => s.stop < t.start := by
  induction regions generalizing start with
  | nil =>
    rw [Outline.gapsFrom]
    split_ifs
    · exact List.pairwise_singleton _ _
    · exact .nil
  | cons r rest ih =>
    rw [Outline.gapsFrom]
    split_ifs
    · refine List.pairwise_cons.mpr ⟨fun t ht => ?_, ih h.tail⟩
      have hafter := h.tail.le_start_of_mem_gapsFrom ht
      have hwide := h.le_closing r List.mem_cons_self
      dsimp only
      omega
    · exact ih h.tail

end InRow

namespace Outline

theorem mem_directTokens_iff_exists {o : Outline} {scope : Option Nat} {i : Nat} :
    i ∈ o.directTokens scope ↔ ∃ s ∈ o.direct scope, s.start ≤ i ∧ i < s.stop := by
  simp only [directTokens, List.mem_flatMap, Slice.mem_indices]

namespace Valid

variable {o : Outline} (h : o.Valid) {scope : Option Region} {i : Nat}

include h

/-- A scope is told by its number. -/
theorem bind_get?_id (hscope : ∀ l ∈ scope, l ∈ o.forest.toList) :
    (scope.map (·.id)).bind o.forest.get? = scope := by
  cases scope with
  | none => rfl
  | some r => exact h.get?_id (hscope r rfl)

/-! ## Braces stand in no run -/

/-- A region closes at every closing brace. -/
theorem exists_region_closing (hbrace : o.code.mark i "\x7d" = true) :
    ∃ q ∈ o.forest.toList, q.closing = i := by
  obtain ⟨j, hpartner, -, hopener⟩ := h.exists_opening .curly hbrace
  obtain ⟨q, hq, rfl⟩ := h.exists_region hopener
  obtain ⟨-, -, -, -, -, -, hspans, -⟩ := h.nested.spans q hq
  rw [h.partnered.symm i q.opening hpartner] at hspans
  exact ⟨q, hq, (Option.some.inj hspans).symm⟩

/-- Neither brace of a region is directly in a scope. -/
theorem ne_of_mem_directTokens (hscope : ∀ l ∈ scope, l ∈ o.forest.toList)
    (hi : i ∈ o.directTokens (scope.map (·.id))) {q : Region} (hq : q ∈ o.forest.toList) :
    ¬(q.opening = i ∨ q.closing = i) := by
  intro hbrace
  rw [h.directTokens_eq hscope, (h.inRow_children hscope).mem_gaps_iff] at hi
  obtain ⟨hlow, hhigh, hout⟩ := hi
  have hwide := (h.matched hq).1
  have hinside : ∀ l ∈ scope, l.Encloses q := by
    intro l hl
    obtain rfl : scope = some l := hl
    have hlmem := hscope l rfl
    rw [Option.map_some, floor, h.get?_id hlmem] at hlow
    simp only [Option.map_some, Option.getD_some] at hlow hhigh
    rcases h.laminar hlmem hq (by rintro rfl; omega) with (hapart | hapart) | hin | hin
    · omega
    · omega
    · exact hin
    · obtain ⟨hopening, hclosing⟩ := hin
      omega
  obtain ⟨c, hc, hopening, hclosing⟩ := h.exists_child_around hscope hq hinside
  have := hout c hc
  omega

/-- **The tokens directly in a scope** are no braces, and the scope is their innermost region. -/
theorem mem_directTokens_iff_innermost? (hscope : ∀ l ∈ scope, l ∈ o.forest.toList) :
    i ∈ o.directTokens (scope.map (·.id)) ↔
      i < o.code.size ∧ o.code.mark i "\x7b" = false ∧ o.code.mark i "\x7d" = false ∧
        o.forest.innermost? i = scope := by
  constructor
  · intro hi
    have hopen : o.code.mark i "\x7b" = false := by
      rw [← Bool.not_eq_true]
      intro hbrace
      obtain ⟨q, hq, hopening⟩ := h.exists_region hbrace
      exact h.ne_of_mem_directTokens hscope hi hq (.inl hopening)
    have hclose : o.code.mark i "\x7d" = false := by
      rw [← Bool.not_eq_true]
      intro hbrace
      obtain ⟨q, hq, hclosing⟩ := h.exists_region_closing hbrace
      exact h.ne_of_mem_directTokens hscope hi hq (.inr hclosing)
    obtain ⟨hsize, hinnermost⟩ := (h.mem_directTokens_iff hscope hopen hclose).mp hi
    exact ⟨hsize, hopen, hclose, hinnermost⟩
  · rintro ⟨hsize, hopen, hclose, hinnermost⟩
    exact (h.mem_directTokens_iff hscope hopen hclose).mpr ⟨hsize, hinnermost⟩

end Valid

end Outline

/-! ## The partition -/

/-- **The scopes of a file partition its tokens.**  The innermost region around a token is the last
one to open around it.  The runs of a scope hold the tokens that are no braces and have the scope as
their innermost region; they are in order, none is empty and none touches the next. -/
theorem scopes_partition {source : Bytes} {o : Outline} (h : Outline.ofSource source = .ok o) :
    (∀ i, match o.forest.innermost? i with
      | some r => r ∈ o.forest.toList ∧ r.opening < i ∧ i < r.closing ∧
          ∀ q ∈ o.forest.toList, q.opening < i → i < q.closing → q.opening ≤ r.opening
      | none => ∀ q ∈ o.forest.toList, ¬(q.opening < i ∧ i < q.closing)) ∧
    ∀ scope : Option Nat, (∀ id ∈ scope, id < o.forest.size) →
      (∀ i, (∃ s ∈ o.direct scope, s.start ≤ i ∧ i < s.stop) ↔
        i < o.code.size ∧ o.code.mark i "\x7b" = false ∧ o.code.mark i "\x7d" = false ∧
          (o.forest.innermost? i).map (·.id) = scope) ∧
      (∀ s ∈ o.direct scope, s.start < s.stop) ∧
      (o.direct scope).Pairwise fun s t => s.stop < t.start := by
  have hvalid := (Outline.ofSource_eq_ok_iff_valid.mp h).2
  refine ⟨fun i => ?_, fun scope hscope => ?_⟩
  · split
    · rename_i r hfound
      obtain ⟨hr, hcontains, hlast⟩ := hvalid.innermost?_eq_some_iff.mp hfound
      obtain ⟨hlow, hhigh⟩ := Region.contains_iff.mp hcontains
      exact ⟨hr, hlow, hhigh, fun q hq hopening hclosing =>
        hlast q hq (Region.contains_iff.mpr ⟨hopening, hclosing⟩)⟩
    · rename_i hnone
      intro q hq hcontains
      have := hvalid.innermost?_eq_none_iff.mp hnone q hq
      exact Bool.false_ne_true (this.symm.trans (Region.contains_iff.mpr hcontains))
  · -- A scope given by its number is a region of the file, or the file.
    obtain ⟨region, rfl, hregion⟩ : ∃ region : Option Region, region.map (·.id) = scope ∧
        ∀ l ∈ region, l ∈ o.forest.toList := by
      cases scope with
      | none => exact ⟨none, rfl, by simp⟩
      | some id =>
        have hget := Array.getElem?_eq_getElem (hscope id rfl)
        exact ⟨some _, congrArg some (hvalid.numbered.id_eq id _ hget), by
          simpa using Forest.mem_of_get? hget⟩
    have hid : ∀ i, (o.forest.innermost? i).map (·.id) = region.map (·.id) ↔
        o.forest.innermost? i = region := by
      intro i
      refine ⟨fun hsame => ?_, congrArg _⟩
      rw [← hvalid.bind_get?_id fun l hl => (hvalid.innermost?_eq_some_iff.mp hl).1, hsame,
        hvalid.bind_get?_id hregion]
    refine ⟨fun i => ?_, fun s hs => ?_, ?_⟩
    · rw [← Outline.mem_directTokens_iff_exists, hvalid.mem_directTokens_iff_innermost? hregion,
        hid]
    · rw [hvalid.direct_eq hregion] at hs
      exact Outline.start_lt_of_mem_gapsFrom hs
    · rw [hvalid.direct_eq hregion]
      exact (hvalid.inRow_children hregion).pairwise_gapsFrom

/-- An empty region at the start of the region around it, two regions next to each other in
parentheses, and one at its end. -/
theorem scopes_partition_braces :
    ∃ o, Outline.ofSource (utf8 "a\x7b\x7b\x7d;b(\x7bc\x7d\x7b\x7d)\x7b\x7d\x7dd") = .ok o ∧
      o.direct none = [⟨0, 1⟩, ⟨16, 17⟩] ∧ o.direct (some 0) = [⟨4, 7⟩, ⟨12, 13⟩] ∧
      o.direct (some 1) = [] ∧ 0 < o.forest.size ∧
      (∀ i, (∃ s ∈ o.direct (some 0), s.start ≤ i ∧ i < s.stop) ↔
        i < o.code.size ∧ o.code.mark i "\x7b" = false ∧ o.code.mark i "\x7d" = false ∧
          (o.forest.innermost? i).map (·.id) = some 0) := by
  obtain ⟨o, h, hfound⟩ := Outline.exists_ofSource
    (utf8 "a\x7b\x7b\x7d;b(\x7bc\x7d\x7b\x7d)\x7b\x7d\x7dd")
    (fun o => (o.direct none, o.direct (some 0), o.direct (some 1), o.forest.size))
    (a := ([⟨0, 1⟩, ⟨16, 17⟩], [⟨4, 7⟩, ⟨12, 13⟩], [], 5)) (by decide +kernel)
  simp only [Prod.mk.injEq] at hfound
  obtain ⟨hfile, houter, hempty, hsize⟩ := hfound
  have hscope : ∀ id ∈ some 0, id < o.forest.size := by simp [hsize]
  exact ⟨o, h, hfile, houter, hempty, by omega, ((scopes_partition h).2 (some 0) hscope).1⟩

end Quell
