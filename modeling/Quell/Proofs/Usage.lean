import Mathlib.Data.List.Nodup
import Mathlib.Data.List.Perm.Subperm
import Mathlib.Tactic.Common
import Quell.Parameter.Usage

/-!
# Proofs/Usage — the names that are used are those at the uses

The search for used names stops where all are used.  `walk` does not stop: it gives the uses as
token indices, with nothing carried along.  Both come to the same names (`mem_usedNames_iff`), since
names that are all used gain nothing from further uses.
-/

namespace Quell.Usage

/-! ## The uses, without an early end -/

/-- **The uses of names in a region from token `i` on**, as token indices. -/
def walk (o : Outline) (names : List String) : (fuel : Nat) → Scope → (i : Nat) → List Nat
  | 0, _, _ => []
  | fuel + 1, s, i =>
    if s.stop ≤ i then []
    else match (if o.code.mark i "\x7b" then o.forest.atOpening? i else none) with
      | some r =>
        (if isClosed r.kind then [] else walk o names fuel (s.enter r) (r.opening + 1))
          ++ walk o names fuel { s with pending := [] } (r.closing + 1)
      | none =>
        let (next, uses) := step o names s i
        (if uses then [i] else []) ++ walk o names fuel next (i + 1)

/-- The uses of names in a whole region. -/
def inRegion (o : Outline) (names : List String) (r : Region) : List Nat :=
  walk o names (o.code.size + 1) (Scope.ofRegion r []) (r.opening + 1)

/-- All uses of parameter names in a function. -/
def uses (o : Outline) (body : Region) (head : FunctionHead) (params : List Parameter) :
    List Nat :=
  let names := params.filterMap (·.name)
  inTrailer o names head body ++ inRegion o names body
    ++ (o.handlersOf body.id).flatMap (inRegion o names)

/-! ## Sets of names -/

/-- Names without repetitions are the same names. -/
theorem mem_distinct {names : List String} {name : String} :
    name ∈ distinct names ↔ name ∈ names := by
  induction names with
  | nil => rfl
  | cons other names ih =>
    rw [distinct, List.foldr_cons, List.mem_insert_iff, List.mem_cons]
    exact or_congr_right ih

/-- As many different names as there are, are all of them. -/
theorem mem_of_allUsed {names used : List String} (hnodup : used.Nodup)
    (hsubset : ∀ name ∈ used, name ∈ names) (h : allUsed names used = true) {name : String}
    (hname : name ∈ names) : name ∈ used := by
  have hperm : used.Perm (distinct names) :=
    (List.subperm_of_subset hnodup fun name hmem =>
      mem_distinct.mpr (hsubset name hmem)).perm_of_length_le (Nat.le_of_eq (beq_iff_eq.mp h).symm)
  exact hperm.mem_iff.mpr (mem_distinct.mpr hname)

/-! ## The search adds the names at the uses -/

variable {o : Outline} {names : List String}

/-- **The names used after a search**: those used before it, and those at the tokens found. -/
structure Adds (o : Outline) (names used : List String) (found : List Nat) (used' : List String) :
    Prop where
  nodup : used'.Nodup
  subset : ∀ name ∈ used', name ∈ names
  mem_iff : ∀ name, name ∈ used' ↔ name ∈ used ∨ ∃ k ∈ found, o.code.name k = name

namespace Adds

variable {used used' used'' : List String} {found found' : List Nat}

theorem refl (hnodup : used.Nodup) (hsubset : ∀ name ∈ used, name ∈ names) :
    Adds o names used [] used := ⟨hnodup, hsubset, by simp⟩

theorem trans (h : Adds o names used found used') (h' : Adds o names used' found' used'') :
    Adds o names used (found ++ found') used'' := by
  refine ⟨h'.nodup, h'.subset, fun name => ?_⟩
  rw [h'.mem_iff, h.mem_iff, or_assoc]
  refine or_congr_right ?_
  simp only [List.mem_append, or_and_right, exists_or]

/-- One use adds the name there. -/
theorem insert (hnodup : used.Nodup) (hsubset : ∀ name ∈ used, name ∈ names) {i : Nat}
    (hi : o.code.name i ∈ names) : Adds o names used [i] (used.insert (o.code.name i)) := by
  refine ⟨hnodup.insert, fun name hname => ?_, fun name => ?_⟩
  · rcases List.mem_insert_iff.mp hname with rfl | hname
    · exact hi
    · exact hsubset name hname
  · rw [List.mem_insert_iff, or_comm]
    simp [eq_comm]

/-- **Where all names are used there is nothing to add**, whatever would be found. -/
theorem of_allUsed (hnodup : used.Nodup) (hsubset : ∀ name ∈ used, name ∈ names)
    (hall : allUsed names used = true) (hfound : ∀ k ∈ found, o.code.name k ∈ names) :
    Adds o names used found used := by
  refine ⟨hnodup, hsubset, fun name => ⟨.inl, ?_⟩⟩
  rintro (hname | ⟨k, hk, rfl⟩)
  · exact hname
  · exact mem_of_allUsed hnodup hsubset hall (hfound k hk)

end Adds

theorem name_mem_of_step {s : Scope} {i : Nat} (h : (step o names s i).2 = true) :
    o.code.name i ∈ names := by
  rw [step] at h
  split_ifs at h with _ _ _ hname
  · exact List.contains_iff_mem.mp (Bool.and_eq_true_iff.mp hname).2

/-- Only the names looked for are found. -/
theorem name_mem_of_walk {fuel : Nat} {s : Scope} {i k : Nat} (h : k ∈ walk o names fuel s i) :
    o.code.name k ∈ names := by
  induction fuel generalizing s i with
  | zero => cases h
  | succ fuel ih =>
    rw [walk] at h
    by_cases hstop : s.stop ≤ i
    · rw [if_pos hstop] at h
      cases h
    · rw [if_neg hstop] at h
      generalize (if o.code.mark i "\x7b" then o.forest.atOpening? i else none) = region at h
      cases region with
      | some r =>
        dsimp only at h
        rcases List.mem_append.mp h with h | h
        · split at h
          · cases h
          · exact ih h
        · exact ih h
      | none =>
        dsimp only at h
        rw [List.mem_append] at h
        rcases h with h | h
        · cases huses : (step o names s i).2 with
          | true =>
            rw [huses, if_pos rfl, List.mem_singleton] at h
            rw [h]
            exact name_mem_of_step huses
          | false =>
            rw [huses, if_neg Bool.false_ne_true] at h
            cases h
        · exact ih h

/-- **The search adds what the walk finds.** -/
theorem adds_collect {fuel : Nat} {s : Scope} {i : Nat} {used : List String}
    (hnodup : used.Nodup) (hsubset : ∀ name ∈ used, name ∈ names) :
    Adds o names used (walk o names fuel s i) (collect o names fuel s i used) := by
  induction fuel generalizing s i used with
  | zero => exact .refl hnodup hsubset
  | succ fuel ih =>
    rw [walk, collect]
    by_cases hstop : s.stop ≤ i
    · rw [if_pos hstop, if_pos hstop]
      exact .refl hnodup hsubset
    · rw [if_neg hstop, if_neg hstop]
      cases (if o.code.mark i "\x7b" then o.forest.atOpening? i else none) with
      | some r =>
        have hinside : Adds o names used
            (if isClosed r.kind then [] else walk o names fuel (s.enter r) (r.opening + 1))
            (if isClosed r.kind || allUsed names used then used
              else collect o names fuel (s.enter r) (r.opening + 1) used) := by
          cases isClosed r.kind with
          | true => exact .refl hnodup hsubset
          | false =>
            cases hall : allUsed names used with
            | true => exact .of_allUsed hnodup hsubset hall fun k => name_mem_of_walk
            | false => exact ih hnodup hsubset
        exact hinside.trans (ih hinside.nodup hinside.subset)
      | none =>
        have hstep : Adds o names used (if (step o names s i).2 then [i] else [])
            (if (step o names s i).2 then used.insert (o.code.name i) else used) := by
          cases huses : (step o names s i).2 with
          | true => exact .insert hnodup hsubset (name_mem_of_step huses)
          | false => exact .refl hnodup hsubset
        exact hstep.trans (ih hstep.nodup hstep.subset)

/-- The search of a region adds the names at its uses. -/
theorem adds_collectRegion {used : List String} (hnodup : used.Nodup)
    (hsubset : ∀ name ∈ used, name ∈ names) (r : Region) :
    Adds o names used (inRegion o names r) (collectRegion o names used r) := by
  rw [collectRegion]
  split_ifs with hall
  · exact .of_allUsed hnodup hsubset hall fun k => name_mem_of_walk
  · exact adds_collect hnodup hsubset

/-- One region after the other. -/
theorem adds_foldl {used : List String} (hnodup : used.Nodup)
    (hsubset : ∀ name ∈ used, name ∈ names) (regions : List Region) :
    Adds o names used (regions.flatMap (inRegion o names))
      (regions.foldl (collectRegion o names) used) := by
  induction regions generalizing used with
  | nil => exact .refl hnodup hsubset
  | cons r regions ih =>
    have hfirst := adds_collectRegion (o := o) hnodup hsubset r
    rw [List.flatMap_cons, List.foldl_cons]
    exact hfirst.trans (ih hfirst.nodup hfirst.subset)

/-- The names before the body. -/
theorem adds_inTrailer {used : List String} (hnodup : used.Nodup)
    (hsubset : ∀ name ∈ used, name ∈ names) {found : List Nat}
    (hfound : ∀ k ∈ found, o.code.name k ∈ names) :
    Adds o names used found (found.foldl (fun used i => used.insert (o.code.name i)) used) := by
  induction found generalizing used with
  | nil => exact .refl hnodup hsubset
  | cons i found ih =>
    have hfirst : Adds o names used [i] (used.insert (o.code.name i)) :=
      .insert hnodup hsubset (hfound i List.mem_cons_self)
    rw [List.foldl_cons]
    exact hfirst.trans (ih hfirst.nodup hfirst.subset fun k hk => hfound k (.tail i hk))

/-- **The used names are those at the uses**: the early end changes nothing. -/
theorem mem_usedNames_iff {body : Region} {head : FunctionHead} {params : List Parameter}
    {name : String} : name ∈ usedNames o body head params ↔
      ∃ k ∈ uses o body head params, o.code.name k = name := by
  have htrailer : Adds o (params.filterMap (·.name)) []
      (inTrailer o (params.filterMap (·.name)) head body) _ :=
    adds_inTrailer List.nodup_nil (by simp) fun k hk => by
      have := (List.mem_filter.mp hk).2
      simp only [Bool.and_eq_true] at this
      exact List.contains_iff_mem.mp this.1.2
  have hregions := htrailer.trans
    (adds_foldl htrailer.nodup htrailer.subset (body :: o.handlersOf body.id))
  rw [usedNames, hregions.mem_iff, or_iff_right List.not_mem_nil, uses, List.flatMap_cons,
    List.append_assoc]

/-- A name is among the used ones exactly if it stands at a use. -/
theorem contains_usedNames (o : Outline) (body : Region) (head : FunctionHead)
    (params : List Parameter) (name : String) : (usedNames o body head params).contains name =
      ((uses o body head params).map o.code.name).contains name := by
  rw [Bool.eq_iff_iff, List.contains_iff_mem, List.contains_iff_mem, List.mem_map]
  exact mem_usedNames_iff

end Quell.Usage
