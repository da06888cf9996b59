import Quell.Proofs.Placement

/-!
# Proofs/Floor — a declaration starts in its scope

A declaration starts with the first token of its scope, or after a mark that ends what came before
(`LocalDecl.StartsIn`).  The scan for a type sees to it where the type stands right before the name.
For a later declarator of a list the start of the statement is looked for, and that scan jumps
wherever the pairing leads it, below the floor too.  But what it finds counts only if the type of a
first declarator starts there, and no type starts below the floor (`bounds_of_isType`).
-/

namespace Quell

/-- **A declaration of the name at an index that starts in the scope from `floor` on.** -/
structure LocalDecl.StartsIn (code : Code) (floor name : Nat) (d : LocalDecl) : Prop where
  name_eq : d.name = name
  floor_le : floor ≤ d.start
  start_lt : d.start < name
  /-- It is the first thing in its scope, or a mark before it ends what came before. -/
  boundary : d.start = floor ∨
    code.hasBefore d.start (·.isMarkIn [";", "\x7b", "\x7d", ":", ",", "("]) = true

theorem Code.hasBefore_isMarkIn_mono {code : Code} {i : Nat} {words more : List String}
    (hwords : words ⊆ more) (h : code.hasBefore i (·.isMarkIn words) = true) :
    code.hasBefore i (·.isMarkIn more) = true := by
  rw [hasBefore_iff, has_isMarkIn_iff] at h ⊢
  obtain ⟨hpos, word, hword, hmark⟩ := h
  exact ⟨hpos, word, hwords hword, hmark⟩

namespace Declaration

variable {code : Code} {pairing : Pairing} {floor start stop first name : Nat}

/-! ## The type -/

/-- **The scan for a type stops at its limit or above.** -/
theorem le_of_typeStartFrom? {limit k angle : Nat} (hk : limit ≤ k)
    (h : typeStartFrom? code limit k angle = some start) : limit ≤ start := by
  induction k generalizing angle with
  | zero => exact Nat.le_trans hk (Nat.zero_le start)
  | succ k ih =>
    rw [typeStartFrom?] at h
    split_ifs at h with hlimit
    · cases h
      exact hk
    -- Above the limit a token is passed, or else the scan stops right after it.
    · exact ih (by omega) h
    · exact ih (by omega) h
    · exact ih (by omega) h
    · exact ih (by omega) h
    · exact ih (by omega) h
    · cases h
      exact hk

/-- At its limit the scan stops at once. -/
theorem typeStartFrom?_of_le {limit k : Nat} (hk : k ≤ limit) :
    typeStartFrom? code limit k 0 = some k := by
  cases k with
  | zero => rfl
  | succ k => rw [typeStartFrom?, if_pos hk, if_pos rfl]

/-- **A type that starts before its name starts in the scope**, wherever the name stands. -/
theorem floor_le_of_typeStart? (h : typeStart? code floor name = some start) (hlt : start < name) :
    floor ≤ start := by
  rw [typeStart?] at h
  rcases Nat.le_total name (max (name - lookback) floor) with hle | hge
  · rw [typeStartFrom?_of_le hle] at h
    cases h
    exact absurd hlt (Nat.lt_irrefl _)
  · exact Nat.le_trans (Nat.le_max_right _ _) (le_of_typeStartFrom? hge h)

/-- A type is not empty. -/
theorem start_lt_of_isType {s : Slice} (h : isType code s = true) : s.start < s.stop := by
  simp only [isType, Slice.isEmpty, Bool.and_eq_true, Bool.not_eq_true', decide_eq_false_iff_not]
    at h
  exact Nat.lt_of_not_le h.1.1

/-- **A declarator and its type lie in the scope.** -/
theorem bounds_of_isType (h : typeStart? code floor name = some start)
    (htype : isType code ⟨start, name⟩ = true) : floor ≤ start ∧ start < name :=
  have hlt := start_lt_of_isType htype
  ⟨floor_le_of_typeStart? h hlt, hlt⟩

/-! ## Later declarators -/

/-- The scan for the start of a statement ends after a mark that ends the statement before, unless
the pairing leads it to the floor or below. -/
theorem statementStart?_stops {fuel k : Nat}
    (h : statementStart? code pairing floor fuel k = some start) :
    start ≤ floor ∨ code.hasBefore start (·.isMarkIn [";", "\x7b", "\x7d", ":"]) = true := by
  induction fuel generalizing k with
  | zero =>
    rw [statementStart?] at h
    split_ifs at h with hfloor
    cases h
    exact .inl hfloor
  | succ fuel ih =>
    rw [statementStart?] at h
    split_ifs at h with hfloor hend hclose
    · cases h
      exact .inl hfloor
    · cases h
      exact .inr hend
    · split at h
      · exact ih h
      · cases h
    · exact ih h

/-- The first declarator of a list has its type in the scope, where the statement starts. -/
theorem bounds_of_firstDeclarator? (h : firstDeclarator? code floor start stop = some first) :
    floor ≤ start ∧ start < first ∧ first < stop := by
  have hmem := Slice.mem_indices.mp (List.mem_of_find?_eq_some h)
  have htests := List.find?_some h
  simp only [Bool.and_eq_true, beq_iff_eq] at htests
  obtain ⟨⟨-, hstart⟩, htype⟩ := htests
  obtain ⟨hfloor, hlt⟩ := bounds_of_isType hstart htype
  exact ⟨hfloor, hlt, hmem.2⟩

/-- **The declaration of a later declarator starts in its scope**, whatever the pairing. -/
theorem startsIn_laterDeclarator {d : LocalDecl}
    (h : laterDeclarator? code pairing floor name = some d) : d.StartsIn code floor name := by
  have hrun := @runStart_le code floor (·.isMarkIn ["*", "&"]) name
  rw [laterDeclarator?] at h
  dsimp only at h
  split at h
  · cases h
  obtain ⟨start, hstart, h⟩ := Option.bind_eq_some_iff.mp h
  obtain ⟨first, hfirst, rfl⟩ := Option.map_eq_some_iff.mp h
  obtain ⟨hfloor, hlt, hstop⟩ := bounds_of_firstDeclarator? hfirst
  refine ⟨rfl, hfloor, by dsimp only; omega, ?_⟩
  rcases statementStart?_stops hstart with hle | hafter
  · exact .inl (Nat.le_antisymm hle hfloor)
  · exact .inr (Code.hasBefore_isMarkIn_mono (by decide) hafter)

/-! ## Declarations -/

/-- **The two shapes of a declaration**: a name after its type, or a later declarator of a list. -/
theorem declarationAt?_cases {site : Site} {d : LocalDecl}
    (h : declarationAt? code pairing name floor site = some d) :
    (typeStart? code floor name = some d.start ∧ isType code ⟨d.start, name⟩ = true ∧
        atBoundary code floor d.start = true ∧ d.name = name) ∨
      site = .statement ∧ laterDeclarator? code pairing floor name = some d := by
  rw [declarationAt?] at h
  split at h
  · cases h
  split at h
  · cases h
  split at h
  · cases h
  split at h
  · cases h
  · rename_i start hstart
    split at h
    · rename_i htype
      cases h
      rw [Bool.and_eq_true] at htype
      exact .inl ⟨hstart, htype.1, htype.2, rfl⟩
    · split at h
      · rename_i hsite
        exact .inr ⟨beq_iff_eq.mp hsite, h⟩
      · cases h

/-- **Declarations start in their scope**, those of a name after its type and those of the later
declarators of a list, at every site and whatever the pairing. -/
theorem declarations_start_in_scope {site : Site} {d : LocalDecl}
    (h : declarationAt? code pairing name floor site = some d) : d.StartsIn code floor name := by
  rcases declarationAt?_cases h with ⟨hstart, htype, hboundary, hname⟩ | ⟨-, hlater⟩
  · obtain ⟨hfloor, hlt⟩ := bounds_of_isType hstart htype
    rw [atBoundary, Bool.or_eq_true, beq_iff_eq] at hboundary
    exact ⟨hname, hfloor, hlt, hboundary⟩
  · exact startsIn_laterDeclarator hlater

/-- Brackets that do not match, in a table that takes the name `a` for the partner of `)`: the
declarations of `a` after a mark, and of `b` from the floor on. -/
theorem declarations_start_in_scope_unbalanced :
    ∃ code pairing, code = Code.ofTokens (lex (utf8 "; int a = 1), *b;")).tokens ∧
      pairing = Pairing.ofPairs code.size [(2, 5)] ∧
      (declarationAt? code pairing 2 0 .statement = some ⟨1, 2, .builtin⟩ ∧
        LocalDecl.StartsIn code 0 2 ⟨1, 2, .builtin⟩) ∧
      (declarationAt? code pairing 8 1 .statement = some ⟨1, 8, .pointer⟩ ∧
        LocalDecl.StartsIn code 1 8 ⟨1, 8, .pointer⟩) := by
  have hfirst : declarationAt? (Code.ofTokens (lex (utf8 "; int a = 1), *b;")).tokens)
      (Pairing.ofPairs 10 [(2, 5)]) 2 0 .statement = some ⟨1, 2, .builtin⟩ := by decide +kernel
  have hlater : declarationAt? (Code.ofTokens (lex (utf8 "; int a = 1), *b;")).tokens)
      (Pairing.ofPairs 10 [(2, 5)]) 8 1 .statement = some ⟨1, 8, .pointer⟩ := by decide +kernel
  exact ⟨_, _, rfl, rfl, ⟨hfirst, declarations_start_in_scope hfirst⟩, hlater,
    declarations_start_in_scope hlater⟩

/-- The same list with the floor after `a`: the pairing leads below it, and `b` is not declared. -/
example : declarationAt? (Code.ofTokens (lex (utf8 "; int a = 1), *b;")).tokens)
    (Pairing.ofPairs 10 [(2, 5)]) 8 3 .statement = none := by
  decide +kernel

end Declaration

end Quell
