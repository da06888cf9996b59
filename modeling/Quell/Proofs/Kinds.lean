import Quell.Proofs.Nesting

/-!
# Proofs/Kinds — the kind of a region and where it comes from

`classify` tries one shape after the other, and `classify_cases` says which of them made a kind: a
function body is read off the head before its brace, a handler off the block before its `catch`.
While a forest grows every region keeps the kind that its brace was given, from the regions before
it (`Region.Classified`).
-/

namespace Quell

open Declaration

/-! ## The shapes before a brace -/

namespace Region

/-- A block that is no switch, enum, function or handler is plain, or functions may be defined
directly inside. -/
theorem blockKind_plain_or_admits (statement : List Token) :
    blockKind statement = .plain ∨ (blockKind statement).admitsDefinitions = true := by
  have hclass (words : List Token) :
      classOrPlain words = .plain ∨ (classOrPlain words).admitsDefinitions = true := by
    rw [classOrPlain]
    split
    · exact .inr rfl
    · exact .inl rfl
  fun_cases blockKind statement
  all_goals first | exact hclass _ | exact .inl rfl | exact .inr rfl

variable {code : Code} {pairing : Pairing} {regions : Array Region} {parent : Option RegionKind}
  {brace : Nat}

/-- A function body is headed by what stands before its brace, where functions may stand. -/
theorem functionKind?_eq_some {kind : RegionKind}
    (h : functionKind? code pairing parent brace = some kind) :
    parent.all (·.admitsDefinitions) = true ∧
      ∃ inClass head, functionHead? code pairing brace inClass = some head ∧
        kind = .functionBody head := by
  rw [functionKind?.eq_def] at h
  split_ifs at h with hparent
  obtain ⟨head, hhead, rfl⟩ := Option.map_eq_some_iff.mp h
  exact ⟨hparent, _, head, hhead, rfl⟩

/-- A handler follows `catch` and the closing brace of its owner. -/
theorem handlerKind?_eq_some {opening : Nat} {kind : RegionKind}
    (h : handlerKind? code pairing regions opening = some kind) :
    code.keywordBefore opening "catch" = true ∧ code.markBefore (opening - 1) "\x7d" = true ∧
      ∃ owner, tryOwner? pairing regions (opening - 2) = some owner ∧ kind = .handler owner := by
  rw [handlerKind?] at h
  split_ifs at h with hcatch
  rw [Bool.and_eq_true] at hcatch
  obtain ⟨owner, howner, rfl⟩ := Option.map_eq_some_iff.mp h
  exact ⟨hcatch.1, hcatch.2, owner, howner, rfl⟩

/-- **Where a kind comes from.** -/
theorem classify_cases {kind : RegionKind}
    (h : classify code pairing regions parent brace = kind) :
    (∃ condition, kind = .switchBody condition) ∨ (∃ head, kind = .enumBody head) ∨
      functionKind? code pairing parent brace = some kind ∨
      (∃ opening, code.markBefore brace ")" = true ∧ pairing.partner (brace - 1) = some opening ∧
        handlerKind? code pairing regions opening = some kind) ∨
      kind = .plain ∨ kind.admitsDefinitions = true := by
  rw [classify] at h
  split at h
  · exact .inl ⟨_, h.symm⟩
  · split at h
    · exact .inr (.inl ⟨_, h.symm⟩)
    · split at h
      · rename_i found hfound
        rw [h] at hfound
        exact .inr (.inr (.inl hfound))
      · split at h
        · rename_i found hfound
          obtain ⟨opening, hgroup, hhandler⟩ := Option.bind_eq_some_iff.mp hfound
          split_ifs at hgroup with hclose
          rw [h] at hhandler
          exact .inr (.inr (.inr (.inl ⟨opening, hclose, hgroup, hhandler⟩)))
        · rw [← h]
          exact .inr (.inr (.inr (.inr (blockKind_plain_or_admits _))))

/-- Only the shape of a function makes a region a function body, and only where functions may be
defined. -/
theorem functionHead?_of_classify {head : FunctionHead}
    (h : classify code pairing regions parent brace = .functionBody head) :
    parent.all (·.admitsDefinitions) = true ∧
      ∃ inClass, functionHead? code pairing brace inClass = some head := by
  obtain ⟨_, ⟨⟩⟩ | ⟨_, ⟨⟩⟩ | hfunction | ⟨_, -, -, hhandler⟩ | hblock | hblock := classify_cases h
  · obtain ⟨hparent, inClass, _, hhead, ⟨⟩⟩ := functionKind?_eq_some hfunction
    exact ⟨hparent, inClass, hhead⟩
  · obtain ⟨-, -, _, -, ⟨⟩⟩ := handlerKind?_eq_some hhandler
  · cases hblock
  · cases hblock

/-- The block before a `catch` is that of a function, or a handler of one. -/
theorem tryOwner?_eq_some {closing owner : Nat}
    (h : tryOwner? pairing regions closing = some owner) :
    ∃ q ∈ regions, pairing.partner closing = some q.opening ∧
      ((∃ head, q.kind = .functionBody head ∧ head.isTry = true ∧ q.id = owner) ∨
        q.kind = .handler owner) := by
  rw [tryOwner?] at h
  obtain ⟨opening, hpartner, hregion⟩ := Option.bind_eq_some_iff.mp h
  obtain ⟨q, hfind, howner⟩ := Option.bind_eq_some_iff.mp hregion
  obtain rfl : q.opening = opening := by simpa using Array.find?_some hfind
  refine ⟨q, Array.mem_of_find?_eq_some hfind, hpartner, ?_⟩
  split at howner
  · rename_i head hfunction
    split_ifs at howner with htry
    cases howner
    exact .inl ⟨head, hfunction, htry, rfl⟩
  · rename_i function hhandler
    cases howner
    exact .inr hhandler
  · cases howner

/-- Only a `catch` after the block of a function or of its handler makes a region a handler. -/
theorem tryOwner?_of_classify {owner : Nat}
    (h : classify code pairing regions parent brace = .handler owner) :
    ∃ opening, code.markBefore brace ")" = true ∧ pairing.partner (brace - 1) = some opening ∧
      code.keywordBefore opening "catch" = true ∧ code.markBefore (opening - 1) "\x7d" = true ∧
      tryOwner? pairing regions (opening - 2) = some owner := by
  obtain ⟨_, ⟨⟩⟩ | ⟨_, ⟨⟩⟩ | hfunction | ⟨opening, hclose, hpartner, hhandler⟩ | hblock | hblock :=
    classify_cases h
  · obtain ⟨-, -, _, -, ⟨⟩⟩ := functionKind?_eq_some hfunction
  · obtain ⟨hcatch, hbrace, _, howner, ⟨⟩⟩ := handlerKind?_eq_some hhandler
    exact ⟨opening, hclose, hpartner, hcatch, hbrace, howner⟩
  · cases hblock
  · cases hblock

/-! ## The kinds of a file -/

/-- **The kind of a region is what `classify` makes of its brace**, given the regions before it. -/
def Classified (code : Code) (pairing : Pairing) (regions : Array Region) (r : Region) : Prop :=
  r.kind = classify code pairing (regions.extract 0 r.id)
    (r.parent.bind fun p => regions[p]?.map (·.kind)) r.opening

/-- A region that is added later changes nothing. -/
theorem Classified.push {regions : Array Region} {r new : Region}
    (h : r.Classified code pairing regions) (hid : r.id ≤ regions.size)
    (hparent : ∀ p ∈ r.parent, p < regions.size) :
    r.Classified code pairing (regions.push new) := by
  have hget : (r.parent.bind fun p => (regions.push new)[p]?.map (·.kind)) =
      r.parent.bind fun p => regions[p]?.map (·.kind) := by
    cases hr : r.parent with
    | none => rfl
    | some p => rw [Option.bind_some, Option.bind_some, Array.getElem?_push_lt (hparent p hr),
        Array.getElem?_eq_getElem (hparent p hr)]
  rw [Classified, hget, Array.extract_push_of_le hid]
  exact h

end Region

namespace Forest

variable {code : Code} {pairing : Pairing}

/-- One token keeps the regions classified. -/
theorem Growing.step_classified {g : Growth} {i : Nat} (hgrowing : Growing code pairing i g)
    (t : Token) (h : ∀ r ∈ g.regions, r.Classified code pairing g.regions) :
    ∀ r ∈ (g.step code pairing i t).regions,
      r.Classified code pairing (g.step code pairing i t).regions := by
  rw [Growth.step]
  split_ifs
  · intro r hr
    rcases Array.mem_push.mp hr with hr | rfl
    · obtain ⟨k, hk⟩ := Array.getElem?_of_mem hr
      have hsize := (Array.getElem?_eq_some_iff.mp hk).1
      refine (h r hr).push ?_ fun p hp => ?_
      · rw [hgrowing.numbered.id_eq k r hk]
        exact Nat.le_of_lt hsize
      · have hparented := hgrowing.parents r hr
        rw [Region.Parented, Option.mem_def.mp hp] at hparented
        obtain ⟨q, hq, -⟩ := hparented
        exact (Array.getElem?_eq_some_iff.mp hq).1
    · rw [Region.Classified, Array.extract_push_of_le (Nat.le_refl _), Array.extract_size]
      dsimp only
      congr 1
      cases hhead : g.pending.head? with
      | none => rfl
      | some p =>
        obtain ⟨q, hq, -⟩ := (hgrowing.pending_iff p).mp (List.mem_of_head? hhead)
        have hp := (Array.getElem?_eq_some_iff.mp hq).1
        rw [Option.bind_some, Option.bind_some, Array.getElem?_push_lt hp,
          Array.getElem?_eq_getElem hp]
  · exact h
  · exact h

/-- Every region is classified after every token. -/
theorem growFrom_classified (hpaired : Pairing.ofCode code = .ok pairing) {tokens : List Token}
    {g : Growth} {i : Nat} (htokens : code.Holds i tokens)
    (hgrowing : Growing code pairing i g)
    (h : ∀ r ∈ g.regions, r.Classified code pairing g.regions) :
    ∀ r ∈ (growFrom code pairing i g tokens).regions,
      r.Classified code pairing (growFrom code pairing i g tokens).regions := by
  induction tokens generalizing i g with
  | nil => exact h
  | cons t rest ih =>
    exact ih htokens.tail (hgrowing.step hpaired htokens.head) (hgrowing.step_classified t h)

/-- **Every region of a forest is classified by the tokens before its brace.** -/
theorem classified (hpaired : Pairing.ofCode code = .ok pairing) {r : Region}
    (hr : r ∈ (ofCode code pairing).toList) :
    r.Classified code pairing (ofCode code pairing).regions := by
  rw [mem_toList_iff] at hr
  rw [ofCode] at hr ⊢
  exact growFrom_classified hpaired (.whole code) .empty (by simp) r hr

end Forest

theorem Outline.Valid.classified {o : Outline} (h : o.Valid) {r : Region}
    (hr : r ∈ o.forest.toList) : r.Classified o.code o.pairing o.forest.regions := by
  rw [h.forest_eq] at hr ⊢
  exact Forest.classified h.paired hr

end Quell
