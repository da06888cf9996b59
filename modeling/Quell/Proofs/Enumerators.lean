import Mathlib.Data.List.Sort
import Quell.Enumeration
import Quell.Proofs.Nesting
import Quell.Proofs.Pieces

/-!
# Proofs/Enumerators — the enumerators of a written list, and the scope of its enum

An enumerator is written with attributes before and after its name and with an initializer, in which
commas stand in brackets.  Such an item is a clause, so a list of them is cut into its items, and in
each of these the name is what comes after the attributes (`enumeratorsIn_eq`).  The climb through
the parents meets exactly the regions around the enum (`reverse_ancestors_parent`), so its scope is
read off them (`enumerators_read_back`).
-/

namespace Quell

open Declaration

namespace Declaration

/-! ## Enumerators -/

/-- **An enumerator as written**: a name, perhaps with attributes and with a value. -/
structure WrittenEnumerator where
  before : List Token
  word : Token
  after : List Token
  value : List Token
  attributes_before : Attributes before
  isName : word.isName = true
  attributes_after : Attributes after
  initializer : Initializer value

namespace WrittenEnumerator

/-- The tokens of the enumerator. -/
def tokens (e : WrittenEnumerator) : List Token := e.before ++ e.word :: (e.after ++ e.value)

theorem clause (e : WrittenEnumerator) : Clause e.tokens := by
  have hkind := Token.kind_ne_of_isName e.isName
  have hword : Clause [e.word] :=
    .token (Token.half?_eq_none_of_kind hkind) (Token.isMark_of_kind hkind ",")
  exact e.attributes_before.clause.append
    (hword.append (e.attributes_after.clause.append e.initializer.clause))

end WrittenEnumerator

end Declaration

namespace Enumeration

variable {o : Outline}

/-- **The name after the attributes is the enumerator.** -/
theorem enumerator?_eq (h : o.Valid) {e : WrittenEnumerator} {s : Slice}
    (hreads : o.code.Reads s e.tokens) : enumerator? o s = some e.word.name := by
  obtain ⟨hstop, hholds⟩ := hreads
  have hword : o.code[s.start + e.before.length]? = some e.word := hholds.right.head
  have hname : o.code.nameAt (s.start + e.before.length) = true := by
    rw [Code.nameAt, Code.has, hword]
    exact e.isName
  have hlength := hholds.length_le
  rw [WrittenEnumerator.tokens, List.length_append, List.length_cons] at hlength hstop
  have hskip : skipAttributes o.code o.pairing s.stop o.code.size s.start =
      s.start + e.before.length :=
    e.attributes_before.skip_eq h.paired hholds.left (by omega) (by omega)
      (Code.mark_of_nameAt hname "[")
  rw [enumerator?, hskip, hname, Bool.and_true, if_pos (decide_eq_true (by omega)), Code.name,
    hword]
  rfl

/-- **The enumerators of a written list** are its names, each once. -/
theorem enumeratorsIn_eq (h : o.Valid) {row : List WrittenEnumerator} {tokens : List Token}
    (hlisted : Listed (row.map (·.tokens)) tokens) {body : Slice}
    (hreads : o.code.Reads body tokens) :
    enumeratorsIn o body = (row.map (·.word.name)).eraseDups := by
  have hpieces := pieces_reads hlisted hreads fun e _ => e.clause.whole
  rw [enumeratorsIn]
  congr 1
  -- The cut is forgotten: what counts is that each piece reads its enumerator.
  generalize pieces o.code false body = slices at hpieces
  clear hlisted
  induction hpieces with
  | nil => rfl
  | cons hpiece _ ih =>
    rw [List.filterMap_cons_some (enumerator?_eq h hpiece), ih, List.map_cons]

end Enumeration

/-! ## The scope of an enum -/

namespace Outline.Valid

variable {o : Outline} (h : o.Valid)

include h

/-- The regions around the opening brace of another are those around the other. -/
theorem encloses_iff_contains {q r : Region} (hq : q ∈ o.forest.toList)
    (hr : r ∈ o.forest.toList) : q.Encloses r ↔ q.contains r.opening = true := by
  rw [Region.contains_iff]
  refine ⟨fun hencloses => ⟨hencloses.1, ?_⟩, fun hinside => h.encloses hq hr hinside.1 hinside.2⟩
  have := (h.matched hr).1
  have := hencloses.2
  omega

/-- **The climb from a region meets what is around it**, and nothing else. -/
theorem mem_ancestors_parent {r : Region} (hr : r ∈ o.forest.toList) {q : Region} :
    q ∈ r.parent.elim [] o.forest.ancestors ↔ q ∈ o.forest.toList ∧ q.Encloses r := by
  induction hn : r.id using Nat.strongRecOn generalizing r with
  | _ n ih =>
    subst hn
    cases hparent : r.parent with
    | none =>
      exact ⟨fun hmem => absurd hmem List.not_mem_nil, fun ⟨hq, hencloses⟩ =>
        absurd hencloses (h.not_encloses_of_parent_eq_none hr hparent hq)⟩
    | some p =>
      obtain ⟨l, hl, rfl, -, hencloses, hlast⟩ := h.exists_parent hr hparent
      rw [Option.elim_some, h.ancestors_eq hl, List.mem_cons,
        ih l.id (h.parent_lt hr hparent) hl rfl]
      constructor
      · rintro (rfl | ⟨hq, hout⟩)
        · exact ⟨hl, hencloses⟩
        · exact ⟨hq, Nat.lt_trans hout.1 hencloses.1, Nat.lt_trans hencloses.2 hout.2⟩
      · rintro ⟨hq, hout⟩
        rcases Nat.eq_or_lt_of_le (hlast q hq hout) with hsame | hlt
        · exact .inl (h.region_ext hq hl hsame)
        · refine .inr ⟨hq, h.encloses hq hl hlt ?_⟩
          have := (h.matched hr).1
          have := hencloses.1
          have := hout.2
          omega

/-- The climb goes outwards. -/
theorem pairwise_ancestors_parent {r : Region} (hr : r ∈ o.forest.toList) :
    (r.parent.elim [] o.forest.ancestors).Pairwise (·.opening > ·.opening) := by
  induction hn : r.id using Nat.strongRecOn generalizing r with
  | _ n ih =>
    subst hn
    cases hparent : r.parent with
    | none => exact .nil
    | some p =>
      obtain ⟨l, hl, rfl, -⟩ := h.exists_parent hr hparent
      rw [Option.elim_some, h.ancestors_eq hl]
      exact .cons (fun q hq => ((h.mem_ancestors_parent hl).mp hq).2.1)
        (ih l.id (h.parent_lt hr hparent) hl rfl)

/-- **The regions around another, outermost first**, are those that contain its opening brace. -/
theorem reverse_ancestors_parent {r : Region} (hr : r ∈ o.forest.toList) :
    (r.parent.elim [] o.forest.ancestors).reverse =
      o.forest.toList.filter (·.contains r.opening) := by
  have hirrefl : Std.Irrefl fun q l : Region => q.opening < l.opening :=
    ⟨fun _ => Nat.lt_irrefl _⟩
  refine List.Pairwise.eq_of_mem_iff (List.pairwise_reverse.mpr (h.pairwise_ancestors_parent hr))
    (h.nested.ordered.filter _) fun q => ?_
  rw [List.mem_reverse, h.mem_ancestors_parent hr, List.mem_filter]
  exact and_congr_right fun hq => h.encloses_iff_contains hq hr

/-- The scope of a region is named by the regions around it, from the outside in. -/
theorem scopePath_parent {r : Region} (hr : r ∈ o.forest.toList) :
    o.forest.scopePath r.parent =
      (o.forest.toList.filter (·.contains r.opening)).filterMap (·.kind.scopeName?) := by
  rw [← h.reverse_ancestors_parent hr, List.filterMap_reverse]
  cases r.parent <;> rfl

theorem filter_id {r : Region} (hr : r ∈ o.forest.toList) :
    o.forest.toList.filter (·.id == r.id) = [r] := by
  have hirrefl : Std.Irrefl fun q l : Region => q.opening < l.opening :=
    ⟨fun _ => Nat.lt_irrefl _⟩
  refine List.Pairwise.eq_of_mem_iff (h.nested.ordered.filter _) (List.pairwise_singleton _ r)
    fun q => ?_
  rw [List.mem_filter, beq_iff_eq, List.mem_singleton]
  constructor
  · rintro ⟨hq, hid⟩
    have hget := h.get?_id hq
    rw [hid, h.get?_id hr] at hget
    cases hget
    rfl
  · rintro rfl
    exact ⟨hr, rfl⟩

/-- The enums of a region are the one that its head declares. -/
theorem filter_region_enumerations {r : Region} (hr : r ∈ o.forest.toList) :
    o.enumerations.filter (·.region == r.id) = (Enumeration.ofRegion? o r).toList := by
  have hregion : ∀ q, (Enumeration.ofRegion? o q).filter (·.region == r.id) =
      if q.id == r.id then Enumeration.ofRegion? o q else none := fun q => by
    rw [Enumeration.ofRegion?]
    split
    · exact Option.filter_some
    · split_ifs <;> rfl
  rw [enumerations, List.filter_filterMap, funext hregion, ← List.filterMap_filter, h.filter_id hr]
  cases henum : Enumeration.ofRegion? o r <;> simp [henum]

end Outline.Valid

/-! ## Enums read back -/

/-- **A written list of enumerators reads back**: the enum of the region has their names, each once,
in the scope of the named namespaces and classes around it, outermost first. -/
theorem enumerators_read_back {source : Bytes} {o : Outline} (h : Outline.ofSource source = .ok o)
    {r : Region} (hr : r ∈ o.forest.toList) {name : String} {isScoped : Bool}
    (hkind : r.kind = .enumBody ⟨some name, isScoped⟩) {row : List WrittenEnumerator}
    {tokens : List Token} (hlisted : Listed (row.map (·.tokens)) tokens)
    (hbody : o.code.Reads r.inner tokens) :
    o.enumerations.filter (·.region == r.id) =
      [{ name
         scope := ((o.forest.toList.filter (·.contains r.opening)).filterMap
           (·.kind.scopeName?)).flatMap Text.segments
         enumerators := (row.map (·.word.name)).eraseDups
         isScoped
         region := r.id }] := by
  have hvalid := (Outline.ofSource_eq_ok_iff_valid.mp h).2
  rw [hvalid.filter_region_enumerations hr, Enumeration.ofRegion?, hkind]
  dsimp only
  rw [Enumeration.flatten, hvalid.scopePath_parent hr,
    Enumeration.enumeratorsIn_eq hvalid hlisted hbody, Option.toList_some]

/-- Commas in attributes and in calls, an enumerator twice, and a namespace of two names. -/
theorem enumerators_read_back_nested :
    ∃ (o : Outline) (r : Region) (row : List WrittenEnumerator) (tokens : List Token),
      Outline.ofSource (utf8 ("namespace a::b \x7bclass C \x7benum E "
        ++ "\x7b[[x(1, 2)]] A [[y]] = g(1, 2), B, A,\x7d;\x7d;\x7d")) = .ok o ∧
      r ∈ o.forest.toList ∧ r.kind = .enumBody ⟨some "E", false⟩ ∧
      Listed (row.map (·.tokens)) tokens ∧ o.code.Reads r.inner tokens ∧
      o.enumerations.filter (·.region == r.id) =
        [⟨"E", ["a", "b", "C"], ["A", "B"], false, 2⟩] := by
  let r : Region := ⟨2, .enumBody ⟨some "E", false⟩, 10, 39, 32, 70, some 1⟩
  let mark (word : String) (start : Nat) : Token := ⟨.punctuation, utf8 word, start⟩
  let name (word : String) (start : Nat) : Token := ⟨.identifier, utf8 word, start⟩
  let call (callee : String) (start : Nat) : List Token :=
    [name callee start, mark "(" (start + 1), ⟨.literal, utf8 "1", start + 2⟩,
      mark "," (start + 3), ⟨.literal, utf8 "2", start + 5⟩, mark ")" (start + 6)]
  let bare (word : String) (start : Nat) : WrittenEnumerator :=
    ⟨[], name word start, [], [], .nil, rfl, .nil, .nil⟩
  let first : WrittenEnumerator :=
    { before := mark "[" 33 :: (mark "[" 34 :: (call "x" 35 ++ [mark "]" 42]) ++ [mark "]" 43])
      word := name "A" 45
      after := [mark "[" 47, mark "[" 48, name "y" 49, mark "]" 50, mark "]" 51]
      value := mark "=" 53 :: call "g" 55
      attributes_before := .cons rfl rfl (by decide) rfl rfl .nil
      isName := rfl
      attributes_after := @Attributes.cons _ _ _ _ [name "y" 49] _ rfl rfl rfl rfl rfl .nil
      initializer := .cons rfl (by decide) }
  let tokens : List Token := first.tokens ++ mark "," 62 ::
    [name "B" 64, mark "," 65, name "A" 67, mark "," 68]
  have hlisted : Listed ([first, bare "B" 64, bare "A" 67].map (·.tokens)) tokens :=
    .cons rfl (@Listed.cons [_] _ _ _ rfl (@Listed.cons [_] _ _ _ rfl .nil))
  obtain ⟨o, h, hdata⟩ := Outline.exists_ofSource
    (utf8 ("namespace a::b \x7bclass C \x7benum E "
      ++ "\x7b[[x(1, 2)]] A [[y]] = g(1, 2), B, A,\x7d;\x7d;\x7d"))
    (fun o => decide (r ∈ o.forest.toList ∧ o.code.slice r.inner = tokens ∧
      r.inner.stop ≤ o.code.size ∧
      (o.forest.toList.filter (·.contains r.opening)).filterMap (·.kind.scopeName?) =
        ["a::b", "C"])) (a := true) (by decide +kernel)
  obtain ⟨hr, hslice, hstop, hscope⟩ := of_decide_eq_true hdata
  have hreads := Code.reads_of_slice hslice (by decide) hstop
  refine ⟨o, r, _, tokens, h, hr, rfl, hlisted, hreads, ?_⟩
  rw [enumerators_read_back h hr rfl hlisted hreads, hscope]
  decide

end Quell
