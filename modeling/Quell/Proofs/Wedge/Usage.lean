import Mathlib.Data.List.Forall2
import Mathlib.Tactic.Common
import Quell.Proofs.Discard
import Quell.Proofs.Wedge.Declaration
import Quell.Proofs.Wedge.Region

/-!
# Proofs/Wedge/Usage — what functions use around a wedge

A walk over the code with the stretch in place meets every token that it met before.  Nothing in the
stretch is declared, and elsewhere a declaration is lost at most, so no scope of the walk hides a
name that it did not hide before (`Scope.Covers`).  Hence what was used is used still
(`Wedge.Enters.mem_uses_move`), and a parameter is unused after the stretch is put in only if it was
before (`Wedge.Enters.lacks_of_move`).
-/

namespace Quell

open Declaration

/-- **The wedge goes into an outline.**  It leaves alone what a block is and all parameter lists,
and its stretch holds discards right after an opening brace, or no parentheses. -/
structure Wedge.Enters (w : Wedge) (o o' : Outline) : Prop where
  cleaves : w.Cleaves o.code o'.code o.pairing o'.pairing
  forest_eq : o.forest = Forest.ofCode o.code o.pairing
  forest_eq' : o'.forest = Forest.ofCode o'.code o'.pairing
  spares : w.Spares o.code o.pairing
  lists : ∀ f ∈ o.functions, w.Clear f.2.params.opening f.2.params.closing
  text : (o.code.markBefore w.place "\x7b" = true ∧ ∃ (style : DiscardStyle) (words : List Bytes),
      (∀ v ∈ words, Kind.ofWord v = .identifier) ∧
      w.chunk.map Token.shape = words.flatMap style.shapes) ∨
    ∀ t ∈ w.chunk, t.isMark "(" = false ∧ t.isMark ")" = false

/-! ## Regions -/

/-- A brace opens a region. -/
theorem Forest.exists_atOpening? {code : Code} {pairing : Pairing} {i : Nat}
    (hpaired : Pairing.ofCode code = .ok pairing) (hi : code.mark i "\x7b" = true) :
    ∃ r ∈ (ofCode code pairing).regions, (ofCode code pairing).atOpening? i = some r ∧
      r.opening = i ∧ i < r.closing ∧ code.mark r.closing "\x7d" = true := by
  obtain ⟨t, ht, hmark⟩ := (Option.any_eq_true _ _).mp hi
  obtain ⟨u, v, hcode, hlength⟩ : ∃ u v, code.toList = u ++ t :: v ∧ u.length = i := by
    rw [← Array.getElem?_toList] at ht
    obtain ⟨hlt, rfl⟩ := List.getElem?_eq_some_iff.mp ht
    exact ⟨code.toList.take i, code.toList.drop (i + 1),
      by rw [List.getElem_cons_drop, List.take_append_drop],
      List.length_take_of_le (Nat.le_of_lt hlt)⟩
  obtain ⟨q, hq, hopening⟩ := getElem?_regions pairing hcode (Token.opening?_eq_some_iff.mpr hmark)
  cases hfound : (ofCode code pairing).atOpening? i with
  | none =>
    have hnone := Array.find?_eq_none.mp hfound q (Array.mem_of_getElem? hq)
    rw [hopening, hlength, beq_self_eq_true] at hnone
    exact absurd rfl hnone
  | some r =>
    have hr := Array.mem_of_find?_eq_some hfound
    have hsame := beq_iff_eq.mp (Array.find?_some (p := fun r : Region => r.opening == i) hfound)
    obtain ⟨-, closer, -, hcloser, -, hclose, hmatch, -⟩ :=
      ((ofCode_numbered code pairing).formed r hr).matched hpaired
    refine ⟨r, hr, rfl, hsame, hsame ▸ hmatch.1, ?_⟩
    rw [Code.mark, Code.has, hcloser, Option.any_some]
    exact Token.closing?_eq_some_iff.mp hclose

namespace Wedge.Enters

variable {w : Wedge} {o o' : Outline} (h : w.Enters o o') {i k : Nat}

include h

theorem toList_move : o'.forest.toList = o.forest.toList.map w.moveRegion := by
  rw [h.forest_eq, h.forest_eq', Forest.toList, Forest.toList, h.cleaves.regions_move h.spares,
    Array.toList_map]

/-- The region that a brace opens is the one it opened before. -/
theorem atOpening?_move :
    o'.forest.atOpening? (w.move i) = (o.forest.atOpening? i).map w.moveRegion := by
  have htest : ((fun r : Region => r.opening == w.move i) ∘ w.moveRegion) =
      fun r : Region => r.opening == i := by
    funext r
    rw [Function.comp_apply, moveRegion, Bool.eq_iff_iff, beq_iff_eq, beq_iff_eq, move_inj]
  rw [h.forest_eq, h.forest_eq', Forest.atOpening?, Forest.atOpening?,
    h.cleaves.regions_move h.spares, Array.find?_map, htest]

/-- The functions are those of before, moved. -/
theorem functions_move : o'.functions =
    o.functions.map fun f => (w.moveRegion f.1, w.moveHead f.2) := by
  rw [Outline.functions, Outline.functions, h.toList_move, List.filterMap_map, List.map_filterMap]
  congr 1
  funext r
  obtain ⟨id, kind, opening, closing, start, stop, parent⟩ := r
  cases kind <;> rfl

theorem handlersOf_move (id : Nat) : o'.handlersOf id = (o.handlersOf id).map w.moveRegion := by
  rw [Outline.handlersOf, Outline.handlersOf, h.toList_move, List.filter_map]
  congr 2
  funext r
  obtain ⟨id, kind, opening, closing, start, stop, parent⟩ := r
  cases kind <;> rfl

end Wedge.Enters

namespace Usage

/-! ## Scopes that hide less -/

/-- The same parentheses where they went, with no more names declared in them. -/
structure Paren.Covers (w : Wedge) (p p' : Paren) : Prop where
  closing_eq : p'.closing = w.move p.closing
  opening_eq : p'.opening = w.move p.opening
  site_eq : p'.site = p.site
  declared : p'.declared ⊆ p.declared

/-- **The same scope where it went**, with no more names declared in it. -/
structure Scope.Covers (w : Wedge) (s s' : Scope) : Prop where
  stop_eq : s'.stop = w.move s.stop
  floor_eq : s'.floor = w.reach s.floor
  shadowed : s'.shadowed ⊆ s.shadowed
  parens : List.Forall₂ (Paren.Covers w) s.parens s'.parens
  pending : s'.pending ⊆ s.pending

namespace Scope.Covers

variable {w : Wedge} {o o' : Outline} {s s' : Scope} {i : Nat} (hs : Covers w s s')

include hs

/-- What is in parentheses after was in parentheses before. -/
theorem inParens : s'.inParens ⊆ s.inParens := by
  obtain ⟨stop, floor, shadowed, parens, pending⟩ := s
  obtain ⟨stop', floor', shadowed', parens', pending'⟩ := s'
  have hparens : List.Forall₂ (Paren.Covers w) parens parens' := hs.parens
  rw [Scope.inParens, Scope.inParens]
  clear hs
  induction hparens with
  | nil => exact List.Subset.refl _
  | cons hp _ ih =>
    rw [List.flatMap_cons, List.flatMap_cons]
    exact List.append_subset.mpr ⟨List.subset_append_of_subset_left _ hp.declared,
      List.subset_append_of_subset_right _ ih⟩

theorem isEmpty_parens : s'.parens.isEmpty = s.parens.isEmpty := by
  rcases hs.parens.length_eq with hlength
  rw [Bool.eq_iff_iff, List.isEmpty_iff_length_eq_zero, List.isEmpty_iff_length_eq_zero, hlength]

/-- What is hidden was hidden. -/
theorem hides {name : String} (hhidden : s'.hides name = true) : s.hides name = true := by
  rw [Scope.hides, Bool.or_eq_true, Bool.or_eq_true, List.contains_iff_mem, List.contains_iff_mem,
    List.contains_iff_mem] at hhidden ⊢
  exact hhidden.imp (.imp (fun hname => hs.shadowed hname) fun hname => hs.pending hname)
    fun hname => hs.inParens hname

/-- No name is pending after the end of a statement. -/
theorem clear : Covers w s { s' with pending := [] } :=
  { hs with pending := List.nil_subset _ }

theorem clear_both : Covers w { s with pending := [] } { s' with pending := [] } :=
  { hs with pending := List.Subset.refl _ }

/-- Entering a region keeps the relation of the two scopes. -/
theorem enter (r : Region) : Covers w (s.enter r) (s'.enter (w.moveRegion r)) where
  stop_eq := rfl
  floor_eq := (Wedge.reach_succ r.opening).symm
  shadowed := by
    have hpending := List.append_subset.mpr
      ⟨List.subset_append_of_subset_left s.pending hs.shadowed,
        List.subset_append_of_subset_right s.shadowed hs.pending⟩
    exact List.append_subset.mpr ⟨List.subset_append_of_subset_left _ hpending,
      List.subset_append_of_subset_right _ hs.inParens⟩
  parens := .nil
  pending := List.Subset.refl _

theorem closeParen : Covers w (s.closeParen i) (s'.closeParen (w.move i)) := by
  obtain ⟨stop, floor, shadowed, parens, pending⟩ := s
  obtain ⟨stop', floor', shadowed', parens', pending'⟩ := s'
  have hparens : List.Forall₂ (Paren.Covers w) parens parens' := hs.parens
  rw [Scope.closeParen, Scope.closeParen]
  cases hparens with
  | nil => exact hs
  | @cons p p' _ _ hp houter =>
    obtain ⟨closing, opening, site, declared⟩ := p
    obtain ⟨closing', opening', site', declared'⟩ := p'
    obtain rfl : closing' = w.move closing := hp.closing_eq
    obtain rfl : site' = site := hp.site_eq
    have hcovers : ∀ {pending pending' : List String}, pending' ⊆ pending →
        ∀ {parens parens' : List Paren}, List.Forall₂ (Paren.Covers w) parens parens' →
          Covers w ⟨stop, floor, shadowed, parens, pending⟩
            ⟨stop', floor', shadowed', parens', pending'⟩ :=
      fun hpending _ _ hparens => ⟨hs.stop_eq, hs.floor_eq, hs.shadowed, hparens, hpending⟩
    dsimp only
    by_cases hsame : closing = i
    · rw [if_neg (not_not_intro hsame), if_neg (not_not_intro (Wedge.move_inj.mpr hsame))]
      cases houter with
      | nil =>
        rcases site' with _ | _ | _ | _
        · exact hcovers hs.pending .nil
        all_goals exact hcovers hp.declared .nil
      | cons hnext houter =>
        have hmerged := List.append_subset.mpr
          ⟨List.subset_append_of_subset_left declared hnext.declared,
            List.subset_append_of_subset_right _ hp.declared⟩
        rcases site' with _ | _ | _ | _
        case some.parameter => exact hcovers hp.declared (.cons hnext houter)
        all_goals exact hcovers hs.pending (.cons { hnext with declared := hmerged } houter)
    · rw [if_pos hsame, if_pos fun hmoved => hsame (Wedge.move_inj.mp hmoved)]
      exact hs

/-- A name that is declared in both. -/
theorem declare (name : String) : Covers w (s.declare name) (s'.declare name) := by
  obtain ⟨stop, floor, shadowed, parens, pending⟩ := s
  obtain ⟨stop', floor', shadowed', parens', pending'⟩ := s'
  have hparens : List.Forall₂ (Paren.Covers w) parens parens' := hs.parens
  rw [Scope.declare, Scope.declare]
  cases hparens with
  | nil => exact ⟨hs.stop_eq, hs.floor_eq, List.cons_subset_cons _ hs.shadowed, .nil, hs.pending⟩
  | cons hp houter =>
    refine ⟨hs.stop_eq, hs.floor_eq, hs.shadowed, .cons ⟨hp.closing_eq, hp.opening_eq, hp.site_eq,
      ?_⟩ houter, hs.pending⟩
    exact List.append_subset.mpr ⟨List.subset_append_of_subset_left _ hp.declared,
      List.subset_append_right _ _⟩

/-- A name that is declared before only. -/
theorem declare_left (name : String) : Covers w (s.declare name) s' := by
  obtain ⟨stop, floor, shadowed, parens, pending⟩ := s
  obtain ⟨stop', floor', shadowed', parens', pending'⟩ := s'
  have hparens : List.Forall₂ (Paren.Covers w) parens parens' := hs.parens
  rw [Scope.declare]
  cases hparens with
  | nil => exact { hs with shadowed := List.subset_cons_of_subset _ hs.shadowed }
  | cons hp houter =>
    exact { hs with parens := .cons { hp with
      declared := List.subset_append_of_subset_left _ hp.declared } houter }

end Scope.Covers

/-! ## One step -/

section Walk

variable {w : Wedge} {o o' : Outline} (h : w.Enters o o') {names : List String} {s s' : Scope}
  {i k fuel fuel' : Nat}

/-- A declaration at a name whose tokens mention no parameter that is visible. -/
theorem declares_eq_true_iff : declares o names s i = true ↔ ∃ site d, s.place.1 = some site ∧
    declarationAt? o.code o.pairing i s.place.2 site = some d ∧
    ∀ k, d.start ≤ k → k < i → o.code.nameAt k = true → o.code.name k ∈ names →
      o.code.name k ∈ s.shadowed := by
  rw [declares]
  rcases s.place with ⟨_ | site, floor⟩
  · simp
  dsimp only
  rw [Option.bind_some]
  cases hfound : declarationAt? o.code o.pairing i floor site with
  | none => simp [hfound]
  | some d =>
    simp only [Option.some.injEq, exists_and_left, exists_eq_left', hfound, Bool.not_eq_true',
      List.any_eq_false, Slice.mem_indices, Bool.and_eq_true, List.contains_iff_mem, not_and,
      Bool.not_eq_false, and_imp]

include h

/-- A local declaration is looked for at the same sites. -/
theorem siteAt?_move (hi : o.code.mark i "\x7d" = false) :
    siteAt? o'.code (w.move i) = siteAt? o.code i := by
  have hcontrol : Inner (·.isKeywordIn ["for", "if", "while", "switch"]) :=
    .of_kind fun t ht => by rw [Token.isKeywordIn, ht]; rfl
  have hparameter : Inner fun t => t.isKeyword "catch" || t.isMark "]" :=
    (inner_isKeyword "catch").or (inner_isMark (by decide))
  rw [siteAt?, siteAt?, h.cleaves.hasBefore_move hcontrol hi,
    h.cleaves.hasBefore_move hparameter hi]

/-- An opening parenthesis keeps the relation of the two scopes. -/
theorem Scope.Covers.openParen (hs : Covers w s s') (hi : o.code.mark i "(" = true) :
    Covers w (s.openParen o i) (s'.openParen o' (w.move i)) := by
  refine { hs with parens := .cons ⟨?_, rfl, ?_, List.Subset.refl _⟩ hs.parens }
  · dsimp only
    rw [h.cleaves.partner_move, hs.stop_eq]
    cases o.pairing.partner i <;> rfl
  · exact siteAt?_move h (Code.mark_eq_false hi (by decide))

omit h in
theorem Scope.Covers.place_eq (hs : Covers w s s') :
    s'.place = (s.place.1, w.reach s.place.2) := by
  obtain ⟨stop, floor, shadowed, parens, pending⟩ := s
  obtain ⟨stop', floor', shadowed', parens', pending'⟩ := s'
  have hparens : List.Forall₂ (Paren.Covers w) parens parens' := hs.parens
  have hfloor : floor' = w.reach floor := hs.floor_eq
  cases hparens with
  | nil => rw [Scope.place, Scope.place, hfloor]
  | cons hp _ =>
    rw [Scope.place, Scope.place]
    dsimp only
    rw [hp.site_eq, hp.opening_eq, Wedge.reach_succ]

/-- **What is declared was declared.** -/
theorem declares_of_move (hs : Scope.Covers w s s')
    (hdeclares : declares o' names s' (w.move i) = true) : declares o names s i = true := by
  obtain ⟨site, d', hsite, hfound, hfree⟩ := declares_eq_true_iff.mp hdeclares
  rw [hs.place_eq] at hsite hfound
  dsimp only at hsite hfound
  rcases @Wedge.Cleaves.declarationAt?_move _ _ _ _ _ h.cleaves s.place.2 i site with
    hmoved | ⟨hnone, -⟩
  · rw [hfound] at hmoved
    obtain ⟨d, hd, rfl⟩ := Option.map_eq_some_iff.mp hmoved.symm
    refine declares_eq_true_iff.mpr ⟨site, d, hsite, hd, fun k hle hlt hname hlisted => ?_⟩
    have hmem := hfree (w.move k) (Wedge.move_le_iff.mpr hle) (Wedge.move_lt_iff.mpr hlt)
    rw [h.cleaves.nameAt_move, h.cleaves.name_move] at hmem
    exact hs.shadowed (hmem hname hlisted)
  · cases hfound.symm.trans hnone

/-- A name is a member after exactly if it was before. -/
theorem isMember_move (hname : o.code.nameAt i = true) :
    isMember o'.code (w.move i) = isMember o.code i :=
  h.cleaves.hasBefore_move (.of (fun _ => rfl) (fun _ => rfl) fun _ => rfl)
    (Code.mark_of_nameAt hname _)

/-- **One token leaves the scopes alike**, and is a use still. -/
theorem step_move (hs : Scope.Covers w s s') :
    Scope.Covers w (step o names s i).1 (step o' names s' (w.move i)).1 ∧
      ((step o names s i).2 = true → (step o' names s' (w.move i)).2 = true) := by
  rw [step, step, h.cleaves.mark_move, h.cleaves.mark_move, h.cleaves.mark_move,
    h.cleaves.nameAt_move, h.cleaves.name_move, hs.isEmpty_parens]
  split_ifs with hopen hclose hend hname hdeclares hdeclares' hdeclares'
  · exact ⟨hs.openParen h hopen, id⟩
  · exact ⟨hs.closeParen, id⟩
  · exact ⟨hs.clear_both, id⟩
  · exact ⟨hs.declare _, id⟩
  · exact ⟨hs.declare_left _, fun hused => by cases hused⟩
  · exact absurd (declares_of_move h hs hdeclares') hdeclares
  · refine ⟨hs, fun hused => ?_⟩
    rw [isMember_move h (Bool.and_eq_true_iff.mp hname).1]
    rw [Bool.and_eq_true, Bool.not_eq_true'] at hused ⊢
    exact ⟨Bool.not_eq_true _ ▸ fun hhidden =>
      Bool.false_ne_true (hused.1.symm.trans (hs.hides hhidden)), hused.2⟩
  · exact ⟨hs, id⟩

/-! ## The stretch -/

/-- No brace opens in the stretch. -/
theorem mark_opener_chunk (hi : i < w.chunk.length) :
    o'.code.mark (w.place + i) "\x7b" = false := by
  refine h.cleaves.has_chunk (fun t ht => ?_) hi
  have hnone := List.filterMap_eq_nil_iff.mp h.cleaves.braces_eq t ht
  rw [Forest.brace?] at hnone
  split_ifs at hnone with hopen hclose
  rw [← Bool.not_eq_true]
  intro hmark
  exact hopen (beq_iff_eq.mpr (Token.opening?_eq_some_iff.mpr hmark))

/-- A token of a stretch without parentheses declares nothing. -/
theorem step_chunk (hplain : ∀ t ∈ w.chunk, t.isMark "(" = false ∧ t.isMark ")" = false)
    (hs : Scope.Covers w s s') (hi : i < w.chunk.length) :
    Scope.Covers w s (step o' names s' (w.place + i)).1 := by
  have hopen : o'.code.mark (w.place + i) "(" = false :=
    h.cleaves.has_chunk (fun t ht => (hplain t ht).1) hi
  have hclose : o'.code.mark (w.place + i) ")" = false :=
    h.cleaves.has_chunk (fun t ht => (hplain t ht).2) hi
  rw [step, hopen, hclose, if_neg Bool.false_ne_true, if_neg Bool.false_ne_true]
  split_ifs with hend hname hdeclares
  · exact hs.clear
  · obtain ⟨site, d, -, hfound, -⟩ := declares_eq_true_iff.mp hdeclares
    cases hfound.symm.trans
      (h.cleaves.declarationAt?_chunk hi (Bool.and_eq_true_iff.mp hname).1)
  · exact hs
  · exact hs

variable (names) in
/-- **The walk passes the stretch**: the scope after it covers what the scope before it did. -/
theorem exists_walks_chunk (hs : Scope.Covers w s s') (hstop : w.place < s.stop)
    (hfresh : o.code.markBefore w.place "\x7b" = true → s'.parens = [] ∧ s'.pending = []) :
    ∃ uses s'', Walks o' names s' w.place w.chunk.length uses s'' ∧ Scope.Covers w s s'' := by
  have hmoved : s'.stop = s.stop + w.chunk.length := by
    rw [hs.stop_eq, Wedge.move_of_le (Nat.le_of_lt hstop)]
  rcases h.text with ⟨hhead, style, words, hwords, hshapes⟩ | hplain
  · obtain ⟨hpos, hbrace⟩ := Code.hasBefore_iff.mp hhead
    obtain ⟨i, hi⟩ : ∃ i, w.place = i + 1 := ⟨w.place - 1, by omega⟩
    rw [hi, Nat.add_sub_cancel] at hbrace
    obtain ⟨hparens, hpending⟩ := hfresh hhead
    have hlength : (words.flatMap style.shapes).length = w.chunk.length := by
      rw [← hshapes, List.length_map]
    have hreads : o'.code.ReadsAt (i + 1) (words.flatMap style.shapes) := by
      intro k shape hk
      rw [← hshapes, List.getElem?_map, Option.map_eq_some_iff] at hk
      obtain ⟨t, ht, rfl⟩ := hk
      exact ⟨t.start, by
        rw [← hi, h.cleaves.getElem?_chunk (List.getElem?_eq_some_iff.mp ht).1, ht]; rfl⟩
    have hends : o'.code.has i endsStatement = true := by
      rw [← Wedge.move_of_lt (w := w) (show i < w.place by omega), h.cleaves.has_move]
      exact Code.has_endsStatement_of_mark hbrace (by decide)
    obtain ⟨uses, hwalks, -⟩ := walks_discards names h.cleaves.paired' hreads hwords hends hparens
      hpending (by omega)
    rw [hlength, ← hi] at hwalks
    exact ⟨uses, s', hwalks, hs⟩
  · suffices hrun : ∀ n ≤ w.chunk.length, ∃ uses s'', Walks o' names s' w.place n uses s'' ∧
        Scope.Covers w s s'' from hrun _ (Nat.le_refl _)
    intro n hn
    induction n with
    | zero => exact ⟨[], s', .nil s' _, hs⟩
    | succ n ih =>
      obtain ⟨uses, s'', hwalks, hcovers⟩ := ih (by omega)
      have hstop'' : w.place + n < s''.stop := by
        rw [hcovers.stop_eq, Wedge.move_of_le (Nat.le_of_lt hstop)]
        omega
      exact ⟨_, _, hwalks.trans (.of_step hstop'' (mark_opener_chunk h (by omega)) rfl),
        step_chunk h hplain hcovers (by omega)⟩

/-! ## The whole walk -/

/-- What follows a token is walked from there on, past the stretch if that goes there. -/
theorem mem_walk_reach (hs : Scope.Covers w s s') (hstop : i < s.stop)
    (hfresh : o.code.markBefore i "\x7b" = true → s'.parens = [] ∧ s'.pending = [])
    (hfuel : fuel + w.chunk.length ≤ fuel' + (w.reach i - i))
    (hmove : ∀ {s'' fuel''}, Scope.Covers w s s'' →
      fuel + w.chunk.length ≤ fuel'' + (w.move i - i) → k ∈ walk o' names fuel'' s'' (w.move i)) :
    k ∈ walk o' names fuel' s' (w.reach i) := by
  by_cases hplace : i = w.place
  · subst hplace
    obtain ⟨uses, s'', hwalks, hcovers⟩ := exists_walks_chunk h names hs hstop hfresh
    rw [Wedge.reach_place] at hfuel ⊢
    obtain ⟨m, rfl⟩ : ∃ m, fuel' = m + w.chunk.length := ⟨fuel' - w.chunk.length, by omega⟩
    have hrest : fuel + w.chunk.length ≤ m + (w.move w.place - w.place) := by
      rw [Wedge.move_of_le (Nat.le_refl _)]
      omega
    have hmoved := hmove hcovers hrest
    rw [Wedge.move_of_le (Nat.le_refl _)] at hmoved
    rw [hwalks m]
    exact List.mem_append_right _ hmoved
  · rw [Wedge.reach_of_ne hplace] at hfuel ⊢
    exact hmove hs hfuel

omit h in
/-- A walk that finds a use has not ended. -/
theorem lt_stop_of_mem_walk (hk : k ∈ walk o names fuel s i) : i < s.stop := by
  cases fuel with
  | zero => cases hk
  | succ fuel =>
    by_contra hstop
    rw [walk, if_pos (Nat.not_lt.mp hstop)] at hk
    cases hk

/-- **A walk meets every use that it met before.** -/
theorem mem_walk_move (hs : Scope.Covers w s s')
    (hfuel : fuel + w.chunk.length ≤ fuel' + (w.move i - i)) (hk : k ∈ walk o names fuel s i) :
    w.move k ∈ walk o' names fuel' s' (w.move i) := by
  induction fuel generalizing s s' i fuel' with
  | zero => cases hk
  | succ fuel ih =>
    have hstop := lt_stop_of_mem_walk hk
    have hmove := w.move_le_add i
    obtain ⟨fuel', rfl⟩ : ∃ m, fuel' = m + 1 := ⟨fuel' - 1, by omega⟩
    -- From the next token on, wherever that is.
    have hnext : ∀ {s s' : Scope} {m : Nat}, i < m → Scope.Covers w s s' →
        (o.code.markBefore m "\x7b" = true → s'.parens = [] ∧ s'.pending = []) →
        k ∈ walk o names fuel s m → w.move k ∈ walk o' names fuel' s' (w.reach m) := by
      intro s s' m hm hs hfresh hk
      have hfuel : fuel + w.chunk.length ≤ fuel' + (w.reach m - m) := by
        rw [Wedge.move] at hfuel
        rw [Wedge.reach]
        split_ifs at hfuel ⊢ <;> omega
      exact mem_walk_reach h hs (lt_stop_of_mem_walk hk) hfresh hfuel fun hs hfuel =>
        ih hs hfuel hk
    have hstop' : ¬s'.stop ≤ w.move i := by
      rw [hs.stop_eq, Wedge.move_le_iff]
      omega
    rw [walk, if_neg (Nat.not_le.mpr hstop)] at hk
    rw [walk, if_neg hstop', h.cleaves.mark_move, h.atOpening?_move]
    cases hbrace : o.code.mark i "\x7b" with
    | true =>
      obtain ⟨r, -, hr, hopening, hlt, hclose⟩ := Forest.exists_atOpening? h.cleaves.paired hbrace
      rw [← h.forest_eq] at hr
      rw [hbrace, if_pos rfl, hr] at hk
      rw [if_pos rfl, hr]
      refine (List.mem_append.mp hk).elim (fun hk => List.mem_append_left _ ?_)
        fun hk => List.mem_append_right _ ?_
      · have hclosed : isClosed (w.moveRegion r).kind = isClosed r.kind := by
          rw [Wedge.moveRegion]
          cases r.kind <;> rfl
        rw [hclosed]
        split_ifs at hk ⊢
        · cases hk
        · have := hnext (by omega) (hs.enter r) (fun _ => ⟨rfl, rfl⟩) hk
          rwa [Wedge.reach_succ] at this
      · have := hnext (by omega) hs.clear_both (fun hopen => ?_) hk
        · rwa [Wedge.reach_succ] at this
        · cases (Code.mark_eq_false hclose (by decide)).symm.trans hopen
    | false =>
      rw [hbrace, if_neg Bool.false_ne_true] at hk
      rw [if_neg Bool.false_ne_true]
      have hstep : Scope.Covers w (step o names s i).1 (step o' names s' (w.move i)).1 ∧ _ :=
        step_move h hs
      generalize step o names s i = before at hk hstep
      generalize step o' names s' (w.move i) = after at hstep ⊢
      obtain ⟨next, used⟩ := before
      obtain ⟨next', used'⟩ := after
      obtain ⟨hcovers, hused⟩ := hstep
      refine (List.mem_append.mp hk).elim (fun hk => List.mem_append_left _ ?_)
        fun hk => List.mem_append_right _ ?_
      · split_ifs at hk with huses
        · obtain rfl := List.mem_singleton.mp hk
          rw [if_pos (hused huses)]
          exact List.mem_singleton.mpr rfl
        · cases hk
      · have := hnext (Nat.lt_succ_self i) hcovers (fun hopen => ?_) hk
        · rwa [Wedge.reach_succ] at this
        · cases hbrace.symm.trans hopen

/-- **What a region uses it uses still.** -/
theorem mem_inRegion_move {r : Region} (hk : k ∈ inRegion o names r) :
    w.move k ∈ inRegion o' names (w.moveRegion r) := by
  have hsize := h.cleaves.size_eq
  have hs : Scope.Covers w (.ofRegion r []) (.ofRegion (w.moveRegion r) []) :=
    ⟨rfl, (Wedge.reach_succ r.opening).symm, List.Subset.refl _, .nil, List.Subset.refl _⟩
  rw [inRegion] at hk ⊢
  rw [Wedge.moveRegion, ← Wedge.reach_succ]
  have hfuel : o.code.size + 1 + w.chunk.length ≤
      o'.code.size + 1 + (w.reach (r.opening + 1) - (r.opening + 1)) := by omega
  exact mem_walk_reach h hs (lt_stop_of_mem_walk hk) (fun _ => ⟨rfl, rfl⟩) hfuel fun hs hfuel =>
    mem_walk_move h hs hfuel hk

/-- The uses in a trailer stay, moved. -/
theorem mem_inTrailer_move {head : FunctionHead} {body : Region}
    (hk : k ∈ inTrailer o names head body) :
    w.move k ∈ inTrailer o' names (w.moveHead head) (w.moveRegion body) := by
  rw [inTrailer, List.mem_filter, Slice.mem_indices, Bool.and_eq_true, Bool.and_eq_true] at hk ⊢
  obtain ⟨⟨hclosing, hopening⟩, ⟨hname, hlisted⟩, hmember⟩ := hk
  rw [h.cleaves.nameAt_move, h.cleaves.name_move, isMember_move h hname]
  exact ⟨⟨Wedge.move_lt_iff.mpr hclosing, Wedge.move_lt_iff.mpr hopening⟩, ⟨hname, hlisted⟩,
    hmember⟩

omit h in
theorem names_eq_of_carries {params params' : List Parameter}
    (hparams : List.Forall₂ w.Carries params params') :
    params'.filterMap (·.name) = params.filterMap (·.name) := by
  induction hparams with
  | nil => rfl
  | cons hp _ ih => rw [List.filterMap_cons, List.filterMap_cons, hp.name_eq, ih]

/-- **What a function uses it uses still.** -/
theorem mem_uses_move {body : Region} {head : FunctionHead} {params params' : List Parameter}
    (hparams : List.Forall₂ w.Carries params params') (hk : k ∈ uses o body head params) :
    w.move k ∈ uses o' (w.moveRegion body) (w.moveHead head) params' := by
  rw [uses, List.mem_append, List.mem_append, List.mem_flatMap] at hk ⊢
  rw [names_eq_of_carries hparams, show (w.moveRegion body).id = body.id from rfl,
    h.handlersOf_move]
  refine hk.imp (.imp (mem_inTrailer_move h) (mem_inRegion_move h)) ?_
  rintro ⟨r, hr, hk⟩
  exact ⟨_, List.mem_map_of_mem hr, mem_inRegion_move h hk⟩

end Walk

end Usage

/-! ## Unused parameters -/

/-- **The function with the body of a number does not use a parameter** that may be reported. -/
def Outline.Neglects (o : Outline) (id : Nat) (name : String) : Prop :=
  ∃ u ∈ o.unusedParams, u.region = id ∧ name ∈ u.names

namespace Wedge.Enters

variable {w : Wedge} {o o' : Outline} (h : w.Enters o o')

include h

/-- A function declares the same parameters. -/
theorem parameters_move {f : Region × FunctionHead} (hf : f ∈ o.functions) :
    List.Forall₂ w.Carries (o.parameters f.2) (o'.parameters (w.moveHead f.2)) := by
  obtain ⟨hmem, hkind⟩ := Outline.mem_functions_iff.mp hf
  rw [h.forest_eq] at hmem
  obtain ⟨-, inClass, hhead⟩ := Region.functionHead?_of_classify
    ((Forest.classified h.cleaves.paired hmem).symm.trans hkind)
  obtain ⟨hopen, hgroup, -, -⟩ := params_of_functionHead? h.cleaves.paired hhead
  exact h.cleaves.parameters_move hopen hgroup (h.lists f hf)

omit h in
/-- Parameters that the stretch carries along are candidates under the same names. -/
theorem candidates_eq_of_carries {params params' : List Parameter}
    (hparams : List.Forall₂ w.Carries params params') :
    UnusedParams.candidates params' =
      (UnusedParams.candidates params).map fun p => (p.1, w.move p.2) := by
  rw [UnusedParams.candidates, UnusedParams.candidates, List.map_filterMap]
  induction hparams with
  | nil => rfl
  | @cons p p' _ _ hp _ ih =>
    rw [List.filterMap_cons, List.filterMap_cons, ih, Parameter.isCandidate, Parameter.isCandidate,
      hp.name_eq, hp.token_eq, hp.maybeUnused_eq]
    cases p.name <;> cases p.token <;> first | rfl | (dsimp only [Option.map]; split_ifs <;> rfl)

/-- **What is not used after was not used before.** -/
theorem neglects_of_move {id : Nat} {name : String} (hneglects : o'.Neglects id name) :
    o.Neglects id name := by
  obtain ⟨u', hu', rfl, hname⟩ := hneglects
  obtain ⟨f', hf', hu'⟩ := List.mem_filterMap.mp hu'
  rw [h.functions_move] at hf'
  obtain ⟨f, hf, rfl⟩ := List.mem_map.mp hf'
  obtain ⟨p', hp', rfl⟩ := List.mem_map.mp hname
  obtain ⟨hcandidate', hunused'⟩ := UnusedParams.not_used hu' hp'
  have hparams := h.parameters_move hf
  rw [candidates_eq_of_carries hparams] at hcandidate'
  obtain ⟨p, hcandidate, rfl⟩ := List.mem_map.mp hcandidate'
  have hunused : ∀ k ∈ Usage.uses o f.1 f.2 (o.parameters f.2), o.code.name k ≠ p.1 :=
    fun k hk hname => hunused' _ (Usage.mem_uses_move h hparams hk)
      ((h.cleaves.name_move k).trans hname)
  obtain ⟨u, hu, q, hq, hsame⟩ := UnusedParams.exists_ofFunction? hcandidate hunused
  exact ⟨u, List.mem_filterMap.mpr ⟨f, hf, hu⟩, (Plan.region_eq hu).trans (Plan.region_eq hu').symm,
    List.mem_map.mpr ⟨q, hq, hsame⟩⟩

end Wedge.Enters

end Quell
