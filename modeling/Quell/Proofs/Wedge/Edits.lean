import Mathlib.Tactic.Common
import Quell.Proofs.Wedge.Lace

/-!
# Proofs/Wedge/Edits — the texts of a run as wedges

Bare code has no byte offsets, so the code of the result of a run is that of the buffer with one
wedge laced in per edit (`Woven.toList_eq_lace`).  A row of discards at a sheltered place makes a
wedge that fits (`Plan.fits_discard`).  Where all edits of a run make such wedges, the result has no
discard to plan (`Woven.discardEdits_eq_nil`): what is unused in it was unused before, and is
discarded.
-/

namespace Quell

open Declaration Lexer Wedge

/-! ## Places -/

/-- The number of code tokens that start before an offset. -/
def Outline.place (o : Outline) (offset : Nat) : Nat := o.code.toList.countP (·.start < offset)

/-- **The wedge of an edit**: the code of its text, before the first token from its offset on. -/
def Edit.wedge (o : Outline) (e : Edit) : Wedge := ⟨o.place e.offset, plant (codeOf e.text)⟩

/-- The outline of the bare code. -/
def Outline.stripped (o : Outline) : Outline :=
  { o.bare with forest := Forest.ofCode o.code.bare o.pairing }

/-- Tokens in order are cut in two by an offset. -/
theorem le_start_of_mem_dropWhile {tokens : List Token}
    (hsorted : tokens.Pairwise fun t u => t.start ≤ u.start) {offset : Nat} {t : Token}
    (ht : t ∈ tokens.dropWhile (·.start < offset)) : offset ≤ t.start := by
  induction tokens with
  | nil => cases ht
  | cons u tokens ih =>
    obtain ⟨hle, hsorted⟩ := List.pairwise_cons.mp hsorted
    rcases Nat.lt_or_ge u.start offset with hlt | hge
    · rw [List.dropWhile_cons_of_pos (by simpa using hlt)] at ht
      exact ih hsorted ht
    · rw [List.dropWhile_cons_of_neg (by simpa using hge)] at ht
      rcases List.mem_cons.mp ht with rfl | ht
      · exact hge
      · exact Nat.le_trans hge (hle t ht)

/-- The code tokens among tokens that start before an offset. -/
def countBefore (tokens : List Token) (offset : Nat) : Nat :=
  (tokens.filter (!·.isTrivia)).countP (·.start < offset)

/-- The code before an offset is that of the front part, and of the rest what stands before it. -/
theorem countBefore_append {before after : List Token} {offset : Nat}
    (hbefore : ∀ t ∈ before, t.start < offset) :
    countBefore (before ++ after) offset = (reads before).length + countBefore after offset := by
  rw [countBefore, List.filter_append, List.countP_append, List.countP_eq_length.mpr, reads,
    List.length_map, countBefore]
  intro t ht
  simpa using hbefore t (List.mem_of_mem_filter ht)

theorem countBefore_eq_zero {after : List Token} {offset : Nat}
    (hafter : ∀ t ∈ after, offset ≤ t.start) : countBefore after offset = 0 := by
  rw [countBefore, List.countP_eq_zero]
  intro t ht
  simpa using hafter t (List.mem_of_mem_filter ht)

/-- **The code with the texts of edits is the code with their wedges laced in.** -/
theorem plant_weave {tokens : List Token} (hsorted : tokens.Pairwise fun t u => t.start ≤ u.start)
    {edits : List Edit} (hordered : edits.Pairwise fun d e => d.offset < e.offset)
    (front : List (Kind × Bytes)) :
    plant (front ++ weave tokens edits) =
      lace (edits.map fun e => ⟨front.length + countBefore tokens e.offset, plant (codeOf e.text)⟩)
        (plant (front ++ reads tokens)) := by
  induction edits generalizing tokens front with
  | nil => rfl
  | cons e edits ih =>
    obtain ⟨hlater, hordered⟩ := List.pairwise_cons.mp hordered
    have hbefore : ∀ t ∈ tokens.takeWhile (·.start < e.offset), t.start < e.offset := fun t ht => by
      simpa using List.all_eq_true.mp List.all_takeWhile t ht
    have hafter : ∀ t ∈ tokens.dropWhile (·.start < e.offset), e.offset ≤ t.start := fun t ht =>
      le_start_of_mem_dropWhile hsorted ht
    have hrest := ih (hsorted.sublist (List.dropWhile_sublist (·.start < e.offset))) hordered
      (front ++ reads (tokens.takeWhile (·.start < e.offset)))
    have hcut := List.takeWhile_append_dropWhile (p := (·.start < e.offset)) (l := tokens)
    rw [weave]
    generalize tokens.takeWhile (·.start < e.offset) = before at *
    generalize tokens.dropWhile (·.start < e.offset) = after at *
    subst hcut
    have hplace : countBefore (before ++ after) e.offset = (reads before).length := by
      rw [countBefore_append hbefore, countBefore_eq_zero hafter, Nat.add_zero]
    have hwedges : edits.map (fun d =>
          Wedge.mk (front.length + countBefore (before ++ after) d.offset)
            (plant (codeOf d.text))) =
        edits.map fun d => ⟨(front ++ reads before).length + countBefore after d.offset,
          plant (codeOf d.text)⟩ := by
      refine List.map_congr_left fun d hd => ?_
      rw [countBefore_append fun t ht => Nat.lt_trans (hbefore t ht) (hlater d hd),
        List.length_append, Nat.add_assoc]
    have hwhole : front ++ reads (before ++ after) = front ++ reads before ++ reads after := by
      rw [reads_append, List.append_assoc]
    have hlength :
        (plant (front ++ reads before)).length = front.length + (reads before).length := by
      rw [plant, List.length_map, List.length_append]
    rw [List.map_cons, lace, List.foldr_cons, ← lace, hwedges, hwhole, ← hrest, hplace,
      Wedge.insert, plant_append (front ++ reads before), List.take_left' hlength,
      List.drop_left' hlength]
    simp only [plant_append, List.append_assoc]

/-! ## Bare outlines -/

namespace Outline

variable {o o' : Outline}

/-- **Outlines of the same bare code are the same**, up to byte offsets. -/
theorem OfCode.bare_eq (h : o.OfCode) (h' : o'.OfCode) (hcode : o.code.bare = o'.code.bare) :
    o.bare = o'.bare := by
  have hpairing : o.pairing = o'.pairing := by
    have hsome := Pairing.ofCode_bare o.code
    rw [hcode, Pairing.ofCode_bare, h.paired, h'.paired] at hsome
    exact (Option.some.inj hsome).symm
  have hforest : o.forest.bare = o'.forest.bare := by
    rw [h.forest_eq, h'.forest_eq, ← Forest.ofCode_bare, hcode, hpairing, Forest.ofCode_bare]
  rw [bare, bare, hcode, hpairing, hforest]

theorem OfCode.stripped (h : o.OfCode) : o.stripped.OfCode :=
  ⟨Pairing.ofCode_bare_eq_ok h.paired, rfl⟩

theorem bare_bare (code : Code) : code.bare.bare = code.bare := by
  rw [Code.bare, Code.bare, Array.map_map]
  rfl

theorem OfCode.bare_stripped (h : o.OfCode) : o.stripped.bare = o.bare :=
  h.stripped.bare_eq h (bare_bare o.code)

/-- A parameter is neglected with or without byte offsets. -/
theorem neglects_bare {id : Nat} {name : String} :
    o.bare.Neglects id name ↔ o.Neglects id name := by
  rw [Neglects, unusedParams_bare, Neglects]

theorem headsPlain_bare (tokens : List Token) :
    Region.headsPlain (tokens.map Token.bare) = Region.headsPlain tokens := by
  have hstops : ∀ (angle : Int) (tokens : List Token),
      Region.stopsClass angle (tokens.map Token.bare) = Region.stopsClass angle tokens := by
    intro angle tokens
    induction tokens generalizing angle with
    | nil => rfl
    | cons t tokens ih =>
      simp only [List.map_cons, Region.stopsClass, ih]
      rfl
  cases tokens with
  | nil => rfl
  | cons t tokens =>
    rw [List.map_cons, Region.headsPlain, ← List.map_cons, hstops]
    rfl

theorem functions_bare (o : Outline) :
    o.bare.functions = o.functions.map (Prod.map Region.bare id) := by
  rw [functions, functions, forest_bare, Forest.toList_bare, List.filterMap_map,
    List.map_filterMap]
  congr 1
  funext r
  obtain ⟨id, kind, opening, closing, start, stop, parent⟩ := r
  cases kind <;> rfl

theorem shelters_bare {place : Nat} : o.bare.Shelters place ↔ o.Shelters place := by
  rw [shelters_iff, shelters_iff, functions_bare]
  simp only [code_bare, pairing_bare, Code.size_bare, Code.mark_bare, Code.has_bare,
    Region.statementStart_bare, Code.slice_bare, headsPlain_bare, List.forall_mem_map]
  rfl

end Outline

namespace Outline.Valid

variable {o : Outline} (h : o.Valid) {i offset : Nat} {t : Token} {r q : Region}

/-- The place of an offset is the number of tokens before it. -/
theorem place_eq (hi : i ≤ o.code.size)
    (hbefore : ∀ j < i, ∀ t, o.code[j]? = some t → t.start < offset)
    (hafter : ∀ j ≥ i, ∀ t, o.code[j]? = some t → offset ≤ t.start) : o.place offset = i := by
  have hfront : (o.code.toList.take i).countP (·.start < offset) = i := by
    rw [List.countP_eq_length.mpr, List.length_take, Array.length_toList, Nat.min_eq_left hi]
    intro t ht
    obtain ⟨j, hj⟩ := List.getElem?_of_mem ht
    rw [List.getElem?_take] at hj
    split_ifs at hj with hlt
    rw [Array.getElem?_toList] at hj
    simpa using hbefore j hlt t hj
  have hback : (o.code.toList.drop i).countP (·.start < offset) = 0 := by
    rw [List.countP_eq_zero]
    intro t ht
    obtain ⟨j, hj⟩ := List.getElem?_of_mem ht
    rw [List.getElem?_drop, Array.getElem?_toList] at hj
    simpa using hafter _ (Nat.le_add_right i j) t hj
  rw [place, ← List.take_append_drop i o.code.toList, List.countP_append, hfront, hback,
    Nat.add_zero]

include h

theorem start_lt_stop (ht : o.code[i]? = some t) : t.start < t.stop :=
  (h.bounds (h.mem_tokens ht)).1

/-- The place of a token's start is its index. -/
theorem place_start (ht : o.code[i]? = some t) : o.place t.start = i := by
  refine place_eq (Nat.le_of_lt (Array.getElem?_eq_some_iff.mp ht).1) (fun j hj u hu => ?_)
    fun j hj u hu => ?_
  · exact Nat.lt_of_lt_of_le (h.start_lt_stop hu) (h.stop_le_start hj hu ht)
  · rcases Nat.eq_or_lt_of_le hj with rfl | hlt
    · cases ht.symm.trans hu
      exact Nat.le_refl _
    · exact Nat.le_trans (Nat.le_of_lt (h.start_lt_stop ht)) (h.stop_le_start hlt ht hu)

theorem place_stop (ht : o.code[i]? = some t) : o.place t.stop = i + 1 := by
  refine place_eq (Array.getElem?_eq_some_iff.mp ht).1 (fun j hj u hu => ?_) fun j hj u hu =>
    h.stop_le_start hj ht hu
  rcases Nat.eq_or_lt_of_le (Nat.lt_succ_iff.mp hj) with rfl | hlt
  · cases ht.symm.trans hu
    exact h.start_lt_stop ht
  · have := h.start_lt_stop hu
    have := h.stop_le_start hlt hu ht
    have := h.start_lt_stop ht
    omega

/-- What goes after the brace of a region goes to the first token inside. -/
theorem place_bodyOffset (hr : r ∈ o.forest.toList) : o.place r.bodyOffset = r.opening + 1 := by
  obtain ⟨opener, -, hopener, -, -, -, -, -, hbody, -⟩ := h.braces hr
  rw [hbody, h.place_stop hopener]

/-- The place where a body ends is that of the closing brace. -/
theorem place_closeOffset (hr : r ∈ o.forest.toList) : o.place r.closeOffset = r.closing := by
  obtain ⟨-, closer, -, hcloser, -, -, -, -, -, hclose⟩ := h.braces hr
  rw [hclose, h.place_start hcloser]

/-- Regions that close at the same brace are the same. -/
theorem region_ext_of_closing (hr : r ∈ o.forest.toList) (hq : q ∈ o.forest.toList)
    (hclosing : r.closing = q.closing) : r = q := by
  have hpair := h.partnered.symm _ _ (h.partner_opening hr)
  rw [hclosing, h.partnered.symm _ _ (h.partner_opening hq)] at hpair
  exact (h.region_ext hq hr (Option.some.inj hpair)).symm

/-- A region that closes right after the brace of another one is that one. -/
theorem region_ext_of_adjacent (hr : r ∈ o.forest.toList) (hq : q ∈ o.forest.toList)
    (hclosing : r.opening + 1 = q.closing) : r = q := by
  have hopening := (h.matched hr).1
  have hopening' := (h.matched hq).1
  rcases Nat.lt_trichotomy q.opening r.opening with hlt | heq | hgt
  · have := h.partnered.uncrossed _ _ _ _ (h.partner_opening hq) (h.partner_opening hr) hlt
      (by omega)
    omega
  · exact h.region_ext hr hq heq.symm
  · omega

end Outline.Valid

namespace Plan

variable {settings : Settings} {o : Outline} {e d : Edit}

/-- **Edits go to the same token only from the same place.** -/
theorem offset_eq_of_place_eq (h : o.Valid) (he : Planned o settings e) (hd : Planned o settings d)
    (hplace : o.place e.offset = o.place d.offset) : e.offset = d.offset := by
  have hcases : ∀ {e}, Planned o settings e →
      (∃ r ∈ o.forest.toList,
          (∃ head, r.kind = .functionBody head) ∧ e.offset = r.bodyOffset) ∨
        ∃ r ∈ o.forest.toList,
          (∃ group, r.kind = .switchBody group) ∧ e.offset = r.closeOffset := by
    intro e he
    rcases he.mem with he | he
    · obtain ⟨f, hf, hfe⟩ := mem_discardEdits he
      obtain ⟨-, -, hoffset, -⟩ := discardAt?_eq_some h hf hfe
      obtain ⟨hmem, hkind⟩ := Outline.mem_functions_iff.mp hf
      exact .inl ⟨f.1, hmem, ⟨_, hkind⟩, hoffset⟩
    · obtain ⟨s, hs, hse⟩ := mem_switchEdits he
      obtain ⟨-, -, hoffset, -⟩ := completionAt?_eq_some h hs hse
      obtain ⟨hmem, hkind⟩ := Outline.mem_switches_iff.mp hs
      exact .inr ⟨s.1, hmem, ⟨_, hkind⟩, hoffset⟩
  -- A function and a switch are no one region.
  have hmixed : ∀ {r q : Region}, r ∈ o.forest.toList → q ∈ o.forest.toList →
      (∃ head, r.kind = .functionBody head) → (∃ group, q.kind = .switchBody group) →
      r.opening + 1 ≠ q.closing := by
    rintro r q hr hq ⟨head, hfunction⟩ ⟨group, hswitch⟩ hadjacent
    rw [h.region_ext_of_adjacent hr hq hadjacent, hswitch] at hfunction
    cases hfunction
  rcases hcases he with ⟨r, hr, hfunction, hoffset⟩ | ⟨r, hr, hswitch, hoffset⟩ <;>
    rcases hcases hd with ⟨q, hq, hfunction', hoffset'⟩ | ⟨q, hq, hswitch', hoffset'⟩ <;>
    rw [hoffset, hoffset'] at hplace ⊢
  · rw [h.place_bodyOffset hr, h.place_bodyOffset hq] at hplace
    rw [h.region_ext hr hq (by omega)]
  · rw [h.place_bodyOffset hr, h.place_closeOffset hq] at hplace
    exact absurd hplace (hmixed hr hq hfunction hswitch')
  · rw [h.place_closeOffset hr, h.place_bodyOffset hq] at hplace
    exact absurd hplace.symm (hmixed hq hr hfunction' hswitch)
  · rw [h.place_closeOffset hr, h.place_closeOffset hq] at hplace
    rw [h.region_ext_of_closing hr hq hplace]

variable (settings) in
/-- The edit for the unused parameters of a function. -/
theorem exists_discardEdit? (h : o.Valid) {r : Region} (hr : r ∈ o.forest.toList)
    {u : UnusedParams} (hu : u.region = r.id) :
    ∃ e, discardEdit? o settings u = some e ∧ ∀ name ∈ u.names, e.Discards r name := by
  rw [discardEdit?, hu, h.get?_id hr]
  exact ⟨_, rfl, fun name hname => ⟨rfl, rfl, hname⟩⟩

end Plan

/-! ## Rows of discards -/

namespace Wedge

/-- Two stretches that say nothing make one. -/
theorem Mute.append {u v : List Token} (hu : Mute u) (hv : Mute v) : Mute (u ++ v) := by
  have hleft : ∀ {j t}, u[j]? = some t → (u ++ v)[j]? = some t := fun ht => by
    rw [List.getElem?_append_left (List.getElem?_eq_some_iff.mp ht).1, ht]
  have hright : ∀ j, (u ++ v)[u.length + j]? = v[j]? := fun j => by
    rw [List.getElem?_append_right (Nat.le_add_right _ _), Nat.add_sub_cancel_left]
  intro j t ht hname
  rcases Nat.lt_or_ge j u.length with hj | hj
  · rw [List.getElem?_append_left hj] at ht
    obtain ⟨i, before, rfl, hbefore, hcases⟩ := hu j t ht hname
    refine ⟨i, before, rfl, hleft hbefore, hcases.imp id (.imp id ?_)⟩
    rintro ⟨hcolons, after, hafter, hmark⟩
    exact ⟨hcolons, after, hleft hafter, hmark⟩
  · obtain ⟨j, rfl⟩ : ∃ k, j = u.length + k := ⟨j - u.length, by omega⟩
    rw [hright] at ht
    obtain ⟨i, before, rfl, hbefore, hcases⟩ := hv j t ht hname
    refine ⟨u.length + i, before, rfl, by rw [hright, hbefore], hcases.imp id (.imp id ?_)⟩
    rintro ⟨hcolons, after, hafter, hmark⟩
    exact ⟨hcolons, after, by rw [Nat.add_assoc, hright, hafter], hmark⟩

/-- A discard declares nothing, mentions no `operator` and ends a statement. -/
theorem mute_shapes (style : DiscardStyle) {word : Bytes} (hword : Kind.ofWord word = .identifier) :
    Mute (plant (style.shapes word)) ∧
      (∀ t ∈ plant (style.shapes word), t.isKeyword "operator" = false) ∧
      ∃ t, (plant (style.shapes word)).getLast? = some t ∧ t.isMark ";" = true := by
  refine ⟨?_, ?_, ?_⟩
  · intro j t ht hname
    rcases style with _ | _
    · rcases j with _ | _ | _ | _ | _ | j <;> cases ht <;> try cases hname
      exact ⟨2, _, rfl, rfl, .inl rfl⟩
    · rcases j with _ | _ | _ | _ | _ | _ | _ | _ | j <;> cases ht <;> try cases hname
      exact ⟨4, _, rfl, rfl, .inl rfl⟩
  · rcases style with _ | _ <;>
      simp only [plant, DiscardStyle.shapes, hword, List.map_cons, List.map_nil,
        List.forall_mem_cons]
    · exact ⟨rfl, rfl, rfl, rfl, rfl, List.forall_mem_nil _⟩
    · exact ⟨rfl, rfl, rfl, rfl, rfl, rfl, rfl, rfl, List.forall_mem_nil _⟩
  · rcases style with _ | _ <;> exact ⟨_, rfl, rfl⟩

/-- The discards of names say nothing. -/
theorem mute_flatMap_shapes (style : DiscardStyle) {words : List Bytes}
    (hwords : ∀ word ∈ words, Kind.ofWord word = .identifier) :
    Mute (plant (words.flatMap style.shapes)) ∧
      (∀ t ∈ plant (words.flatMap style.shapes), t.isKeyword "operator" = false) := by
  induction words with
  | nil => exact ⟨fun _ _ ht => (by cases ht), List.forall_mem_nil _⟩
  | cons word words ih =>
    obtain ⟨hmute, hplain, -⟩ := mute_shapes style (hwords word (.head _))
    obtain ⟨hmute', hplain'⟩ := ih fun v hv => hwords v (.tail word hv)
    rw [List.flatMap_cons, plant_append]
    exact ⟨hmute.append hmute', List.forall_mem_append.mpr ⟨hplain, hplain'⟩⟩

theorem last_flatMap_shapes (style : DiscardStyle) {words : List Bytes}
    (hwords : ∀ word ∈ words, Kind.ofWord word = .identifier) (hne : words ≠ []) :
    ∃ t, (plant (words.flatMap style.shapes)).getLast? = some t ∧ t.isMark ";" = true := by
  obtain ⟨front, word, rfl⟩ : ∃ front word, words = front ++ [word] :=
    ⟨_, _, (List.dropLast_append_getLast hne).symm⟩
  obtain ⟨-, -, t, ht, hmark⟩ := mute_shapes style (hwords word (by simp))
  refine ⟨t, ?_, hmark⟩
  rw [List.flatMap_append, plant_append, List.getLast?_append, List.flatMap_singleton, ht]
  rfl

end Wedge

namespace Plan

variable {settings : Settings} {o : Outline} {e : Edit}

/-- **A discard that goes to a sheltered place makes a wedge that fits.** -/
theorem fits_discard (h : o.Valid) (he : e ∈ discardEdits o settings)
    (hshelters : o.Shelters (o.place e.offset)) : (e.wedge o).Fits o.stripped := by
  obtain ⟨f, hf, hfe⟩ := mem_discardEdits he
  obtain ⟨u, hu, hoffset, htext, -⟩ := discardAt?_eq_some h hf hfe
  have hr := (Outline.mem_functions_iff.mp hf).1
  have hplace : o.place e.offset = f.1.opening + 1 := by rw [hoffset, h.place_bodyOffset hr]
  have hlt := (h.matched hr).1
  have hsize : f.1.closing < o.code.size := by
    obtain ⟨t, ht, -⟩ := (Option.any_eq_true _ _).mp (h.mark_closing hr)
    exact (Array.getElem?_eq_some_iff.mp ht).1
  have hwords : ∀ v ∈ u.params.map (word o), Kind.ofWord v = .identifier := by
    intro v hv
    obtain ⟨p, hp, rfl⟩ := List.mem_map.mp hv
    exact (word_spec h hu hp).2.1
  have hchunk : (e.wedge o).chunk =
      plant ((u.params.map (word o)).flatMap settings.params.style.shapes) := by
    rw [Edit.wedge, htext, codeOf_chunk (chunk_discard h hu _)]
  obtain ⟨hbalanced, hbraces⟩ :=
    balanced_flatMap_shapes settings.params.style (u.params.map (word o))
  obtain ⟨hmute, hplain⟩ := mute_flatMap_shapes settings.params.style hwords
  constructor
  · rw [← Outline.shelters_bare, h.ofCode.bare_stripped, Outline.shelters_bare]
    exact hshelters
  · show o.place e.offset < o.code.bare.size
    rw [Code.size_bare, hplace]
    omega
  · rwa [hchunk]
  · rwa [hchunk]
  · rw [hchunk]
    exact last_flatMap_shapes settings.params.style hwords (by simpa using params_ne_nil hu)
  · rwa [hchunk]
  · rwa [hchunk]
  · refine .inl ⟨?_, settings.params.style, _, hwords, ?_⟩
    · show o.code.bare.markBefore (o.place e.offset) "\x7b" = true
      rw [Code.markBefore_bare, hplace]
      exact h.mark_opening hr
    · rw [hchunk, plant, List.map_map]
      exact List.map_id _

end Plan

/-! ## The result of a run -/

namespace Woven

variable {settings : Settings} {t : Transformed} {o o' : Outline}

/-- **The code of the result is that of the buffer with the wedges of all edits laced in.** -/
theorem toList_eq_lace (h : Woven settings t o o') :
    o'.code.bare.toList = lace (t.edits.map (Edit.wedge o)) o.code.bare.toList := by
  have hsorted : o.tokens.Pairwise fun t u => t.start ≤ u.start :=
    (List.Pairwise.and_mem.mp h.before.pairwise).imp fun ⟨ht, _, hle⟩ =>
      Nat.le_trans (Nat.le_of_lt (h.before.bounds ht).1) hle
  have hbare : ∀ tokens : List Token, (Code.ofTokens tokens).bare.toList = plant (reads tokens) :=
    fun tokens => by rw [Code.bare_ofTokens]; rfl
  rw [h.after.code_eq, hbare, h.reads_eq, ← List.nil_append (weave _ _),
    plant_weave hsorted h.ordered, h.before.code_eq, hbare, List.nil_append]
  congr 1
  refine List.map_congr_left fun e _ => ?_
  rw [Edit.wedge, Outline.place, h.before.code_eq, List.length_nil, Nat.zero_add]
  rfl

/-- The wedges go to later and later tokens. -/
theorem pairwise_wedges (h : Woven settings t o o') :
    (t.edits.map (Edit.wedge o)).Pairwise (·.place < ·.place) := by
  refine List.pairwise_map.mpr ((List.Pairwise.and_mem.mp h.ordered).imp ?_)
  rintro d e ⟨hd, he, hlt⟩
  have hle : o.place d.offset ≤ o.place e.offset :=
    List.countP_mono_left fun t _ ht => by simp only [decide_eq_true_eq] at ht ⊢; omega
  refine Nat.lt_of_le_of_ne hle fun hplace => ?_
  exact Nat.ne_of_lt hlt
    (Plan.offset_eq_of_place_eq h.before ((h.planned d).mp hd) ((h.planned e).mp he) hplace)

/-- **What is unused in the result was unused before**, if the wedge of every edit fits. -/
theorem neglects (h : Woven settings t o o')
    (hfits : ∀ e ∈ t.edits, (e.wedge o).Fits o.stripped) {id : Nat} {name : String}
    (hneglects : o'.Neglects id name) : o.Neglects id name := by
  have hstripped := h.before.ofCode.stripped
  obtain ⟨m, hm, hcode, -, hback⟩ := exists_laced hstripped h.pairwise_wedges
    (List.forall_mem_map.mpr hfits)
  have hbare : m.bare = o'.bare := by
    refine hm.bare_eq h.after.ofCode ?_
    have hsame : m.code = o'.code.bare := Array.toList_inj.mp (hcode.trans h.toList_eq_lace.symm)
    rw [hsame, Outline.bare_bare]
  have hfirst : o.stripped.Neglects id name := by
    refine hback id name ?_
    rw [← Outline.neglects_bare, hbare, Outline.neglects_bare]
    exact hneglects
  rwa [← Outline.neglects_bare, h.before.ofCode.bare_stripped, Outline.neglects_bare] at hfirst

/-- **Nothing is left to discard.** -/
theorem discardEdits_eq_nil (h : Woven settings t o o') (henabled : settings.params.enabled = true)
    (hfits : ∀ e ∈ t.edits, (e.wedge o).Fits o.stripped) : Plan.discardEdits o' settings = [] := by
  refine List.eq_nil_iff_forall_not_mem.mpr fun e' he' => ?_
  obtain ⟨u', hu', hedit'⟩ := List.mem_filterMap.mp he'
  obtain ⟨f', hf', hfunction'⟩ := List.mem_filterMap.mp hu'
  obtain ⟨p, hp⟩ := List.exists_mem_of_ne_nil _ (Plan.params_ne_nil hfunction')
  have hname : p.1 ∈ u'.names := List.mem_map_of_mem hp
  have hregion' := Plan.region_eq hfunction'
  obtain ⟨u, hu, hregion, hlisted⟩ := h.neglects hfits ⟨u', hu', hregion', hname⟩
  obtain ⟨f, hf, hfunction⟩ := List.mem_filterMap.mp hu
  have hr := (Outline.mem_functions_iff.mp hf).1
  have hr' := (Outline.mem_functions_iff.mp hf').1
  have hid := Plan.region_eq hfunction
  obtain ⟨e, hedit, hdiscards⟩ := Plan.exists_discardEdit? settings h.before hr hid
  obtain ⟨_, hedit'', hdiscards'⟩ :=
    Plan.exists_discardEdit? settings h.after hr' hregion'
  cases hedit'.symm.trans hedit''
  have he : e ∈ t.edits :=
    (h.planned e).mpr (.inl ⟨henabled, List.mem_filterMap.mpr ⟨u, hu, hedit⟩⟩)
  exact h.not_discards he (.inl ⟨henabled, he'⟩) hr hr' (hregion.symm.trans hid)
    (hdiscards p.1 hlisted) (hdiscards' p.1 hname)

end Woven

end Quell
