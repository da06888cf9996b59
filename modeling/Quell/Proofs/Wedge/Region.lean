import Quell.Proofs.Wedge.Head

/-!
# Proofs/Wedge/Region — the regions around a wedge

Enums, switches, functions and handlers are recognized by unbroken runs and groups before their
brace.  Only the statement that heads a class or a namespace may reach over the stretch, and there
it must be settled before that the brace opens a plain block (`Wedge.Spares`).  Then the regions are
the same, each where its braces went.
-/

namespace Quell

open Declaration Region

namespace Wedge

variable {w : Wedge}

/-- **The stretch does not decide what a block is**: it does not go into the statement that heads a
block unless what stands before it makes that a plain one. -/
def Spares (w : Wedge) (code : Code) (pairing : Pairing) : Prop :=
  ∀ brace, code.mark brace "\x7b" = true →
    w.Clear (statementStart code pairing brace brace) brace ∨
      ∀ tokens, blockKind
        (code.slice ⟨statementStart code pairing brace brace, w.place⟩ ++ tokens) = .plain

@[simp] theorem admitsDefinitions_moveKind (w : Wedge) (kind : RegionKind) :
    (w.moveKind kind).admitsDefinitions = kind.admitsDefinitions := by
  cases kind <;> rfl

/-- A block has no groups. -/
theorem moveKind_blockKind (w : Wedge) (statement : List Token) :
    w.moveKind (blockKind statement) = blockKind statement := by
  rcases blockKind_plain_or_admits statement with hplain | hadmits
  · rw [hplain]
    rfl
  · generalize blockKind statement = kind at hadmits
    cases kind <;> first | rfl | cases hadmits

namespace Cleaves

variable {code code' : Code} {pairing pairing' : Pairing}
  (h : w.Cleaves code code' pairing pairing') {i k brace : Nat}

include h

/-! ## Enums -/

omit h in
theorem inner_isEnumWord : Inner isEnumWord := .of (fun _ => rfl) (fun _ => rfl) fun _ => rfl

omit h in
/-- The search for `enum` gives up where a statement ends. -/
theorem enumFrom?_eq_none {limit : Nat} (hends : code.hasBefore k endsStatement = true) :
    enumFrom? code limit k = none := by
  obtain ⟨hpos, hends⟩ := Code.hasBefore_iff.mp hends
  obtain ⟨k, rfl⟩ : ∃ m, k = m + 1 := ⟨k - 1, by omega⟩
  have hfail : ∀ {test : Token → Bool}, Inner test → code.has k test = false := fun htest =>
    Bool.not_eq_true _ ▸ fun hpasses =>
      Bool.false_ne_true ((Code.not_endsStatement_of_has htest hpasses).symm.trans hends)
  rw [enumFrom?, hfail (inner_isKeyword "enum"), hfail inner_isEnumWord,
    if_neg Bool.false_ne_true, if_neg Bool.false_ne_true, ite_self]

theorem enumFrom?_move {limit limit' : Nat} (hk : code.mark k "\x7d" = false)
    (hbounds : Bounds w k limit limit') :
    enumFrom? code' limit' (w.move k) = (enumFrom? code limit k).map w.move := by
  induction k with
  | zero => rw [h.move_zero]; rfl
  | succ k ih =>
    by_cases hplace : k + 1 = w.place
    · rw [hplace] at hk ⊢
      obtain ⟨hbefore, hbefore'⟩ := h.hasBefore_place hk
      rw [enumFrom?_eq_none hbefore, enumFrom?_eq_none hbefore']
      rfl
    · rw [move_succ hplace, enumFrom?, enumFrom?, h.has_move, h.has_move]
      simp only [hbounds.iff hplace]
      split_ifs with hlimit henum hword
      · rfl
      · rfl
      · exact ih (Code.not_closer_of_has inner_isEnumWord hword) (hbounds.pred hplace)
      · rfl

omit h in
theorem unbroken_of_enumFrom? {limit keyword : Nat}
    (hfound : enumFrom? code limit k = some keyword) : code.Unbroken keyword k := by
  induction k with
  | zero => cases hfound
  | succ k ih =>
    rw [enumFrom?] at hfound
    split_ifs at hfound with hlimit henum hword
    · cases hfound
      exact (Code.Unbroken.refl _).snoc (Code.not_endsStatement_of_isKeyword henum)
    · exact (ih hfound).snoc (Code.not_endsStatement_of_has inner_isEnumWord hword)

/-- The name after the closing brace of an enum. -/
theorem typedefName?_move {keyword closing : Nat} (hkeyword : code.mark keyword "\x7d" = false)
    (hclosing : code.mark closing "\x7b" = false) :
    typedefName? code' (w.move keyword) (w.move closing) = typedefName? code keyword closing := by
  have hname : code'.nameAt (w.move closing + 1) = code.nameAt (closing + 1) :=
    h.has_succ_move (fun t ht => by rw [Token.isName, (Token.isMark_iff.mp ht).1]; rfl)
      (fun t ht => by rw [Token.isName, ht]; rfl) hclosing
  rw [typedefName?, typedefName?, h.keywordBefore_move "typedef" hkeyword, hname]
  cases hfound : code.nameAt (closing + 1) with
  | false =>
    simp only [Bool.and_false, Bool.false_and]
    rfl
  | true =>
    have hplace : closing + 1 ≠ w.place := by
      intro hplace
      rcases h.spot with hhead | ⟨hfoot, -⟩
      · rw [← hplace] at hhead
        exact Bool.false_ne_true (hclosing.symm.trans hhead)
      · rw [← hplace, Code.mark_of_nameAt hfound] at hfoot
        exact Bool.false_ne_true hfoot
    have hstop : code'.has (w.move (closing + 1) + 1) (fun t => t.isMark ";" || t.isMark ",") =
        code.has (closing + 1 + 1) fun t => t.isMark ";" || t.isMark "," := by
      refine h.has_succ_move (fun t ht => ?_) (fun t ht => ?_) (Code.mark_of_nameAt hfound _)
      · rw [Token.isMark_eq_false ht (by decide), Token.isMark_eq_false ht (by decide)]
        rfl
      · rw [Token.isMark, Token.isMark, ht]
        rfl
    rw [move_succ hplace] at hstop
    rw [show w.move closing + 2 = w.move closing + 1 + 1 from rfl, hstop, ← move_succ hplace,
      h.name_move]

/-- The head of an enum is the same. -/
theorem enumHead?_move (hbrace : code.mark brace "\x7b" = true) :
    enumHead? code' pairing' (w.move brace) = enumHead? code pairing brace := by
  have hopener : code.mark brace "\x7d" = false := Code.mark_eq_false hbrace (by decide)
  obtain ⟨closing, hpartner, -, hclosing⟩ := Pairing.exists_closing h.paired .curly hbrace
  have hpartner' : pairing'.partner (w.move brace) = some (w.move closing) := by
    rw [h.partner_move, hpartner]
    rfl
  have hkeyword : enumKeyword? code' (w.move brace) = (enumKeyword? code brace).map w.move :=
    h.enumFrom?_move hopener (bounds_sub w brace 16)
  rw [enumHead?, enumHead?, hkeyword, Option.bind_map]
  refine Option.bind_congr fun keyword hfound => ?_
  obtain ⟨hlt, henum⟩ := enumFrom?_eq_some hfound
  have hclear := h.clear_of_unbroken (unbroken_of_enumFrom? hfound) hopener
  have hnext := hclear.move_succ (Nat.le_refl keyword) hlt
  have hkeyword' : code.mark keyword "\x7d" = false :=
    Code.mark_of_not_endsStatement (Code.not_endsStatement_of_isKeyword henum) (by decide)
  -- The words of the head start after the keyword, or after the class key that follows it.
  obtain ⟨first, hfirst, hfirst', hle, hge⟩ : ∃ first,
      (if code.has (keyword + 1) (fun t => t.isKeyword "class" || t.isKeyword "struct") then
        keyword + 2 else keyword + 1) = first ∧
      (if code.has (keyword + 1) (fun t => t.isKeyword "class" || t.isKeyword "struct") then
        w.move keyword + 2 else w.move keyword + 1) = w.move first ∧
      keyword ≤ first ∧ first ≤ brace := by
    split_ifs with hclass
    · have hne : keyword + 1 ≠ brace := by
        rintro rfl
        obtain ⟨t, ht, hmark⟩ := (Option.any_eq_true _ _).mp hbrace
        rw [Code.has, ht, Option.any_some, Token.isKeyword, Token.isKeyword,
          (Token.isMark_iff.mp hmark).1] at hclass
        exact Bool.false_ne_true hclass
      have hnext' := hclear.move_succ (Nat.le_succ keyword) (by omega)
      exact ⟨_, rfl, by rw [hnext', hnext], by omega, by omega⟩
    · exact ⟨_, rfl, hnext.symm, by omega, by omega⟩
  rw [Function.comp_apply, ← hnext, h.has_move]
  dsimp only
  rw [hnext, hfirst, hfirst', h.slice_move (hclear.mono hle (Nat.le_refl brace)), hpartner,
    hpartner', Option.bind_some, Option.bind_some,
    h.typedefName?_move hkeyword' (Code.mark_eq_false hclosing (by decide))]

/-! ## Groups before a brace -/

/-- The group before a token is the same. -/
theorem groupBefore?_move (hk : code.mark k "\x7d" = false) :
    groupBefore? code' pairing' (w.move k) = (groupBefore? code pairing k).map w.move ∧
      ∀ opening ∈ groupBefore? code pairing k, code.mark opening "\x7d" = false ∧
        w.move (k - 1) = w.move k - 1 := by
  rw [groupBefore?, groupBefore?, h.markBefore_move ")" (by decide) hk]
  split_ifs with hclose
  · obtain ⟨opening, hpartner, hpartner', -, -, hopening⟩ := h.partner_pred_move .round hk hclose
    rw [hpartner, hpartner']
    refine ⟨rfl, fun other hother => ?_⟩
    cases hother
    exact ⟨hopening, (h.back (inner_isMark (by decide)) hk hclose).1⟩
  · exact ⟨rfl, fun _ hmem => by cases hmem⟩

/-- The condition of a switch is the same, moved. -/
theorem switchGroup?_move (hk : code.mark k "\x7d" = false) :
    switchGroup? code' pairing' (w.move k) = (switchGroup? code pairing k).map w.move ∧
      ∀ opening ∈ switchGroup? code pairing k, w.move (k - 1) = w.move k - 1 := by
  obtain ⟨hgroup, hbefore⟩ := h.groupBefore?_move hk
  rw [switchGroup?, switchGroup?, hgroup]
  cases hopening : groupBefore? code pairing k with
  | none => exact ⟨rfl, fun _ hmem => by cases hmem⟩
  | some opening =>
    obtain ⟨hclear, hback⟩ := hbefore opening hopening
    rw [Option.map_some, Option.filter_some, Option.filter_some,
      h.keywordBefore_move "switch" hclear]
    split_ifs
    · exact ⟨rfl, fun _ _ => hback⟩
    · exact ⟨rfl, fun _ hmem => by cases hmem⟩

theorem tryOwner?_move (regions : Array Region) (closing : Nat) :
    tryOwner? pairing' (regions.map w.moveRegion) (w.move closing) =
      tryOwner? pairing regions closing := by
  rw [tryOwner?, tryOwner?, h.partner_move, Option.bind_map]
  refine Option.bind_congr fun opening _ => ?_
  have htest : ((·.opening == w.move opening) ∘ w.moveRegion) =
      fun r : Region => r.opening == opening := by
    funext r
    rw [Function.comp_apply, moveRegion, Bool.eq_iff_iff, beq_iff_eq, beq_iff_eq, move_inj]
  rw [Function.comp_apply, Array.find?_map, htest, Option.bind_map]
  refine Option.bind_congr fun r _ => ?_
  rw [Function.comp_apply, moveRegion]
  cases r.kind <;> rfl

/-- A handler is told as before. -/
theorem handlerKind?_move (regions : Array Region) {opening : Nat}
    (hopening : code.mark opening "\x7d" = false) :
    handlerKind? code' pairing' (regions.map w.moveRegion) (w.move opening) =
      handlerKind? code pairing regions opening := by
  rw [handlerKind?, handlerKind?, h.keywordBefore_move "catch" hopening]
  cases hcatch : code.keywordBefore opening "catch" with
  | false => rfl
  | true =>
    obtain ⟨hback, hk⟩ := h.back (inner_isKeyword "catch") hopening hcatch
    have hclose : code'.markBefore (w.move opening - 1) "\x7d" =
        code.markBefore (opening - 1) "\x7d" := by
      rw [← hback]
      refine h.hasBefore_move_of (fun t ht => ?_) hk
      obtain ⟨word, hword, hmark⟩ := Token.isMarkIn_iff.mp ht
      have hne : ∀ word ∈ [";", "\x7b"], utf8 word ≠ utf8 "\x7d" := by decide
      exact Token.isMark_eq_false hmark (hne word hword)
    rw [hclose]
    refine ite_congr rfl (fun hbrace => ?_) fun _ => rfl
    rw [Bool.true_and] at hbrace
    have hback' := h.move_pred_of_hasBefore (fun t ht => Token.isMark_eq_false ht (by decide)) hk
      hbrace
    rw [show w.move opening - 2 = w.move opening - 1 - 1 by omega, ← hback, ← hback',
      h.tryOwner?_move]
    rfl

theorem functionKind?_move (hbrace : code.mark brace "\x7d" = false) (hsize : brace ≤ code.size)
    (parent : Option RegionKind) :
    functionKind? code' pairing' (parent.map w.moveKind) (w.move brace) =
      (functionKind? code pairing parent brace).map w.moveKind := by
  have hhead : ∀ inClass,
      (functionHead? code' pairing' (w.move brace) inClass).map RegionKind.functionBody =
        ((functionHead? code pairing brace inClass).map RegionKind.functionBody).map
          w.moveKind := by
    intro inClass
    rw [h.functionHead?_move hbrace hsize, Option.map_map, Option.map_map]
    rfl
  rcases parent with _ | kind
  · exact hhead false
  · cases kind
    case classBody name => exact hhead true
    case namespaceBody name => exact hhead false
    case linkage => exact hhead false
    all_goals rfl

/-! ## The statement before a brace -/

omit h in
/-- What ends a group is a closing bracket. -/
theorem mem_opener_of_groupEnd (hgroup : code.hasBefore k fun t => t.isMark ")" || t.isMark "]") :
    ∃ shape : Bracket, code.markBefore k shape.closer = true := by
  rcases Code.hasBefore_or_iff.mp hgroup with hround | hsquare
  · exact ⟨.round, hround⟩
  · exact ⟨.square, hsquare⟩

/-- The start of the statement, whatever the fuel. -/
theorem statementStart_move {fuel fuel' : Nat} (hk : code.mark k "\x7d" = false)
    (hfuel : k ≤ fuel) (hfuel' : w.move k ≤ fuel') :
    statementStart code' pairing' fuel' (w.move k) =
      w.move (statementStart code pairing fuel k) := by
  have hzero : ∀ {code : Code} {pairing : Pairing} {fuel : Nat},
      statementStart code pairing fuel 0 = 0 := by
    intro code pairing fuel
    cases fuel with
    | zero => rfl
    | succ fuel => rw [statementStart, decide_eq_true rfl, Bool.true_or, if_pos rfl]
  induction fuel generalizing k fuel' with
  | zero => rw [Nat.le_zero.mp hfuel, h.move_zero, hzero, hzero, h.move_zero]
  | succ fuel ih =>
    rcases Nat.eq_zero_or_pos k with rfl | hpos
    · rw [h.move_zero, hzero, hzero, h.move_zero]
    have hpos' := h.move_pos_iff.mpr hpos
    obtain ⟨fuel', rfl⟩ : ∃ m, fuel' = m + 1 := ⟨fuel' - 1, by omega⟩
    rw [statementStart, statementStart, decide_eq_false (by omega), decide_eq_false (by omega),
      Bool.false_or, Bool.false_or, h.hasBefore_endsStatement_move hk,
      h.hasBefore_move (inner_isMark (by decide) |>.or (inner_isMark (by decide))) hk]
    split_ifs with hends hgroup
    · rfl
    · obtain ⟨shape, hclose⟩ := mem_opener_of_groupEnd hgroup
      obtain ⟨opening, hpartner, hpartner', hlt, -, hopening⟩ := h.partner_pred_move shape hk hclose
      rw [hpartner, hpartner']
      have hlt' := (move_lt_iff (w := w)).mpr (show opening < k by omega)
      exact ih hopening (by omega) (by omega)
    · -- The token passed ends no statement, so the stretch does not go after it.
      have hpass : code.has (k - 1) endsStatement = false :=
        Bool.not_eq_true _ ▸ fun hend => hends (Code.hasBefore_iff.mpr ⟨hpos, hend⟩)
      have hplace : k ≠ w.place := by
        rintro rfl
        exact hends (h.hasBefore_place hk).1
      have hback := move_pred hpos hplace
      rw [← hback]
      exact ih (Code.mark_of_not_endsStatement hpass (by decide)) (by omega) (by omega)

/-- What a block is that no function and no handler opens. -/
theorem blockKind_move (hspares : w.Spares code pairing) (hbrace : code.mark brace "\x7b" = true) :
    blockKind (code'.slice ⟨statementStart code' pairing' (w.move brace) (w.move brace),
        w.move brace⟩) =
      blockKind (code.slice ⟨statementStart code pairing brace brace, brace⟩) := by
  rw [h.statementStart_move (Code.mark_eq_false hbrace (by decide)) (Nat.le_refl brace)
    (Nat.le_refl _)]
  by_cases hclear : w.Clear (statementStart code pairing brace brace) brace
  · rw [h.slice_move hclear]
  · have hplain := (hspares brace hbrace).resolve_left hclear
    rw [Clear, not_or, Nat.not_le, Nat.not_lt] at hclear
    generalize statementStart code pairing brace brace = start at hplain hclear
    have hmove := w.le_move brace
    have hle := Nat.le_of_lt hclear.1
    rw [move_of_lt hclear.1, ← Code.slice_append hle (Nat.le_trans hclear.2 hmove),
      ← Code.slice_append hle hclear.2, ← h.agree.slice_eq (Nat.le_refl w.place), hplain, hplain]

/-- **A region that the stretch spares is of the kind that it was.** -/
theorem classify_move (hspares : w.Spares code pairing) (hbrace : code.mark brace "\x7b" = true)
    (hsize : brace ≤ code.size) (regions : Array Region) (parent : Option RegionKind) :
    classify code' pairing' (regions.map w.moveRegion) (parent.map w.moveKind) (w.move brace) =
      w.moveKind (classify code pairing regions parent brace) := by
  have hk : code.mark brace "\x7d" = false := Code.mark_eq_false hbrace (by decide)
  obtain ⟨hswitch, hback⟩ := h.switchGroup?_move hk
  obtain ⟨hgroup, hopening⟩ := h.groupBefore?_move hk
  have hhandler : (groupBefore? code' pairing' (w.move brace)).bind
        (handlerKind? code' pairing' (regions.map w.moveRegion)) =
      (groupBefore? code pairing brace).bind (handlerKind? code pairing regions) := by
    rw [hgroup, Option.bind_map]
    refine Option.bind_congr fun opening hmem => ?_
    exact h.handlerKind?_move regions (hopening opening hmem).1
  rw [classify_eq_match, classify_eq_match, hswitch, h.enumHead?_move hbrace, otherKind, otherKind,
    h.functionKind?_move hk hsize, hhandler, h.blockKind_move hspares hbrace]
  cases hcondition : switchGroup? code pairing brace with
  | some opening =>
    rw [Option.map_some]
    dsimp only
    rw [moveKind, moveGroup, hback opening hcondition]
  | none =>
    cases enumHead? code pairing brace with
    | some head => rfl
    | none =>
      cases functionKind? code pairing parent brace with
      | some kind => rfl
      | none =>
        cases hfound :
          (groupBefore? code pairing brace).bind (handlerKind? code pairing regions) with
        | some kind =>
          obtain ⟨opening, -, hkind⟩ := Option.bind_eq_some_iff.mp hfound
          obtain ⟨-, -, owner, -, rfl⟩ := handlerKind?_eq_some hkind
          rfl
        | none => exact (moveKind_blockKind w _).symm

/-! ## The forest -/

/-- A forest under construction, by where its braces go. -/
def moveGrowth (w : Wedge) (g : Forest.Growth) : Forest.Growth :=
  ⟨g.regions.map w.moveRegion, g.pending⟩

/-- One token adds the same. -/
theorem step_move (hspares : w.Spares code pairing) {t : Token} (ht : code[i]? = some t)
    (g : Forest.Growth) :
    (moveGrowth w g).step code' pairing' (w.move i) t =
      moveGrowth w (g.step code pairing i t) := by
  rw [Forest.Growth.step, Forest.Growth.step]
  split_ifs with hopen hclose
  · have hbrace : code.mark i "\x7b" = true := by
      rw [Code.mark, Code.has, ht, Option.any_some]
      exact Token.opening?_eq_some_iff.mp (beq_iff_eq.mp hopen)
    obtain ⟨closing, hpartner, -, -⟩ := Pairing.exists_closing h.paired .curly hbrace
    have hpartner' : pairing'.partner (w.move i) = some (w.move closing) := by
      rw [h.partner_move, hpartner]
      rfl
    have hsize := (Array.getElem?_eq_some_iff.mp ht).1
    have hparent : (g.pending.head?.bind fun p => (moveGrowth w g).regions[p]?.map (·.kind)) =
        (g.pending.head?.bind fun p => g.regions[p]?.map (·.kind)).map w.moveKind := by
      rw [Option.map_bind]
      refine Option.bind_congr fun p _ => ?_
      rw [Function.comp_apply, moveGrowth, Array.getElem?_map, Option.map_map, Option.map_map]
      rfl
    have hkind := h.classify_move hspares hbrace (Nat.le_of_lt hsize) g.regions
      (g.pending.head?.bind fun p => g.regions[p]?.map (·.kind))
    rw [← hparent] at hkind
    simp only [moveGrowth, Array.map_push, Array.size_map, hpartner, hpartner', Option.getD_some,
      h.getElem?_move, moveRegion]
    rw [← hkind]
    rfl
  · rfl
  · rfl

omit h in
/-- Tokens without braces add nothing. -/
theorem growFrom_of_braces {tokens : List Token} (hnone : Forest.braces tokens = [])
    (i : Nat) (g : Forest.Growth) : Forest.growFrom code pairing i g tokens = g := by
  induction tokens generalizing i g with
  | nil => rfl
  | cons t rest ih =>
    rw [Forest.braces, List.filterMap_cons, Forest.brace?] at hnone
    split_ifs at hnone with hopen hclose
    rw [Forest.growFrom, Forest.Growth.step, if_neg hopen, if_neg hclose]
    exact ih hnone (i + 1) g

/-- **The tokens on one side of the stretch add the same.** -/
theorem growFrom_move (hspares : w.Spares code pairing) {tokens : List Token} {i' : Nat}
    (htokens : code.Holds i tokens) (hmove : ∀ k < tokens.length, w.move (i + k) = i' + k)
    (g : Forest.Growth) :
    Forest.growFrom code' pairing' i' (moveGrowth w g) tokens =
      moveGrowth w (Forest.growFrom code pairing i g tokens) := by
  induction tokens generalizing i i' g with
  | nil => rfl
  | cons t rest ih =>
    have hhere : w.move i = i' := hmove 0 (Nat.succ_pos _)
    rw [Forest.growFrom, Forest.growFrom, ← hhere, h.step_move hspares htokens.head, hhere]
    refine ih htokens.tail (fun k hk => ?_) _
    have := hmove (k + 1) (by rw [List.length_cons]; omega)
    rw [show i + 1 + k = i + (k + 1) by omega, this]
    omega

/-- **The regions are the same**, each where its braces went. -/
theorem regions_move (hspares : w.Spares code pairing) :
    (Forest.ofCode code' pairing').regions =
      (Forest.ofCode code pairing).regions.map w.moveRegion := by
  have hlength := h.length_take
  have hback : code.Holds w.place (code.toList.drop w.place) := by
    intro k t hk
    rwa [List.getElem?_drop, Array.getElem?_toList] at hk
  have hgrow := Forest.growFrom_append code pairing 0 {} (code.toList.take w.place)
    (code.toList.drop w.place)
  rw [List.take_append_drop, hlength, Nat.zero_add] at hgrow
  rw [Forest.ofCode, Forest.ofCode, h.toList_eq, List.append_assoc, Forest.growFrom_append,
    Forest.growFrom_append, growFrom_of_braces h.braces_eq, hlength, hgrow, Nat.zero_add]
  have hleft : ∀ k < (code.toList.take w.place).length, w.move (0 + k) = 0 + k := by
    intro k hk
    rw [Nat.zero_add, move_of_lt (hlength ▸ hk)]
  have hright : ∀ k < (code.toList.drop w.place).length,
      w.move (w.place + k) = w.place + w.chunk.length + k := by
    intro k _
    rw [move_of_le (Nat.le_add_right _ _)]
    omega
  have hinit : moveGrowth w {} = {} := congrArg (Forest.Growth.mk · []) Array.map_empty
  have hfront := h.growFrom_move hspares (.take code w.place) hleft {}
  rw [hinit] at hfront
  rw [hfront, h.growFrom_move hspares hback hright]
  rfl

end Cleaves

end Wedge

end Quell
