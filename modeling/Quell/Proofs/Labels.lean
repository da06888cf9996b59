import Mathlib.Tactic.Common
import Quell.Proofs.Nesting
import Quell.Proofs.Planning

/-!
# Proofs/Labels — which switch a label belongs to

The labels of a switch are collected with two cursors, one over the tokens of a region and one over
the regions directly in it.  As long as no label's expression holds a brace the two stay together:
what is ahead is what opens from the token on (`Region.ahead`).  So up to the first such label every
label belongs to its switch and to no other (`labels_belong`).  An expression with braces moves the
token cursor alone, and from there on the labels of inner switches are taken along
(`labels_shared`).
-/

namespace Quell

/-! ## The regions ahead -/

/-- The regions directly inside that open at token `i` or later. -/
def Region.ahead (o : Outline) (r : Region) (i : Nat) : List Region :=
  (o.forest.childrenOf (some r.id)).filter (i ≤ ·.opening)

namespace Outline.Valid

variable {o : Outline} (h : o.Valid) {r q : Region} {i j : Nat}

include h

theorem ahead_opening (hr : r ∈ o.forest.toList) :
    r.ahead o (r.opening + 1) = o.forest.childrenOf (some r.id) := by
  refine List.filter_eq_self.mpr fun q hq => ?_
  obtain ⟨hq, hparent⟩ := Forest.mem_childrenOf_iff.mp hq
  exact decide_eq_true (h.encloses_of_parent hr hq hparent).1.1

/-- Tokens that open no region keep level, and leave what is ahead. -/
theorem level_of_unbraced (hlevel : r.Level o.forest i) (hij : i ≤ j)
    (hbrace : ∀ k, i ≤ k → k < j → o.code.mark k "\x7b" = false) :
    r.Level o.forest j ∧ r.ahead o j = r.ahead o i := by
  obtain ⟨n, rfl⟩ := Nat.exists_eq_add_of_le hij
  induction n with
  | zero => exact ⟨hlevel, rfl⟩
  | succ n ih =>
    obtain ⟨hlevel', hahead⟩ := ih (by omega) fun k hk hkn => hbrace k hk (by omega)
    have hn := hbrace (i + n) (by omega) (by omega)
    refine ⟨h.level_succ hlevel' hn, hahead ▸ List.filter_congr fun q hq => ?_⟩
    have hne := h.opening_ne (Forest.mem_childrenOf_iff.mp hq).1 hn
    rw [decide_eq_decide]
    omega

/-- **A region that opens level with another is the first one ahead**, and the rest opens after
it. -/
theorem ahead_cons (hr : r ∈ o.forest.toList) (hq : q ∈ o.forest.toList)
    (hlevel : r.Level o.forest q.opening) (hi : q.opening < r.closing) :
    r.ahead o q.opening = q :: r.ahead o (q.closing + 1) := by
  have hparent := (h.parent_of_level hr hq hlevel hi).2
  have hsorted : (o.forest.childrenOf (some r.id)).Pairwise (·.opening < ·.opening) :=
    h.numbered.ordered.filter _
  obtain ⟨before, after, hchildren⟩ :=
    List.append_of_mem (Forest.mem_childrenOf_iff.mpr ⟨hq, hparent⟩)
  have hmem : ∀ d ∈ before ++ q :: after, d ∈ o.forest.toList ∧ d.parent = some r.id :=
    fun d hd => Forest.mem_childrenOf_iff.mp (hchildren ▸ hd)
  rw [hchildren, List.pairwise_append, List.pairwise_cons] at hsorted
  obtain ⟨-, ⟨hafter, -⟩, hbefore⟩ := hsorted
  have hqlt := (h.matched hq).1
  have hlate : ∀ d ∈ after, q.closing < d.opening := by
    intro d hd
    obtain ⟨hdmem, hdparent⟩ := hmem d (by simp [hd])
    have hlt := hafter d hd
    rcases h.laminar hq hdmem (by rintro rfl; omega) with (hapart | hapart) | hencloses | hencloses
    · exact hapart
    · have := (h.matched hdmem).1
      omega
    · -- What lies inside `q` has a parent that opens no earlier than `q`.
      have := (h.encloses_of_parent hr hdmem hdparent).2 q hq hencloses
      have := hlevel.1
      omega
    · have := hencloses.1
      omega
  have hfront : ∀ n, q.opening ≤ n → before.filter (n ≤ ·.opening) = [] := fun n hn =>
    List.filter_eq_nil_iff.mpr fun d hd => by
      have := hbefore d hd q (by simp)
      simp
      omega
  have hback : ∀ n, n ≤ q.closing + 1 → after.filter (n ≤ ·.opening) = after := fun n hn =>
    List.filter_eq_self.mpr fun d hd => by
      have := hlate d hd
      simp
      omega
  rw [Region.ahead, Region.ahead, hchildren, List.filter_append, List.filter_append,
    List.filter_cons_of_pos (by simp), List.filter_cons_of_neg (by simp; omega),
    hfront _ (Nat.le_refl _), hfront _ (by omega), hback _ (by omega), hback _ (Nat.le_refl _)]
  rfl

/-- Where no region opens, none of those ahead does. -/
theorem head?_ahead (hbrace : o.code.mark i "\x7b" = false) :
    (r.ahead o i).head?.filter (·.opening == i) = none := by
  rw [Option.filter_eq_none_iff]
  intro q hq
  have hmem := (List.mem_filter.mp (List.mem_of_head? hq)).1
  rw [beq_iff_eq]
  exact h.opening_ne (Forest.mem_childrenOf_iff.mp hmem).1 hbrace

end Outline.Valid

/-! ## Labels and their switch -/

/-- The first region around that is no plain block, from the region numbered `id` up. -/
def Outline.carrier? (o : Outline) (id : Nat) : Option Region :=
  (o.forest.ancestors id).find? (·.kind != .plain)

/-- **The region that a label at token `i` belongs to**: past the plain blocks around the token, it
is the first one. -/
def Outline.owner? (o : Outline) (i : Nat) : Option Region :=
  (o.forest.innermost? i).bind fun r => o.carrier? r.id

namespace Label

/-- The label's expression holds a brace. -/
def isBraced (code : Code) : Label → Bool
  | .case _ keyword colon => (Slice.mk keyword colon).indices.any (code.mark · "\x7b")
  | .default _ => false

/-- Every label has a property, up to and including the first one with braces. -/
def UpToBraces (code : Code) (P : Label → Prop) : List Label → Prop
  | [] => True
  | l :: rest => P l ∧ (l.isBraced code = false → UpToBraces code P rest)

/-- A property up to the first braced label holds of two rows one after the other. -/
theorem UpToBraces.append {code : Code} {P : Label → Prop} {u w : List Label}
    (hu : UpToBraces code P u) (hw : UpToBraces code P w) : UpToBraces code P (u ++ w) := by
  induction u with
  | nil => exact hw
  | cons l u ih => exact ⟨hu.1, fun hl => ih (hu.2 hl)⟩

/-- A property up to the first braced label holds of a label with no braced one before it. -/
theorem UpToBraces.of_split {code : Code} {P : Label → Prop} {before after : List Label}
    {l : Label} (h : UpToBraces code P (before ++ l :: after))
    (hbefore : ∀ b ∈ before, b.isBraced code = false) : P l := by
  induction before with
  | nil => exact h.1
  | cons b before ih => exact ih (h.2 (hbefore b (by simp))) fun b hb => hbefore b (by simp [hb])

/-- The colon of a label stands after its keyword and before the limit. -/
theorem colonFrom?_eq_some {code : Code} {pairing : Pairing} {limit fuel i ternary colon : Nat}
    (hpartner : ∀ k j, code.has k (·.opening?.isSome) = true → pairing.partner k = some j → k < j)
    (h : colonFrom? code pairing limit fuel i ternary = some colon) :
    i ≤ colon ∧ colon < limit ∧ code.mark colon ":" = true := by
  fun_induction colonFrom? code pairing limit fuel i ternary with
  | case1 => cases h
  | case2 => cases h
  | case3 fuel i ternary hlimit hopen ih =>
    obtain ⟨j, hj, hrest⟩ := Option.bind_eq_some_iff.mp h
    have := hpartner i j hopen hj
    have := ih j hrest
    exact ⟨by omega, this.2⟩
  | case4 fuel i ternary hlimit hopen hquestion ih =>
    have := ih h
    exact ⟨by omega, this.2⟩
  | case5 fuel i hlimit hopen hquestion hcolon =>
    cases h
    exact ⟨Nat.le_refl _, by omega, hcolon⟩
  | case6 fuel i ternary hlimit hopen hquestion hcolon hternary ih =>
    have := ih h
    exact ⟨by omega, this.2⟩
  | case7 => cases h
  | case8 fuel i ternary hlimit hopen hquestion hcolon hend ih =>
    have := ih h
    exact ⟨by omega, this.2⟩

end Label

namespace Outline.Valid

variable {o : Outline} (h : o.Valid) {s r : Region} {i : Nat}

include h

theorem lt_partner {k j : Nat} (hopen : o.code.has k (·.opening?.isSome) = true)
    (hpartner : o.pairing.partner k = some j) : k < j := by
  obtain ⟨t, ht, hopen⟩ := (Option.any_eq_true _ _).mp hopen
  obtain ⟨shape, hshape⟩ := Option.isSome_iff_exists.mp hopen
  have hmark : o.code.mark k shape.opener = true := by
    rw [Code.mark, Code.has, ht, Option.any_some]
    exact Token.opening?_eq_some_iff.mp hshape
  obtain ⟨closing, hclosing, hlt, -⟩ := h.exists_closing shape hmark
  rw [hpartner] at hclosing
  cases hclosing
  exact hlt

/-- A plain block is carried by the region around it, and any other region carries itself. -/
theorem carrier?_eq (hr : r ∈ o.forest.toList) :
    o.carrier? r.id = if r.kind = .plain then r.parent.bind o.carrier? else some r := by
  rw [carrier?, h.ancestors_eq hr]
  split_ifs with hplain
  · rw [List.find?_cons_of_neg (by simp [hplain])]
    cases r.parent <;> rfl
  · rw [List.find?_cons_of_pos (by simp [hplain])]

/-- **What is collected in a region belongs to the region that carries it**, up to the first label
with braces. -/
theorem upToBraces_collect (fuel : Nat) (hr : r ∈ o.forest.toList)
    (hcarrier : o.carrier? r.id = some s) (hlevel : r.Level o.forest i) :
    Label.UpToBraces o.code (o.owner? ·.keyword = some s)
      (Label.collect o fuel (r.ahead o i) r.closing i) := by
  induction fuel generalizing r i with
  | zero => trivial
  | succ fuel ih =>
    rw [Label.collect]
    by_cases hstop : r.closing ≤ i
    · rw [if_pos hstop]
      trivial
    rw [if_neg hstop]
    have hi : i < r.closing := by omega
    have howned : o.owner? i = some s := by
      rw [Outline.owner?, h.innermost?_of_level hr hlevel hi, Option.bind_some, hcarrier]
    rcases hbrace : o.code.mark i "\x7b" with _ | _
    · -- Without a brace the cursor stays level, by one token or by a whole label.
      have hstep : Label.UpToBraces o.code (o.owner? ·.keyword = some s)
          (Label.collect o fuel (r.ahead o i) r.closing (i + 1)) := by
        obtain ⟨hlevel', hahead⟩ := h.level_of_unbraced hlevel (Nat.le_succ i) fun k _ _ =>
          (show k = i by omega) ▸ hbrace
        rw [← hahead]
        exact ih hr hcarrier hlevel'
      rw [h.head?_ahead hbrace]
      dsimp only
      split_ifs with hcase hdefault
      · rcases hcolon : Label.colon? o.code o.pairing i r.closing with _ | colon
        · exact hstep
        · refine ⟨howned, fun hplain => ?_⟩
          obtain ⟨hle, -, hcolon⟩ := Label.colonFrom?_eq_some (fun k j => h.lt_partner) hcolon
          have hlabel : ∀ k, i ≤ k → k < colon + 1 → o.code.mark k "\x7b" = false := by
            intro k hik hk
            rcases Nat.lt_succ_iff_lt_or_eq.mp hk with hk | rfl
            · rw [← Bool.not_eq_true]
              exact List.any_eq_false.mp hplain k (Slice.mem_indices.mpr ⟨hik, hk⟩)
            · exact Code.mark_eq_false hcolon (by decide)
          obtain ⟨hlevel', hahead⟩ := h.level_of_unbraced hlevel (by omega) hlabel
          rw [← hahead]
          exact ih hr hcarrier hlevel'
      · exact ⟨howned, fun _ => hstep⟩
      · exact hstep
    · -- A plain block leads up to the switch as well, any other region is passed over.
      obtain ⟨q, hq, rfl⟩ := h.exists_region hbrace
      have hparent := (h.parent_of_level hr hq hlevel hi).2
      rw [h.ahead_cons hr hq hlevel hi, List.head?_cons, List.tail_cons,
        show (some q).filter (·.opening == q.opening) = some q by simp]
      dsimp only
      refine .append ?_ (ih hr hcarrier (h.level_closing hq hlevel))
      split_ifs with hplain
      · have hcarrier' : o.carrier? q.id = some s := by
          rw [← hcarrier, h.carrier?_eq hq, if_pos (beq_iff_eq.mp hplain), hparent,
            Option.bind_some]
        rw [← h.ahead_opening hq]
        exact ih hq hcarrier' (q.level_opening o.forest)
      · trivial

end Outline.Valid

/-! ## Switches -/

/-- A label of the switch, with no label before it that has braces. -/
def Switch.Reaches (code : Code) (s : Switch) (l : Label) : Prop :=
  ∃ before after, s.labels = before ++ l :: after ∧ ∀ b ∈ before, b.isBraced code = false

/-- **A label that a switch reaches is its own.** -/
theorem Outline.Valid.owner?_of_reaches {o : Outline} (h : o.Valid) {r : Region}
    {condition : Group} (hr : (r, condition) ∈ o.switches) {l : Label}
    (hl : (Switch.ofRegion o r condition).Reaches o.code l) : o.owner? l.keyword = some r := by
  obtain ⟨hmem, hkind⟩ := Outline.mem_switches_iff.mp hr
  obtain ⟨before, after, hlabels, hbefore⟩ := hl
  have hcarrier : o.carrier? r.id = some r := by rw [h.carrier?_eq hmem, hkind, if_neg (by simp)]
  have hcollect := h.upToBraces_collect (o.code.size + 1) hmem hcarrier
    (r.level_opening o.forest)
  rw [h.ahead_opening hmem] at hcollect
  rw [Switch.ofRegion] at hlabels
  dsimp only at hlabels
  rw [hlabels] at hcollect
  exact hcollect.of_split hbefore

/-- **A label belongs to its switch and to no other**, as long as no label before it has braces. -/
theorem labels_belong {source : Bytes} {o : Outline} (h : Outline.ofSource source = .ok o) :
    (∀ s ∈ o.labelledSwitches, ∀ l, s.Reaches o.code l →
      ∃ body condition, (body, condition) ∈ o.switches ∧ body.id = s.region ∧
        o.owner? l.keyword = some body) ∧
    ∀ s ∈ o.labelledSwitches, ∀ t ∈ o.labelledSwitches, ∀ l k, s.Reaches o.code l →
      t.Reaches o.code k → l.keyword = k.keyword → s = t := by
  have hvalid := (Outline.ofSource_eq_ok_iff_valid.mp h).2
  constructor
  · intro s hs l hl
    obtain ⟨⟨body, condition⟩, hbody, rfl⟩ := List.mem_map.mp hs
    exact ⟨body, condition, hbody, rfl, hvalid.owner?_of_reaches hbody hl⟩
  · intro s hs t ht l k hl hk hsame
    obtain ⟨⟨body, condition⟩, hbody, rfl⟩ := List.mem_map.mp hs
    obtain ⟨⟨body', condition'⟩, hbody', rfl⟩ := List.mem_map.mp ht
    have howner := hvalid.owner?_of_reaches hbody hl
    rw [hsame, hvalid.owner?_of_reaches hbody' hk] at howner
    cases howner
    have hkind := (Outline.mem_switches_iff.mp hbody).2
    rw [(Outline.mem_switches_iff.mp hbody').2] at hkind
    cases hkind
    rfl

/-- The last label of a switch belongs to it, past a block and a switch in the block; the label of
that switch is its own. -/
theorem labels_belong_nested :
    ∃ o, Outline.ofSource (utf8 ("void f(int a, int b) \x7bswitch (a) \x7bcase 1: \x7bcase 2: "
        ++ "switch (b) \x7bdefault: ;\x7d\x7d case int\x7b\x7d: ;\x7d\x7d")) = .ok o ∧
      o.labelledSwitches =
        [⟨1, ⟨11, 13⟩, [.case none 15 17, .case none 19 21, .case none 32 36]⟩,
          ⟨3, ⟨23, 25⟩, [.default 27]⟩] ∧
      (∃ body condition, (body, condition) ∈ o.switches ∧ body.id = 1 ∧
        o.owner? 32 = some body) ∧
      ∃ body condition, (body, condition) ∈ o.switches ∧ body.id = 3 ∧ o.owner? 27 = some body := by
  obtain ⟨o, h, hlabels⟩ := Outline.exists_ofSource
    (utf8 ("void f(int a, int b) \x7bswitch (a) \x7bcase 1: \x7bcase 2: "
        ++ "switch (b) \x7bdefault: ;\x7d\x7d case int\x7b\x7d: ;\x7d\x7d"))
    (fun o =>
      (o.labelledSwitches, [Label.case none 15 17, .case none 19 21].map (·.isBraced o.code)))
    (a := ([⟨1, ⟨11, 13⟩, [.case none 15 17, .case none 19 21, .case none 32 36]⟩,
          ⟨3, ⟨23, 25⟩, [.default 27]⟩], [false, false])) (by decide +kernel)
  obtain ⟨hlabels, hplain⟩ := Prod.mk.inj hlabels
  have hbelong := (labels_belong h).1
  rw [hlabels] at hbelong
  refine ⟨o, h, hlabels, hbelong _ List.mem_cons_self (.case none 32 36)
      ⟨[.case none 15 17, .case none 19 21], [], rfl, ?_⟩,
    hbelong _ (List.mem_cons_of_mem _ (List.mem_singleton_self _)) (.default 27)
      ⟨[], [], rfl, by simp⟩⟩
  simpa using hplain

/-- After a label with braces the labels of an inner switch count as labels of the outer one: token
25 is recorded for both. -/
theorem labels_shared :
    ∃ o, Outline.ofSource (utf8 ("void f(int a, int b) \x7bswitch (a) \x7bcase int\x7b\x7d: "
        ++ "switch (b) \x7bcase 2: ;\x7d\x7d\x7d")) = .ok o ∧
      o.labelledSwitches = [⟨1, ⟨11, 13⟩, [.case none 15 19, .case none 25 27]⟩,
        ⟨3, ⟨21, 23⟩, [.case none 25 27]⟩] ∧ (o.owner? 25).map (·.id) = some 3 := by
  obtain ⟨o, h, hlabels⟩ := Outline.exists_ofSource
    (utf8 ("void f(int a, int b) \x7bswitch (a) \x7bcase int\x7b\x7d: "
        ++ "switch (b) \x7bcase 2: ;\x7d\x7d\x7d"))
    (fun o => (o.labelledSwitches, (o.owner? 25).map (·.id)))
    (a := ([⟨1, ⟨11, 13⟩, [.case none 15 19, .case none 25 27]⟩,
        ⟨3, ⟨21, 23⟩, [.case none 25 27]⟩], some 3)) (by decide +kernel)
  exact ⟨o, h, Prod.mk.inj hlabels⟩

end Quell
