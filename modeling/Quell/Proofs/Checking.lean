import Mathlib.Data.List.Pairwise
import Mathlib.Tactic.Common
import Quell.Proofs.Layout
import Quell.Proofs.Splice

/-!
# Proofs/Checking — the check of edits is exact and does not look at their order

Edits are put in order by a stable sort (`arrange_stableSort`).  In order, rival edits stand side by
side, and the last token to start before an offset is the only one that the offset can split; so the
check accepts exactly the edits that are `Placed` and no `Rivals` (`check_eq_ok_iff`).  Without
rivals there is only one order, whatever order the edits come in, and edits in order can be put in.
-/

namespace Quell

namespace Outline

/-- **The last token before an offset is the only one it can split.** -/
theorem Valid.splitsToken_iff {o : Outline} (h : o.Valid) {offset : Nat} :
    o.splitsToken offset = true ↔ ∃ t ∈ o.tokens, t.start < offset ∧ offset < t.stop := by
  constructor
  · intro hsplit
    by_contra hnone
    rw [splitsToken_eq_false fun t ht hinside => hnone ⟨t, ht, hinside⟩] at hsplit
    exact Bool.false_ne_true hsplit
  · rintro ⟨t, ht, hstart, hstop⟩
    have hsorted : o.tokens.Pairwise fun t u => t.start < u.start :=
      h.pairwise.imp_of_mem fun {t u} ht _ hle => by
        have := (h.bounds ht).1
        omega
    have hlast : ∀ u ∈ o.tokens, u.start < offset → u.start ≤ t.start := by
      intro u hu hbefore
      have := (h.not_inside hu ht).1
      omega
    rw [splitsToken, getLast?_takeWhile_eq_some hsorted ht hstart hlast, Option.any_some,
      decide_eq_true_eq]
    exact hstop

end Outline

namespace Edit

/-! ## The order of edits -/

/-- Edits are ordered by offset, then by category. -/
theorem before_iff {a b : Edit} : before a b = true ↔
    a.offset < b.offset ∨ a.offset = b.offset ∧ a.category.rank ≤ b.category.rank := by
  simp only [before, Bool.or_eq_true, Bool.and_eq_true, decide_eq_true_eq, beq_iff_eq]

theorem before_trans (a b c : Edit) (hab : before a b = true) (hbc : before b c = true) :
    before a c = true := by
  rw [before_iff] at *
  omega

theorem before_total (a b : Edit) : (before a b || before b a) = true := by
  rw [Bool.or_eq_true, before_iff, before_iff]
  omega

theorem mem_sort {edits : List Edit} {e : Edit} : e ∈ sort edits ↔ e ∈ edits :=
  List.mem_mergeSort

theorem pairwise_sort_before (edits : List Edit) :
    (sort edits).Pairwise fun a b => before a b = true :=
  List.pairwise_mergeSort before_trans before_total edits

theorem pairwise_sort_offset (edits : List Edit) :
    (sort edits).Pairwise fun a b => a.offset ≤ b.offset :=
  (pairwise_sort_before edits).imp fun hab => by
    rw [before_iff] at hab
    omega

/-- **A stable sort**: the same edits, by offset and then by category, and those at one place for
one purpose as they came. -/
structure StableSort (edits sorted : List Edit) : Prop where
  perm : sorted.Perm edits
  ordered : sorted.Pairwise fun a b =>
    a.offset < b.offset ∨ a.offset = b.offset ∧ a.category.rank ≤ b.category.rank
  stable : ∀ offset category,
    sorted.filter (fun e => e.offset == offset && e.category == category) =
      edits.filter fun e => e.offset == offset && e.category == category

/-- Sorting is stable. -/
theorem stableSort_sort (edits : List Edit) : StableSort edits (sort edits) where
  perm := List.mergeSort_perm edits before
  ordered := (pairwise_sort_before edits).imp before_iff.mp
  stable offset category := by
    -- Edits at one place for one purpose are in order, so sorting keeps them as a sublist.
    have htie : (edits.filter fun e => e.offset == offset && e.category == category).Pairwise
        fun a b => before a b = true := by
      refine List.pairwise_filter.mpr (List.pairwise_of_forall fun a b ha hb => ?_)
      simp only [Bool.and_eq_true, beq_iff_eq] at ha hb
      exact before_iff.mpr (.inr ⟨ha.1.trans hb.1.symm, Nat.le_of_eq (by rw [ha.2, hb.2])⟩)
    have hsub := (List.sublist_mergeSort before_trans before_total htie
      List.filter_sublist).filter fun e => e.offset == offset && e.category == category
    simp only [List.filter_filter, Bool.and_self] at hsub
    exact (hsub.eq_of_length ((List.mergeSort_perm edits before).filter _).length_eq.symm).symm

/-! ## What the check looks for -/

/-- The edit lies in the buffer and splits no token. -/
structure Placed (o : Outline) (e : Edit) : Prop where
  offset_le : e.offset ≤ o.source.length
  between : ∀ t ∈ o.tokens, ¬(t.start < e.offset ∧ e.offset < t.stop)

/-- Both edits insert at one place for one purpose. -/
def Rivals (a b : Edit) : Prop := a.offset = b.offset ∧ a.category = b.category

instance (a b : Edit) : Decidable (Rivals a b) := inferInstanceAs (Decidable (_ ∧ _))

theorem Rivals.symm {a b : Edit} (h : Rivals a b) : Rivals b a := ⟨h.1.symm, h.2.symm⟩

instance : Std.Symm fun a b => ¬Rivals a b := ⟨fun _ _ hab hba => hab hba.symm⟩

/-- Edits that each may come first are rivals. -/
theorem rivals_of_before {a b : Edit} (hab : before a b = true) (hba : before b a = true) :
    Rivals a b := by
  rw [before_iff] at hab hba
  refine ⟨by omega, ?_⟩
  have hrank : a.category.rank = b.category.rank := by omega
  revert hrank
  cases a.category <;> cases b.category <;> decide

/-- **In order, no edit stands between rivals** but their rivals. -/
theorem Rivals.of_between {a b c : Edit} (h : Rivals a c) (hab : before a b = true)
    (hbc : before b c = true) : Rivals a b := by
  refine rivals_of_before hab ?_
  rw [before_iff] at hbc ⊢
  rwa [h.1, h.2]

/-- An edit is not refused for its place exactly if it is placed. -/
theorem misplaced?_eq_none_iff {o : Outline} (h : o.Valid) {e : Edit} :
    misplaced? o e = none ↔ Placed o e := by
  have hsplit : o.splitsToken e.offset = false ↔
      ∀ t ∈ o.tokens, ¬(t.start < e.offset ∧ e.offset < t.stop) := by
    rw [← Bool.not_eq_true, h.splitsToken_iff]
    simp only [not_exists, not_and]
  rw [misplaced?]
  split_ifs with hpast hsplits
  · exact iff_of_false (by simp) fun hplaced => absurd hplaced.offset_le (by omega)
  · refine iff_of_false (by simp) fun hplaced => ?_
    rw [hsplit.mpr hplaced.between] at hsplits
    cases hsplits
  · exact iff_of_true rfl ⟨by omega, hsplit.mp (Bool.not_eq_true _ ▸ hsplits)⟩

/-- **In order, rivals stand side by side**: an edit that is no rival of the next has none. -/
theorem not_rivals_of_next {a b : Edit} {rest : List Edit}
    (hsorted : (a :: b :: rest).Pairwise fun a b => before a b = true) (hnext : ¬Rivals a b) :
    ∀ c ∈ b :: rest, ¬Rivals a c := by
  obtain ⟨hfirst, hrest⟩ := List.pairwise_cons.mp hsorted
  rintro c hc hac
  rcases List.mem_cons.mp hc with rfl | hc
  · exact hnext hac
  · exact hnext (hac.of_between (hfirst b List.mem_cons_self)
      ((List.pairwise_cons.mp hrest).1 c hc))

theorem repeated?_cons_cons (a b : Edit) (rest : List Edit) :
    repeated? (a :: b :: rest) =
      if Rivals a b then some ⟨b.offset, .repeated b.category⟩ else repeated? (b :: rest) := by
  rw [repeated?]
  refine if_congr ?_ rfl rfl
  rw [Bool.and_eq_true, beq_iff_eq, beq_iff_eq, Rivals]

/-- **Sorted edits without neighbours that rival have no rivals at all.** -/
theorem repeated?_eq_none_iff {edits : List Edit}
    (hsorted : edits.Pairwise fun a b => before a b = true) :
    repeated? edits = none ↔ edits.Pairwise fun a b => ¬Rivals a b := by
  induction edits with
  | nil => exact iff_of_true rfl .nil
  | cons a rest ih =>
    cases rest with
    | nil => exact iff_of_true rfl (List.pairwise_singleton _ _)
    | cons b rest =>
      rw [repeated?_cons_cons, List.pairwise_cons]
      split_ifs with hrivals
      · exact iff_of_false (by simp) fun hnone => hnone.1 b List.mem_cons_self hrivals
      · rw [ih (List.pairwise_cons.mp hsorted).2, iff_and_self]
        exact fun _ => not_rivals_of_next hsorted hrivals

/-- The first edit that repeats the one before it. -/
theorem exists_of_repeated? {edits : List Edit} {fault : EditFault}
    (hsorted : edits.Pairwise fun a b => before a b = true) (h : repeated? edits = some fault) :
    ∃ front a b back, edits = front ++ a :: b :: back ∧ Rivals a b ∧
      (front ++ [a]).Pairwise (fun a b => ¬Rivals a b) ∧
      fault = ⟨b.offset, .repeated b.category⟩ := by
  induction edits with
  | nil => cases h
  | cons a rest ih =>
    cases rest with
    | nil => cases h
    | cons b rest =>
      rw [repeated?_cons_cons] at h
      split_ifs at h with hrivals
      · cases h
        exact ⟨[], a, b, rest, rfl, hrivals, List.pairwise_singleton _ _, rfl⟩
      · obtain ⟨front, c, d, back, hsplit, hcd, hfront, rfl⟩ :=
          ih (List.pairwise_cons.mp hsorted).2 h
        refine ⟨a :: front, c, d, back, by rw [hsplit]; rfl, hcd, ?_, rfl⟩
        have hrest : ∀ e ∈ front ++ [c], e ∈ b :: rest := by
          rw [hsplit, List.append_cons front c (d :: back)]
          exact fun e => List.mem_append_left _
        rw [List.cons_append, List.pairwise_cons]
        exact ⟨fun e he => not_rivals_of_next hsorted hrivals e (hrest e he), hfront⟩

/-! ## The verdict -/

/-- **What is wrong with edits in order**: the first that is misplaced, or if none is, the first
that repeats the one before it. -/
inductive Refused (o : Outline) (sorted : List Edit) : EditFault → Prop
  | pastEnd {front back : List Edit} {e : Edit} (split : sorted = front ++ e :: back)
      (placed : ∀ a ∈ front, Placed o a) (past : o.source.length < e.offset) :
      Refused o sorted ⟨e.offset, .pastEnd e.category o.source.length⟩
  | splitsToken {front back : List Edit} {e : Edit} {t : Token}
      (split : sorted = front ++ e :: back) (placed : ∀ a ∈ front, Placed o a)
      (offset_le : e.offset ≤ o.source.length) (token : t ∈ o.tokens)
      (inside : t.start < e.offset ∧ e.offset < t.stop) :
      Refused o sorted ⟨e.offset, .splitsToken e.category⟩
  | repeated {front back : List Edit} {a b : Edit} (split : sorted = front ++ a :: b :: back)
      (placed : ∀ e ∈ sorted, Placed o e) (rivals : Rivals a b)
      (first : (front ++ [a]).Pairwise fun a b => ¬Rivals a b) :
      Refused o sorted ⟨b.offset, .repeated b.category⟩

/-- A list of edits is accepted if each is placed and no two are rivals. -/
theorem arrange_snd_eq_none_iff {o : Outline} (h : o.Valid) {edits : List Edit} :
    (arrange o edits).2 = none ↔
      (∀ e ∈ edits, Placed o e) ∧ edits.Pairwise fun a b => ¬Rivals a b := by
  have hplaced : (sort edits).findSome? (misplaced? o) = none ↔ ∀ e ∈ edits, Placed o e := by
    simp only [List.findSome?_eq_none_iff, mem_sort, misplaced?_eq_none_iff h]
  have hrivals : repeated? (sort edits) = none ↔ edits.Pairwise fun a b => ¬Rivals a b := by
    rw [repeated?_eq_none_iff (pairwise_sort_before edits)]
    exact (List.mergeSort_perm edits before).pairwise_iff fun hab hba => hab hba.symm
  rw [arrange, ← hplaced, ← hrivals]
  cases (sort edits).findSome? (misplaced? o) <;> simp

/-- **The fault reported is one that the edits have.** -/
theorem refused_of_arrange {o : Outline} (h : o.Valid) {edits : List Edit} {fault : EditFault}
    (hfault : (arrange o edits).2 = some fault) : Refused o (sort edits) fault := by
  rw [arrange] at hfault
  cases hplaced : (sort edits).findSome? (misplaced? o) with
  | some found =>
    rw [hplaced] at hfault
    obtain rfl : found = fault := Option.some.inj hfault
    obtain ⟨front, e, back, hsplit, he, hfront⟩ := List.findSome?_eq_some_iff.mp hplaced
    have hfront : ∀ a ∈ front, Placed o a := fun a ha => (misplaced?_eq_none_iff h).mp (hfront a ha)
    rw [misplaced?] at he
    split_ifs at he with hpast hinside
    · cases he
      exact .pastEnd hsplit hfront hpast
    · cases he
      obtain ⟨t, ht, hinside⟩ := h.splitsToken_iff.mp hinside
      exact .splitsToken hsplit hfront (by omega) ht hinside
  | none =>
    rw [hplaced] at hfault
    obtain ⟨front, a, b, back, hsplit, hrivals, hfront, rfl⟩ :=
      exists_of_repeated? (pairwise_sort_before edits) hfault
    exact .repeated hsplit (fun e he => (misplaced?_eq_none_iff h).mp
      (List.findSome?_eq_none_iff.mp hplaced e he)) hrivals hfront

theorem check_eq (o : Outline) (edits : List Edit) :
    check o edits = ((arrange o edits).2.map Except.error).getD (.ok (sort edits)) := by
  rw [check, arrange]
  cases (sort edits).findSome? (misplaced? o) <|> repeated? (sort edits) <;> rfl

/-- A check succeeds exactly on edits that are placed and no two of which are rivals. -/
theorem check_eq_ok_iff {o : Outline} (h : o.Valid) {edits sorted : List Edit} :
    check o edits = .ok sorted ↔
      sorted = sort edits ∧ (∀ e ∈ edits, Placed o e) ∧ edits.Pairwise fun a b => ¬Rivals a b := by
  rw [← arrange_snd_eq_none_iff h, check_eq]
  cases (arrange o edits).2 <;> simp [eq_comm]

/-- A check fails exactly with the fault found. -/
theorem check_eq_error_iff {o : Outline} {edits : List Edit} {fault : EditFault} :
    check o edits = .error fault ↔ (arrange o edits).2 = some fault := by
  rw [check_eq]
  cases (arrange o edits).2 <;> simp

/-- **Without rivals there is only one order**, in whatever order the edits come. -/
theorem sort_eq_of_perm {edits edits' : List Edit} (hperm : edits'.Perm edits)
    (hrivals : edits.Pairwise fun a b => ¬Rivals a b) : sort edits' = sort edits := by
  have hsame : (sort edits').Perm (sort edits) :=
    (List.mergeSort_perm edits' before).trans (hperm.trans (List.mergeSort_perm edits before).symm)
  refine hsame.eq_of_pairwise (fun a b ha hb hab hba => ?_) (pairwise_sort_before edits')
    (pairwise_sort_before edits)
  by_contra hne
  have ha := hperm.mem_iff.mp (mem_sort.mp ha)
  exact hrivals.forall ha (mem_sort.mp hb) hne (rivals_of_before hab hba)

/-! ## Applying -/

/-- Edits in order and in the buffer can be put in. -/
theorem exists_spliced {edits : List Edit} {cursor : Nat} {rest : Bytes}
    (h : edits.Pairwise fun a b => a.offset ≤ b.offset)
    (hbounds : ∀ e ∈ edits, cursor ≤ e.offset ∧ e.offset ≤ cursor + rest.length) :
    ∃ output, Spliced cursor rest edits output := by
  induction edits generalizing cursor rest with
  | nil => exact ⟨rest, .done cursor rest⟩
  | cons e edits ih =>
    obtain ⟨hhead, htail⟩ := List.pairwise_cons.mp h
    have he := hbounds e (by simp)
    have hgap : e.offset = cursor + (rest.take (e.offset - cursor)).length := by
      rw [List.length_take]
      omega
    have hrest : ∀ a ∈ edits, e.offset ≤ a.offset ∧
        a.offset ≤ e.offset + (rest.drop (e.offset - cursor)).length := by
      intro a ha
      have := hhead a ha
      have := hbounds a (by simp [ha])
      rw [List.length_drop]
      omega
    obtain ⟨output, houtput⟩ := ih htail hrest
    have := Spliced.insert _ hgap houtput
    rw [List.take_append_drop] at this
    exact ⟨_, this⟩

/-- **Edits that pass the check can be put in.** -/
theorem exists_apply {o : Outline} {edits : List Edit} (hplaced : ∀ e ∈ edits, Placed o e) :
    ∃ output, apply o.source (sort edits) = .ok output := by
  have hbounds : ∀ e ∈ sort edits, 0 ≤ e.offset ∧ e.offset ≤ 0 + o.source.length := by
    intro e he
    rw [Nat.zero_add]
    exact ⟨Nat.zero_le _, (hplaced e (mem_sort.mp he)).offset_le⟩
  obtain ⟨output, houtput⟩ := exists_spliced (pairwise_sort_offset edits) hbounds
  exact ⟨output, apply_eq_ok_iff.mpr houtput⟩

/-- **The check of edits is exact and does not look at their order.**  It leaves them stably sorted,
accepts them exactly if each lies in the buffer and in no token and no two are rivals, and blames
the first of them that is wrong.  What it accepts can be put in, and in any other order it is
accepted too and comes out the same. -/
theorem check_exact {source : Bytes} {o : Outline} (h : Outline.ofSource source = .ok o)
    (edits : List Edit) :
    StableSort edits (arrange o edits).1 ∧
    ((∃ sorted, check o edits = .ok sorted) ↔
      (∀ e ∈ edits, e.offset ≤ source.length ∧
        ∀ t ∈ o.tokens, ¬(t.start < e.offset ∧ e.offset < t.stop)) ∧
      edits.Pairwise fun a b => ¬(a.offset = b.offset ∧ a.category = b.category)) ∧
    (∀ fault, check o edits = .error fault → Refused o (arrange o edits).1 fault) ∧
    ∀ sorted, check o edits = .ok sorted → sorted = (arrange o edits).1 ∧
      ∃ output, apply source sorted = .ok output ∧
        ∀ edits', edits'.Perm edits → check o edits' = .ok sorted := by
  obtain ⟨rfl, hvalid⟩ := Outline.ofSource_eq_ok_iff_valid.mp h
  refine ⟨stableSort_sort edits, ?_, fun fault hfault =>
    refused_of_arrange hvalid (check_eq_error_iff.mp hfault), fun sorted hsorted => ?_⟩
  · have hplaced : ∀ e, Placed o e ↔ e.offset ≤ o.source.length ∧
        ∀ t ∈ o.tokens, ¬(t.start < e.offset ∧ e.offset < t.stop) := fun e =>
      ⟨fun he => ⟨he.offset_le, he.between⟩, fun he => ⟨he.1, he.2⟩⟩
    simp only [check_eq_ok_iff hvalid, exists_eq_left, hplaced, Rivals]
  · obtain ⟨rfl, hplaced, hrivals⟩ := (check_eq_ok_iff hvalid).mp hsorted
    obtain ⟨output, houtput⟩ := exists_apply hplaced
    refine ⟨rfl, output, houtput, fun edits' hperm => (check_eq_ok_iff hvalid).mpr
      ⟨(sort_eq_of_perm hperm hrivals).symm, fun e he => hplaced e (hperm.mem_iff.mp he), ?_⟩⟩
    exact hrivals.perm hperm.symm fun hab hba => hab hba.symm

/-- At one place a label comes before a `default`, in whatever order the two edits are found. -/
theorem check_exact_tie :
    ∃ o, Outline.ofSource (utf8 "int a;") = .ok o ∧
      ∃ label fallback, label = Edit.mk 6 (utf8 "C") .missingCase [] ∧
        fallback = Edit.mk 6 (utf8 "D") .missingDefault [] ∧
        check o [label, fallback] = .ok [label, fallback] ∧
        check o [fallback, label] = .ok [label, fallback] ∧
        apply (utf8 "int a;") [label, fallback] = .ok (utf8 "int a;CD") := by
  let label := Edit.mk 6 (utf8 "C") .missingCase []
  let fallback := Edit.mk 6 (utf8 "D") .missingDefault []
  obtain ⟨o, h, hstops⟩ := Outline.exists_ofSource (utf8 "int a;")
    (fun o => o.tokens.all (·.stop ≤ 6)) (a := true) (by decide +kernel)
  obtain ⟨-, haccepts, -, hpassed⟩ := check_exact h [label, fallback]
  have hplaced : ∀ e ∈ [label, fallback], e.offset ≤ (utf8 "int a;").length ∧
      ∀ t ∈ o.tokens, ¬(t.start < e.offset ∧ e.offset < t.stop) := by
    intro e he
    have hoffset : e.offset = 6 := by
      simp only [List.mem_cons, List.not_mem_nil, or_false] at he
      rcases he with rfl | rfl <;> rfl
    refine ⟨by rw [hoffset]; decide, fun t ht => ?_⟩
    have : t.stop ≤ 6 := by simpa using List.all_eq_true.mp hstops t ht
    omega
  obtain ⟨sorted, hok⟩ := haccepts.mpr ⟨hplaced, by decide⟩
  obtain ⟨hsorted, -, -, hperm⟩ := hpassed sorted hok
  obtain rfl : sorted = [label, fallback] := hsorted.trans (List.mergeSort_of_pairwise (by decide))
  exact ⟨o, h, label, fallback, rfl, rfl, hok, hperm _ (List.Perm.swap ..), by decide +kernel⟩

end Edit

end Quell
