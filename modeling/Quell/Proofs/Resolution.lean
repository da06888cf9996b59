import Mathlib.Data.List.Infix
import Quell.Enumeration.Registry
import Quell.Proofs.ReadBack
import Quell.Proofs.Segments

/-!
# Proofs/Resolution — which enum a written name means, in any order of declaration

A written name may mean the enums whose qualified segments end with its own (`meant`); the `nearest`
of them are declared in the innermost scope around the use that declares any.  These two lists
settle every answer: one enum is found exactly if they leave one to mean (`Settled`), and else all
are named.  Both keep their members when the declarations are reordered, so the answer stays alike
(`resolution_never_guesses`).
-/

namespace Quell

open Text

/-! ## Names of enums -/

namespace Text

theorem qualified_concat {front : List String} (hne : front ≠ []) (last : String) :
    qualified (front ++ [last]) = qualified front ++ "::" ++ last := by
  induction front with
  | nil => exact absurd rfl hne
  | cons s front ih =>
    cases front with
    | nil =>
      rw [List.singleton_append, qualified, String.intercalate_cons_cons,
        String.intercalate_singleton, qualified, String.intercalate_singleton]
    | cons t front =>
      have hrest := ih (List.cons_ne_nil t front)
      rw [qualified, List.cons_append] at hrest
      rw [List.cons_append, List.cons_append, qualified, String.intercalate_cons_cons, hrest,
        qualified, qualified, String.intercalate_cons_cons]
      simp only [String.append_assoc]

end Text

/-- **The name of an enum**: identifiers with `::` between them. -/
def Enumeration.WellNamed (e : Enumeration) : Prop :=
  ∃ names, names ≠ [] ∧ (∀ s ∈ names, s ≠ "" ∧ ':' ∉ s.toList) ∧ e.name = qualified names

/-- The last segment of an enum is the last piece of its name. -/
theorem Enumeration.WellNamed.getLast?_segments {e : Enumeration} (h : e.WellNamed) :
    e.segments.getLast? = some (lastPiece e.name) := by
  obtain ⟨names, hne, hplain, hname⟩ := h
  obtain ⟨front, last, rfl⟩ := (List.eq_nil_or_concat' names).resolve_left hne
  have hlast := hplain last (by simp)
  have hpieces : lastPiece e.name = last := by
    rw [lastPiece, hname]
    rcases eq_or_ne front [] with rfl | hfront
    · rw [List.nil_append, qualified, String.intercalate_singleton, splitLast_eq_none hlast.2]
      rfl
    · rw [qualified_concat hfront, splitLast_append hlast.2]
      rfl
  have hsegments : Text.segments e.name = front ++ [last] := by
    rw [hname, segments_qualified_of_plain hplain]
  rw [segments, List.filter_append, show (pieces e.name).filter _ = Text.segments e.name from rfl,
    hsegments, hpieces, ← List.append_assoc, List.getLast?_concat]

namespace Registry

/-! ## The enums that may be meant -/

/-- A written name may mean an enum whose qualified segments end with the written ones, or are the
written ones if the name is rooted. -/
def MayMean (written : String) (e : Enumeration) : Prop :=
  if isRooted written then e.segments = segments written else segments written <:+ e.segments

instance (written : String) : DecidablePred (MayMean written) := fun e =>
  inferInstanceAs (Decidable (if isRooted written then e.segments = segments written
    else segments written <:+ e.segments))

/-- The enums that a written name may mean. -/
def meant (enums : List Enumeration) (written : String) : List Enumeration :=
  enums.filter (MayMean written ·)

/-- The enum is declared in the innermost scope around the use that declares any that may be
meant. -/
def Nearest (enums : List Enumeration) (written : String) (scope : List String)
    (e : Enumeration) : Prop :=
  ∃ p, p <+: scope ∧ e.segments = p ++ segments written ∧ ∀ q, q <+: scope →
    (∃ other ∈ meant enums written, other.segments = q ++ segments written) → q.length ≤ p.length

instance (enums : List Enumeration) (written : String) (scope : List String) :
    DecidablePred (Nearest enums written scope) := fun e =>
  decidable_of_iff (∃ p ∈ scope.inits, e.segments = p ++ segments written ∧ ∀ q ∈ scope.inits,
    (∃ other ∈ meant enums written, other.segments = q ++ segments written) →
      q.length ≤ p.length) (by simp only [List.mem_inits]; rfl)

/-- The enums that may be meant and are declared nearest to the use. -/
def nearest (enums : List Enumeration) (written : String) (scope : List String) :
    List Enumeration := (meant enums written).filter (Nearest enums written scope ·)

/-- Looking enums up by the last piece of their names misses none. -/
theorem candidates_eq_meant {enums : List Enumeration} (hnames : ∀ e ∈ enums, e.WellNamed)
    {written : String} (hwritten : segments written ≠ []) :
    candidates enums (isRooted written) (segments written) = meant enums written := by
  refine List.filter_congr fun e he => ?_
  have hnamed : isNamed (isRooted written) (segments written) e = decide (MayMean written e) := by
    rw [isNamed, Bool.eq_iff_iff, decide_eq_true_eq, MayMean]
    split_ifs <;> simp
  rw [hnamed, Bool.and_eq_right_iff_imp, decide_eq_true_eq, beq_iff_eq]
  intro hmay
  have hsuffix : segments written <:+ e.segments := by
    rw [MayMean] at hmay
    split_ifs at hmay
    · rw [hmay]
    · exact hmay
  obtain ⟨before, hbefore⟩ := hsuffix
  rw [← (hnames e he).getLast?_segments, ← hbefore, List.getLast?_append_of_ne_nil _ hwritten]

/-! ## The innermost scope -/

theorem find?_range_reverse {p : Nat → Bool} {n k : Nat}
    (h : (List.range n).reverse.find? p = some k) :
    k < n ∧ p k = true ∧ ∀ j, j < n → p j = true → j ≤ k := by
  induction n with
  | zero => cases h
  | succ n ih =>
    rw [List.range_succ, List.reverse_concat, List.find?_cons] at h
    split at h
    · rename_i hp
      cases h
      exact ⟨Nat.lt_succ_self _, hp, fun j hj _ => Nat.le_of_lt_succ hj⟩
    · rename_i hp
      obtain ⟨hlt, hk, hlast⟩ := ih h
      refine ⟨Nat.lt_succ_of_lt hlt, hk, fun j hj hpj => hlast j ?_ hpj⟩
      have : j ≠ n := by
        rintro rfl
        exact absurd (hpj.symm.trans hp) (by decide)
      omega

/-- The search through the scopes, innermost first, ends at the nearest declarations. -/
theorem innermost_eq_nearest (enums : List Enumeration) (written : String) (scope : List String) :
    innermost (meant enums written) (segments written) scope = nearest enums written scope := by
  -- Every prefix of the scope is the part of some depth, and `declared` says if it declares any.
  have hdepth : ∀ {q}, q <+: scope → q = scope.take q.length ∧ q.length < scope.length + 1 :=
    fun hq => ⟨List.prefix_iff_eq_take.mp hq, Nat.lt_succ_of_le hq.length_le⟩
  have hdeclared : ∀ d, (!((meant enums written).filter fun e =>
      e.segments == scope.take d ++ segments written).isEmpty) = true ↔
      ∃ other ∈ meant enums written, other.segments = scope.take d ++ segments written := by
    intro d
    rw [Bool.not_eq_true', List.isEmpty_eq_false_iff_exists_mem]
    simp [List.mem_filter]
  rw [innermost, List.find?_map]
  cases hfind : (List.range (scope.length + 1)).reverse.find? _ with
  | none =>
    rw [Option.map_none, Option.getD_none, eq_comm, nearest, List.filter_eq_nil_iff]
    intro e he hnearest
    obtain ⟨p, hp, hsegments, -⟩ := of_decide_eq_true hnearest
    obtain ⟨htake, hlt⟩ := hdepth hp
    refine List.find?_eq_none.mp hfind p.length (by simpa using hlt) ((hdeclared _).mpr ?_)
    exact ⟨e, he, htake ▸ hsegments⟩
  | some k =>
    obtain ⟨hlt, hk, hlast⟩ := find?_range_reverse hfind
    rw [Option.map_some, Option.getD_some, nearest]
    refine List.filter_congr fun e he => ?_
    rw [Bool.eq_iff_iff, beq_iff_eq, decide_eq_true_eq]
    constructor
    · intro hsegments
      refine ⟨scope.take k, List.take_prefix k scope, hsegments, fun q hq hother => ?_⟩
      obtain ⟨htake, hqlt⟩ := hdepth hq
      have := hlast q.length hqlt ((hdeclared _).mpr (htake ▸ hother))
      rw [List.length_take]
      omega
    · rintro ⟨p, hp, hsegments, hmax⟩
      obtain ⟨htake, hplt⟩ := hdepth hp
      have hle := hlast p.length hplt ((hdeclared _).mpr ⟨e, he, htake ▸ hsegments⟩)
      have hge := hmax _ (List.take_prefix k scope) ((hdeclared k).mp hk)
      rw [List.length_take] at hge
      rw [hsegments, show scope.take k = p by rw [htake]; congr 1; omega]

/-! ## What settles an answer -/

/-- **The declarations leave one enum to mean**: only one may be meant, or the nearest agree, or all
are declarations of one enum. -/
inductive Settled (meant nearest : List Enumeration) : Prop
  | only : meant.length = 1 → Settled meant nearest
  | inner : nearest ≠ [] → (∀ d ∈ nearest, ∀ e ∈ nearest, d.enumerators = e.enumerators) →
      Settled meant nearest
  | repeated : meant ≠ [] →
      (∀ d ∈ meant, ∀ e ∈ meant, d.segments = e.segments ∧ d.enumerators = e.enumerators) →
      Settled meant nearest

/-- The declarations that the answer is taken from: the nearest, if there are any. -/
def closest (meant nearest : List Enumeration) : List Enumeration :=
  if nearest = [] then meant else nearest

/-- The nearest enumerations are those meant and nearest to the scope. -/
theorem mem_nearest_iff {enums : List Enumeration} {written : String} {scope : List String}
    {e : Enumeration} : e ∈ nearest enums written scope ↔
      e ∈ meant enums written ∧ Nearest enums written scope e := by
  rw [nearest, List.mem_filter, decide_eq_true_eq]

/-- The nearest declarations are declarations of one enum. -/
theorem Nearest.segments_eq {enums : List Enumeration} {written : String} {scope : List String}
    {d e : Enumeration} (hd : Nearest enums written scope d) (he : Nearest enums written scope e)
    (hdmem : d ∈ meant enums written) (hemem : e ∈ meant enums written) :
    d.segments = e.segments := by
  obtain ⟨p, hp, hdp, hdmax⟩ := hd
  obtain ⟨q, hq, heq, hemax⟩ := he
  have hle := hdmax q hq ⟨e, hemem, heq⟩
  have hge := hemax p hp ⟨d, hdmem, hdp⟩
  rw [hdp, heq, List.prefix_iff_eq_take.mp hp, List.prefix_iff_eq_take.mp hq,
    Nat.le_antisymm hle hge]

section

variable {enums : List Enumeration} {written : String} {scope : List String}

theorem mem_meant_of_mem_closest {e : Enumeration}
    (he : e ∈ closest (meant enums written) (nearest enums written scope)) :
    e ∈ meant enums written := by
  rw [closest] at he
  split_ifs at he
  · exact he
  · exact (mem_nearest_iff.mp he).1

/-- A settled answer says the same whichever declaration it is taken from. -/
theorem Settled.agree (h : Settled (meant enums written) (nearest enums written scope))
    {d e : Enumeration} (hd : d ∈ closest (meant enums written) (nearest enums written scope))
    (he : e ∈ closest (meant enums written) (nearest enums written scope)) :
    d.segments = e.segments ∧ d.enumerators = e.enumerators := by
  have hdmem := mem_meant_of_mem_closest hd
  have hemem := mem_meant_of_mem_closest he
  cases h with
  | only hone =>
    obtain ⟨only, hmeant⟩ := List.length_eq_one_iff.mp hone
    rw [hmeant, List.mem_singleton] at hdmem hemem
    rw [hdmem, hemem]
    exact ⟨rfl, rfl⟩
  | inner hne hsame =>
    rw [closest, if_neg hne] at hd he
    exact ⟨(mem_nearest_iff.mp hd).2.segments_eq (mem_nearest_iff.mp he).2 hdmem hemem,
      hsame d hd e he⟩
  | repeated _ hsame => exact hsame d hdmem e hemem

theorem Settled.meant_ne_nil (h : Settled (meant enums written) (nearest enums written scope)) :
    meant enums written ≠ [] := by
  cases h with
  | only hone => exact List.ne_nil_of_length_pos (by omega)
  | inner hne _ =>
    obtain ⟨e, he⟩ := List.exists_mem_of_ne_nil _ hne
    exact List.ne_nil_of_mem (mem_nearest_iff.mp he).1
  | repeated hne _ => exact hne

end

theorem forall_eq_head_iff {α β : Type} (f : α → β) (first : α) (rest : List α) :
    (∀ d ∈ rest, f d = f first) ↔ ∀ d ∈ first :: rest, ∀ e ∈ first :: rest, f d = f e := by
  constructor
  · intro h
    have hfirst : ∀ d ∈ first :: rest, f d = f first := List.forall_mem_cons.mpr ⟨rfl, h⟩
    exact fun d hd e he => (hfirst d hd).trans (hfirst e he).symm
  · exact fun h d hd => h d (List.mem_cons_of_mem first hd) first List.mem_cons_self

/-- Declarations agree on the first if all have the same enumerators. -/
theorem agreed?_eq_some_iff {declared : List Enumeration} {e : Enumeration} :
    agreed? declared = some e ↔ declared.head? = some e ∧
      ∀ d ∈ declared, ∀ d' ∈ declared, d.enumerators = d'.enumerators := by
  cases declared with
  | nil => simp [agreed?]
  | cons first rest =>
    rw [← forall_eq_head_iff, agreed?, Option.ite_none_right_eq_some, List.head?_cons,
      List.all_eq_true, and_comm]
    simp only [beq_iff_eq]

/-- Declarations repeat the first if all have the same name and enumerators. -/
theorem repeated?_eq_some_iff {declared : List Enumeration} {e : Enumeration} :
    repeated? declared = some e ↔ declared.head? = some e ∧ ∀ d ∈ declared, ∀ d' ∈ declared,
      d.segments = d'.segments ∧ d.enumerators = d'.enumerators := by
  cases declared with
  | nil => simp [repeated?]
  | cons first rest =>
    have hpairs := forall_eq_head_iff (fun e => (e.segments, e.enumerators)) first rest
    simp only [Prod.mk.injEq] at hpairs
    rw [← hpairs, repeated?, Option.ite_none_right_eq_some, List.head?_cons, List.all_eq_true,
      and_comm]
    simp only [Bool.and_eq_true, beq_iff_eq]

/-! ## The order of declaration -/

/-- The enumerations meant do not depend on the order of the declarations. -/
theorem perm_meant {enums other : List Enumeration} (h : enums.Perm other) (written : String) :
    (meant enums written).Perm (meant other written) := h.filter _

theorem Nearest.congr {enums other : List Enumeration} (h : enums.Perm other) {written : String}
    {scope : List String} {e : Enumeration} (hnearest : Nearest enums written scope e) :
    Nearest other written scope e := by
  obtain ⟨p, hp, hsegments, hmax⟩ := hnearest
  refine ⟨p, hp, hsegments, fun q hq ⟨d, hd, hdq⟩ => hmax q hq ⟨d, ?_, hdq⟩⟩
  exact (perm_meant h written).mem_iff.mpr hd

theorem perm_nearest {enums other : List Enumeration} (h : enums.Perm other) (written : String)
    (scope : List String) : (nearest enums written scope).Perm (nearest other written scope) := by
  have hsame : nearest other written scope =
      (meant other written).filter (Nearest enums written scope ·) :=
    List.filter_congr fun e _ => decide_eq_decide.mpr ⟨.congr h.symm, .congr h⟩
  rw [hsame]
  exact (perm_meant h written).filter _

/-- Whether a choice is settled does not depend on that order. -/
theorem Settled.congr {meant meant' nearest nearest' : List Enumeration} (h : meant.Perm meant')
    (hnear : nearest.Perm nearest') (hsettled : Settled meant nearest) :
    Settled meant' nearest' := by
  cases hsettled with
  | only hone => exact .only (h.length_eq ▸ hone)
  | inner hne hsame =>
    exact .inner (fun hnil => hne (hnil ▸ hnear).eq_nil) fun d hd e he =>
      hsame d (hnear.mem_iff.mpr hd) e (hnear.mem_iff.mpr he)
  | repeated hne hsame =>
    exact .repeated (fun hnil => hne (hnil ▸ h).eq_nil) fun d hd e he =>
      hsame d (h.mem_iff.mpr hd) e (h.mem_iff.mpr he)

theorem perm_closest {meant meant' nearest nearest' : List Enumeration} (h : meant.Perm meant')
    (hnear : nearest.Perm nearest') : (closest meant nearest).Perm (closest meant' nearest') := by
  rcases eq_or_ne nearest [] with hnil | hne
  · have hnil' : nearest' = [] := (hnil ▸ hnear).symm.eq_nil
    rw [closest, closest, if_pos hnil, if_pos hnil']
    exact h
  · have hne' : nearest' ≠ [] := fun hnil => hne (hnil ▸ hnear).eq_nil
    rw [closest, closest, if_neg hne, if_neg hne']
    exact hnear

/-! ## The answer -/

variable {enums : List Enumeration} (hnames : ∀ e ∈ enums, e.WellNamed) {written : String}
  (hwritten : segments written ≠ [])

include hnames hwritten

/-- What an answer is, by what may be meant. -/
theorem resolve_cases (scope : List String) :
    (meant enums written = [] ∧ resolve enums written scope = .notFound) ∨
    (Settled (meant enums written) (nearest enums written scope) ∧
      ∃ e, (closest (meant enums written) (nearest enums written scope)).head? = some e ∧
        resolve enums written scope = .found e) ∨
    (meant enums written ≠ [] ∧ ¬Settled (meant enums written) (nearest enums written scope) ∧
      resolve enums written scope = .ambiguous ((meant enums written).map (·.qualifiedName))) := by
  have hclosest : meant enums written ≠ [] →
      ∃ e, (closest (meant enums written) (nearest enums written scope)).head? = some e := by
    intro hne
    have : closest (meant enums written) (nearest enums written scope) ≠ [] := by
      rw [closest]
      split_ifs with hnone
      · exact hne
      · exact hnone
    exact ⟨_, List.head?_eq_some_head this⟩
  rw [resolve, candidates_eq_meant hnames hwritten]
  split
  · rename_i hmeant
    exact .inl ⟨hmeant, rfl⟩
  · rename_i only hmeant
    obtain ⟨e, he⟩ := hclosest (by rw [hmeant]; exact List.cons_ne_nil _ _)
    have honly := mem_meant_of_mem_closest (List.mem_of_head? he)
    rw [hmeant, List.mem_singleton] at honly
    exact .inr (.inl ⟨.only (by rw [hmeant]; rfl), e, he, by rw [honly]⟩)
  · rename_i several hnotNil hnotOne
    rw [innermost_eq_nearest]
    cases hagreed : agreed? (nearest enums written scope) with
    | some e =>
      obtain ⟨hhead, hsame⟩ := agreed?_eq_some_iff.mp hagreed
      have hne := List.ne_nil_of_mem (List.mem_of_head? hhead)
      exact .inr (.inl ⟨.inner hne hsame, e, by rw [closest, if_neg hne, hhead], rfl⟩)
    | none =>
      -- The nearest do not agree, so if all are one enum then none of them is near.
      have hinner : nearest enums written scope ≠ [] → ¬∀ d ∈ nearest enums written scope,
          ∀ e ∈ nearest enums written scope, d.enumerators = e.enumerators := by
        intro hne hsame
        rw [agreed?_eq_some_iff.mpr ⟨List.head?_eq_some_head hne, hsame⟩] at hagreed
        cases hagreed
      cases hrepeated : repeated? (meant enums written) with
      | some e =>
        obtain ⟨hhead, hsame⟩ := repeated?_eq_some_iff.mp hrepeated
        have hne := List.ne_nil_of_mem (List.mem_of_head? hhead)
        have hnone : nearest enums written scope = [] := by
          by_contra hnear
          exact hinner hnear fun d hd e he =>
            (hsame d (mem_nearest_iff.mp hd).1 e (mem_nearest_iff.mp he).1).2
        exact .inr (.inl ⟨.repeated hne hsame, e, by rw [closest, if_pos hnone, hhead], rfl⟩)
      | none =>
        refine .inr (.inr ⟨hnotNil, fun hsettled => ?_, rfl⟩)
        cases hsettled with
        | only hone =>
          obtain ⟨only, hmeant⟩ := List.length_eq_one_iff.mp hone
          exact hnotOne only hmeant
        | inner hne hsame => exact hinner hne hsame
        | repeated hne hsame =>
          rw [repeated?_eq_some_iff.mpr ⟨List.head?_eq_some_head hne, hsame⟩] at hrepeated
          cases hrepeated

/-- **Nothing is found exactly if nothing is meant.** -/
theorem resolve_eq_notFound_iff (scope : List String) :
    resolve enums written scope = .notFound ↔ meant enums written = [] := by
  rcases resolve_cases hnames hwritten scope with ⟨hnil, hans⟩ | ⟨hsettled, e, -, hans⟩ |
    ⟨hne, -, hans⟩
  · simp [hans, hnil]
  · simp [hans, hsettled.meant_ne_nil]
  · simp [hans, hne]

/-- **An enumeration is found exactly if the choice is settled**, and it is the first of the
closest. -/
theorem resolve_eq_found_iff (scope : List String) {e : Enumeration} :
    resolve enums written scope = .found e ↔
      Settled (meant enums written) (nearest enums written scope) ∧
        (closest (meant enums written) (nearest enums written scope)).head? = some e := by
  rcases resolve_cases hnames hwritten scope with ⟨hnil, hans⟩ | ⟨hsettled, d, hhead, hans⟩ |
    ⟨-, hopen, hans⟩
  · have hopen : ¬Settled (meant enums written) (nearest enums written scope) := fun hsettled =>
      hsettled.meant_ne_nil hnil
    simp [hans, hopen]
  · simp [hans, hsettled, hhead]
  · simp [hans, hopen]

/-- **A name is ambiguous exactly if several enumerations are meant and the choice is not
settled.** -/
theorem resolve_eq_ambiguous_iff (scope : List String) {names : List String} :
    resolve enums written scope = .ambiguous names ↔
      meant enums written ≠ [] ∧ ¬Settled (meant enums written) (nearest enums written scope) ∧
        names = (meant enums written).map (·.qualifiedName) := by
  rcases resolve_cases hnames hwritten scope with ⟨hnil, hans⟩ | ⟨hsettled, d, -, hans⟩ |
    ⟨hne, hopen, hans⟩
  · simp [hans, hnil]
  · simp [hans, hsettled]
  · simp [hans, hne, hopen, eq_comm]

end Registry

/-- **Two answers say the same**: the same enum, by its segments and enumerators, or the same names
in some order. -/
inductive Resolution.Alike : Resolution → Resolution → Prop
  | found {d e : Enumeration} : d.segments = e.segments → d.enumerators = e.enumerators →
      Alike (.found d) (.found e)
  | notFound : Alike .notFound .notFound
  | ambiguous {names names' : List String} : names.Perm names' →
      Alike (.ambiguous names) (.ambiguous names')

open Registry

/-- Declarations in another order resolve a name alike. -/
theorem Registry.alike_of_perm {enums other : List Enumeration}
    (hnames : ∀ e ∈ enums, e.WellNamed) {written : String} (hwritten : segments written ≠ [])
    (scope : List String) (h : enums.Perm other) :
    (resolve enums written scope).Alike (resolve other written scope) := by
  have hmeant := perm_meant h written
  have hnear := perm_nearest h written scope
  have hother : ∀ e ∈ other, e.WellNamed := fun e he => hnames e (h.mem_iff.mpr he)
  rcases resolve_cases hnames hwritten scope with ⟨hnil, hans⟩ | ⟨hsettled, d, hhead, hans⟩ |
    ⟨hne, hopen, hans⟩
  · rw [hans, (resolve_eq_notFound_iff hother hwritten scope).mpr (hnil ▸ hmeant).symm.eq_nil]
    exact .notFound
  · have hclosest := perm_closest hmeant hnear
    have hd := List.mem_of_head? hhead
    obtain ⟨e, hhead'⟩ : ∃ e, (closest (meant other written)
        (nearest other written scope)).head? = some e :=
      ⟨_, List.head?_eq_some_head (List.ne_nil_of_mem (hclosest.mem_iff.mp hd))⟩
    have he := hclosest.mem_iff.mpr (List.mem_of_head? hhead')
    rw [hans, (resolve_eq_found_iff hother hwritten scope).mpr
      ⟨hsettled.congr hmeant hnear, hhead'⟩]
    exact .found (hsettled.agree hd he).1 (hsettled.agree hd he).2
  · have hopen' : ¬Settled (meant other written) (nearest other written scope) := fun hsettled =>
      hopen (hsettled.congr hmeant.symm hnear.symm)
    rw [hans, (resolve_eq_ambiguous_iff hother hwritten scope).mpr
      ⟨fun hnil => hne (hnil ▸ hmeant).eq_nil, hopen', rfl⟩]
    exact .ambiguous (hmeant.map _)

/-- **Resolution never guesses, and the order of declaration does not matter.**  Nothing is found
exactly if nothing may be meant; an enum is found exactly if what may be meant and what is nearest
leave one, and it is the first of the closest; else all that may be meant are named. -/
theorem resolution_never_guesses {enums : List Enumeration} (hnames : ∀ e ∈ enums, e.WellNamed)
    {written : String} (hwritten : segments written ≠ []) (scope : List String) :
    (resolve enums written scope = .notFound ↔ meant enums written = []) ∧
    (∀ e, resolve enums written scope = .found e ↔
      Settled (meant enums written) (nearest enums written scope) ∧
        (closest (meant enums written) (nearest enums written scope)).head? = some e) ∧
    (∀ names, resolve enums written scope = .ambiguous names ↔
      meant enums written ≠ [] ∧ ¬Settled (meant enums written) (nearest enums written scope) ∧
        names = (meant enums written).map (·.qualifiedName)) ∧
    ∀ other, enums.Perm other →
      (resolve enums written scope).Alike (resolve other written scope) :=
  ⟨resolve_eq_notFound_iff hnames hwritten scope,
    fun _ => resolve_eq_found_iff hnames hwritten scope,
    fun _ => resolve_eq_ambiguous_iff hnames hwritten scope,
    fun _ => alike_of_perm hnames hwritten scope⟩

/-- Three enums with one last segment, the second named in two: from inside `a::W` it is nearest, in
either order of declaration. -/
theorem resolution_never_guesses_shadowed :
    ∃ enums : List Enumeration, (∀ e ∈ enums, e.WellNamed) ∧ segments "K" ≠ [] ∧
      (meant enums "K").map (·.qualifiedName) = ["K", "a::W::K", "c::K"] ∧
      (nearest enums "K" ["a", "W", "f"]).map (·.qualifiedName) = ["a::W::K"] ∧
      (∃ e, resolve enums "K" ["a", "W", "f"] = .found e ∧ e.enumerators = ["B"]) ∧
      (resolve enums "K" ["a", "W", "f"]).Alike (resolve enums.reverse "K" ["a", "W", "f"]) := by
  have hnames : ∀ e ∈ [Enumeration.mk "K" [] ["A"] false 0, ⟨"W::K", ["a"], ["B"], false, 1⟩,
      ⟨"K", ["c"], ["C"], false, 2⟩], e.WellNamed := by
    simp only [List.forall_mem_cons]
    exact ⟨⟨["K"], by decide, by decide, by decide⟩, ⟨["W", "K"], by decide, by decide, by decide⟩,
      ⟨["K"], by decide, by decide, by decide⟩, by simp⟩
  have hwritten : segments "K" ≠ [] := by decide
  obtain ⟨-, hfound, -, halike⟩ := resolution_never_guesses hnames hwritten ["a", "W", "f"]
  refine ⟨_, hnames, hwritten, by decide +kernel, by decide +kernel, ?_,
    halike _ (List.reverse_perm _).symm⟩
  exact ⟨_, (hfound ⟨"W::K", ["a"], ["B"], false, 1⟩).mpr
    ⟨.inner (by decide +kernel) (by decide +kernel), by decide +kernel⟩, rfl⟩

/-- Nothing is nearest, and the two enums differ. -/
example : resolve [⟨"K", ["a"], ["B"], false, 0⟩, ⟨"K", ["c"], ["C"], false, 1⟩] "K" ["b"] =
    .ambiguous ["a::K", "c::K"] := by decide +kernel

end Quell
