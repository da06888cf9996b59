import Mathlib.Data.List.Chain
import Mathlib.Tactic.Common
import Quell.Proofs.Chunk

/-!
# Proofs/Operators — marks against the operators of C++

C++ cuts a run of marks greedily into operators, of which the lexer knows `->`, `::` and `...` only.
Both cuts go from left to right and look at what is left (`chop`), so they are compared step by step
(`exists_step`): each operator is made of whole marks, except that the lexer reads the `--` of `-->`
as `-` and an arrow.
-/

namespace Quell

/-! ## Cutting from left to right -/

/-- Cuts bytes from left to right: `more` says how many bytes belong to the piece that a byte
starts.  Every piece takes a byte, so the length of the bytes bounds their number. -/
def chopFrom (more : UInt8 → Bytes → Nat) : (fuel : Nat) → Bytes → List Bytes
  | fuel + 1, b :: rest =>
    (b :: rest.take (more b rest)) :: chopFrom more fuel (rest.drop (more b rest))
  | _, _ => []

/-- Bytes cut from left to right. -/
def chop (more : UInt8 → Bytes → Nat) (bytes : Bytes) : List Bytes :=
  chopFrom more bytes.length bytes

section

variable {more : UInt8 → Bytes → Nat}

/-- Enough fuel is enough. -/
theorem chopFrom_eq_chop {fuel : Nat} {bytes : Bytes} (h : bytes.length ≤ fuel) :
    chopFrom more fuel bytes = chop more bytes := by
  induction fuel using Nat.strongRecOn generalizing bytes with
  | _ fuel ih =>
    rcases bytes with _ | ⟨b, rest⟩
    · cases fuel <;> rfl
    · obtain ⟨fuel, rfl⟩ : ∃ n, fuel = n + 1 := ⟨fuel - 1, by simp at h; omega⟩
      rw [List.length_cons] at h
      have hdrop : (rest.drop (more b rest)).length ≤ rest.length := by
        rw [List.length_drop]
        omega
      rw [chop, List.length_cons, chopFrom, chopFrom, ih fuel (by omega) (by omega)]
      rcases Nat.lt_or_ge rest.length (fuel + 1) with hlt | hge
      · rw [ih rest.length hlt hdrop]
      · omega

theorem chop_nil : chop more [] = [] := rfl

/-- The first piece is as long as its first byte and the rest say. -/
theorem chop_cons (b : UInt8) (rest : Bytes) : chop more (b :: rest) =
    (b :: rest.take (more b rest)) :: chop more (rest.drop (more b rest)) := by
  rw [chop, List.length_cons, chopFrom, chopFrom_eq_chop]
  rw [List.length_drop]
  omega

/-- The piece in front is cut off by itself. -/
theorem chop_append {b : UInt8} {x w : Bytes} (h : more b (x ++ w) = x.length) :
    chop more (b :: (x ++ w)) = (b :: x) :: chop more w := by
  rw [chop_cons, h, List.take_left, List.drop_left]

theorem ne_nil_of_mem_chop {bytes p : Bytes} (h : p ∈ chop more bytes) : p ≠ [] := by
  induction hn : bytes.length using Nat.strongRecOn generalizing bytes with
  | _ n ih =>
    rcases bytes with _ | ⟨b, rest⟩
    · cases h
    · rw [chop_cons] at h
      rcases List.mem_cons.mp h with rfl | h
      · exact List.cons_ne_nil _ _
      · refine ih _ ?_ h rfl
        rw [← hn, List.length_drop, List.length_cons]
        omega

/-- The first piece starts as the bytes do. -/
theorem head_chop {bytes p : Bytes} {pieces : List Bytes} (h : chop more bytes = p :: pieces) :
    p.head? = bytes.head? := by
  rcases bytes with _ | ⟨b, rest⟩
  · cases h
  · rw [chop_cons] at h
    rw [← (List.cons.inj h).1]
    rfl

end

/-! ## Marks and operators -/

/-- The marks that the lexer cuts bytes into, if it reads marks only. -/
def marksOf (bytes : Bytes) : List Bytes :=
  chop (fun b rest => (Lexer.punctuationExtent b rest).more) bytes

/-- The operators of C++ that are built from `-`, `>`, `:`, `.` and `*`, longer ones first. -/
def operators : List Bytes := ["->*", "->", "--", ">>", "::", "...", ".*"].map utf8

/-- How many bytes belong to the longest operator that a byte starts; none if it starts none. -/
def operatorMore (b : UInt8) (rest : Bytes) : Nat :=
  ((operators.find? (·.isPrefixOf (b :: rest))).map (·.length - 1)).getD 0

/-- **The operators that C++ cuts bytes into.** -/
def operatorsOf (bytes : Bytes) : List Bytes := chop operatorMore bytes

/-- Each piece is some of the texts put together, in order, and no text is left. -/
inductive Refines : (texts pieces : List Bytes) → Prop
  | nil : Refines [] []
  | cons {group rest pieces : List Bytes} : Refines rest pieces →
      Refines (group ++ rest) (group.flatten :: pieces)

/-- No decrement stands right before an operator that starts with `>`. -/
def KeepsDecrements (pieces : List Bytes) : Prop :=
  pieces.IsChain fun p q => ¬(p = utf8 "--" ∧ q.head? = (utf8 ">").head?)

instance (pieces : List Bytes) : Decidable (KeepsDecrements pieces) :=
  inferInstanceAs (Decidable (List.IsChain _ _))

/-- Every arrow among the texts starts an operator that is an arrow, `->` or `->*`. -/
def ArrowsRead (texts pieces : List Bytes) : Prop :=
  ∀ before after, texts = before ++ utf8 "->" :: after →
    ∃ front piece back, pieces = front ++ piece :: back ∧ front.flatten = before.flatten ∧
      (piece = utf8 "->" ∨ piece = utf8 "->*")

/-- The marks of more than one byte are `...`, `::` and `->`. -/
theorem more_punctuationExtent (b : UInt8) (rest : Bytes) :
    (Lexer.punctuationExtent b rest).more =
      if [46, 46, 46].isPrefixOf (b :: rest) then 2
      else if [58, 58].isPrefixOf (b :: rest) || [45, 62].isPrefixOf (b :: rest) then 1 else 0 := by
  rw [Lexer.punctuationExtent, show utf8 "..." = [46, 46, 46] by decide,
    show utf8 "::" = [58, 58] by decide, show utf8 "->" = [45, 62] by decide]
  split_ifs <;> rfl

/-! ## Step by step -/

/-- A mark that is no part of a longer one. -/
theorem marksOf_lone {b : UInt8} {w : Bytes} (hdots : [46, 46, 46].isPrefixOf (b :: w) = false)
    (hcolons : [58, 58].isPrefixOf (b :: w) = false)
    (harrow : [45, 62].isPrefixOf (b :: w) = false) :
    marksOf (b :: w) = [b] :: marksOf w := by
  refine chop_append (x := []) ?_
  rw [List.nil_append, more_punctuationExtent, hdots, hcolons, harrow]
  rfl

theorem marksOf_arrow (w : Bytes) : marksOf (45 :: 62 :: w) = [45, 62] :: marksOf w :=
  chop_append (x := [62]) (by rw [more_punctuationExtent]; rfl)

/-- The operator found first is cut off. -/
theorem operatorsOf_of_find {b : UInt8} {x w : Bytes}
    (h : operators.find? (·.isPrefixOf (b :: (x ++ w))) = some (b :: x)) :
    operatorsOf (b :: (x ++ w)) = (b :: x) :: operatorsOf w := by
  refine chop_append ?_
  rw [operatorMore, h]
  rfl

/-- The marks put together are the operator, and an arrow among them is what it starts with. -/
def Assembles (marks : List Bytes) (p : Bytes) : Prop :=
  marks.flatten = p ∧ (∀ text ∈ marks.tail, text ≠ utf8 "->") ∧
    (marks.head? = some (utf8 "->") → p = utf8 "->" ∨ p = utf8 "->*")

instance (marks : List Bytes) (p : Bytes) : Decidable (Assembles marks p) :=
  inferInstanceAs (Decidable (_ ∧ _ ∧ _))

/-- **One step of both cuts.**  Either an operator is made of whole marks, or it is a decrement
before `>`, of which the lexer reads the second half as an arrow. -/
inductive Step : Bytes → Prop
  | whole {p w : Bytes} (marks : List Bytes) : p ≠ [] → Assembles marks p →
      operatorsOf (p ++ w) = p :: operatorsOf w → marksOf (p ++ w) = marks ++ marksOf w →
      (p = utf8 "--" → w.head? ≠ (utf8 ">").head?) → Step (p ++ w)
  | decrement {w : Bytes} : operatorsOf (45 :: 45 :: 62 :: w) = [45, 45] :: operatorsOf (62 :: w) →
      marksOf (45 :: 45 :: 62 :: w) = [45] :: [45, 62] :: marksOf w → Step (45 :: 45 :: 62 :: w)

/-- Where no operator fits, both cut off one byte. -/
theorem exists_step_none {b : UInt8} {rest : Bytes}
    (h : ∀ p ∈ operators, p.isPrefixOf (b :: rest) = false) : Step (b :: rest) := by
  have hlone : ∀ p : Bytes, p.length ≠ 1 → [b] ≠ p := fun p hp heq => hp (heq ▸ rfl)
  have hoperators : operatorsOf (b :: rest) = [b] :: operatorsOf rest := by
    refine chop_append (x := []) ?_
    rw [operatorMore, List.nil_append,
      List.find?_eq_none.mpr fun p hp => Bool.eq_false_iff.mp (h p hp)]
    rfl
  have hassembles : Assembles [[b]] [b] :=
    ⟨rfl, by simp, fun harrow => absurd (Option.some.inj harrow) (hlone _ (by decide))⟩
  exact .whole _ (List.cons_ne_nil _ _) hassembles hoperators
    (marksOf_lone (h [46, 46, 46] (by decide)) (h [58, 58] (by decide)) (h [45, 62] (by decide)))
    fun heq => absurd heq (hlone _ (by decide))

/-- A decrement is one by whole marks unless `>` follows it. -/
theorem exists_step_decrement {w : Bytes}
    (h : operatorsOf (45 :: 45 :: w) = [45, 45] :: operatorsOf w) : Step (45 :: 45 :: w) := by
  by_cases harrow : [45, 62].isPrefixOf (45 :: w) = true
  · obtain ⟨v, hv⟩ := List.isPrefixOf_iff_prefix.mp harrow
    obtain rfl : w = 62 :: v := (List.cons.inj hv).2.symm
    refine .decrement h ?_
    rw [← marksOf_arrow]
    exact marksOf_lone rfl rfl rfl
  · rw [Bool.not_eq_true] at harrow
    have hmarks : marksOf (45 :: 45 :: w) = [45] :: [45] :: marksOf w := by
      rw [marksOf_lone rfl rfl rfl, marksOf_lone rfl rfl harrow]
    refine .whole (p := [45, 45]) [[45], [45]] (by decide) (by decide) h hmarks
      fun _ hgreater => ?_
    obtain ⟨v, rfl⟩ := List.head?_eq_some_iff.mp hgreater
    cases harrow

/-- **Of every text both cuts take one step.** -/
theorem exists_step (b : UInt8) (rest : Bytes) : Step (b :: rest) := by
  cases hfind : operators.find? (·.isPrefixOf (b :: rest)) with
  | none =>
    exact exists_step_none fun p hp => Bool.eq_false_iff.mpr (List.find?_eq_none.mp hfind p hp)
  | some p =>
    have hprefix : p.isPrefixOf (b :: rest) = true :=
      List.find?_some (p := fun q : Bytes => q.isPrefixOf (b :: rest)) hfind
    obtain ⟨w, hw⟩ := List.isPrefixOf_iff_prefix.mp hprefix
    have hmem := List.mem_of_find?_eq_some hfind
    rw [show operators = [[45, 62, 42], [45, 62], [45, 45], [62, 62], [58, 58], [46, 46, 46],
      [46, 42]] by decide] at hmem
    rw [← hw] at hfind ⊢
    have hstep : ∀ {c : UInt8} {x : Bytes} (marks : List Bytes),
        operators.find? (·.isPrefixOf (c :: (x ++ w))) = some (c :: x) →
        Assembles marks (c :: x) → c :: x ≠ utf8 "--" →
        marksOf (c :: (x ++ w)) = marks ++ marksOf w → Step (c :: (x ++ w)) :=
      fun _ hfind hassembles hne hmarks => .whole _ (List.cons_ne_nil _ _) hassembles
        (operatorsOf_of_find hfind) hmarks fun heq => absurd heq hne
    simp only [List.mem_cons, List.not_mem_nil, or_false] at hmem
    rcases hmem with rfl | rfl | rfl | rfl | rfl | rfl | rfl
    · refine hstep [[45, 62], [42]] hfind (by decide) (by decide) ?_
      exact (marksOf_arrow _).trans (congrArg _ (marksOf_lone rfl rfl rfl))
    · exact hstep [[45, 62]] hfind (by decide) (by decide) (marksOf_arrow w)
    · exact exists_step_decrement (operatorsOf_of_find hfind)
    · refine hstep [[62], [62]] hfind (by decide) (by decide) ?_
      exact (marksOf_lone rfl rfl rfl).trans (congrArg _ (marksOf_lone rfl rfl rfl))
    · refine hstep [[58, 58]] hfind (by decide) (by decide) ?_
      exact chop_append (by rw [more_punctuationExtent]; rfl)
    · refine hstep [[46, 46, 46]] hfind (by decide) (by decide) ?_
      exact chop_append (by rw [more_punctuationExtent]; rfl)
    · refine hstep [[46], [42]] hfind (by decide) (by decide) ?_
      exact (marksOf_lone rfl rfl rfl).trans (congrArg _ (marksOf_lone rfl rfl rfl))

/-- Both cuts at once, step by step. -/
@[elab_as_elim]
theorem step_induction {motive : Bytes → Prop} (nil : motive [])
    (whole : ∀ (p w : Bytes) (marks : List Bytes), p ≠ [] → Assembles marks p →
      operatorsOf (p ++ w) = p :: operatorsOf w → marksOf (p ++ w) = marks ++ marksOf w →
      (p = utf8 "--" → w.head? ≠ (utf8 ">").head?) → motive w → motive (p ++ w))
    (decrement : ∀ w : Bytes,
      operatorsOf (45 :: 45 :: 62 :: w) = [45, 45] :: operatorsOf (62 :: w) →
      marksOf (45 :: 45 :: 62 :: w) = [45] :: [45, 62] :: marksOf w →
      motive (45 :: 45 :: 62 :: w)) (bytes : Bytes) : motive bytes := by
  induction hn : bytes.length using Nat.strongRecOn generalizing bytes with
  | _ n ih =>
    rcases bytes with _ | ⟨b, rest⟩
    · exact nil
    · generalize hbytes : b :: rest = bytes at hn
      have hstep := hbytes ▸ exists_step b rest
      clear hbytes
      cases hstep with
      | @whole p w marks hne hassembles hoperators hmarks happart =>
        refine whole p w marks hne hassembles hoperators hmarks happart (ih _ ?_ w rfl)
        have := List.length_pos_iff.mpr hne
        rw [← hn, List.length_append]
        omega
      | decrement hoperators hmarks => exact decrement _ hoperators hmarks

/-! ## The whole cut -/

/-- The first piece is made of the first group of texts. -/
theorem Refines.of_cons {texts pieces : List Bytes} {p : Bytes} (h : Refines texts (p :: pieces)) :
    ∃ group rest, texts = group ++ rest ∧ group.flatten = p ∧ Refines rest pieces := by
  cases h with
  | cons hrest => exact ⟨_, _, rfl, rfl, hrest⟩

/-- Nonempty texts are put together to the same bytes in one way only. -/
theorem append_inj_of_flatten {u u' w w' : List Bytes} (h : u ++ w = u' ++ w')
    (hne : ∀ text ∈ u ++ w, text ≠ []) (hflatten : u.flatten = u'.flatten) : u = u' ∧ w = w' := by
  have hnil : ∀ c : List Bytes, (∀ text ∈ c, text ≠ []) → c.flatten = [] → c = [] := by
    intro c hc hflat
    rcases c with _ | ⟨text, c⟩
    · rfl
    · exact absurd (List.append_eq_nil_iff.mp hflat).1 (hc text List.mem_cons_self)
  rcases List.append_eq_append_iff.mp h with ⟨c, rfl, rfl⟩ | ⟨c, rfl, rfl⟩
  · rw [List.flatten_append, List.self_eq_append_right] at hflatten
    obtain rfl := hnil c (fun text hmem => hne text (by simp [hmem])) hflatten
    simp
  · rw [List.flatten_append, eq_comm, List.self_eq_append_right] at hflatten
    obtain rfl := hnil c (fun text hmem => hne text (by simp [hmem])) hflatten
    simp

/-- A piece that is not `--` right before `>` keeps the decrements kept. -/
theorem keepsDecrements_cons {p w : Bytes} (h : p = utf8 "--" → w.head? ≠ (utf8 ">").head?) :
    KeepsDecrements (p :: operatorsOf w) ↔ KeepsDecrements (operatorsOf w) := by
  rw [KeepsDecrements, KeepsDecrements]
  rcases hpieces : operatorsOf w with _ | ⟨q, pieces⟩
  · simp
  · rw [List.isChain_cons_cons, and_iff_right_iff_imp, head_chop hpieces]
    rintro - ⟨hp, hq⟩
    exact h hp hq

theorem not_keepsDecrements (w : Bytes) :
    ¬KeepsDecrements ([45, 45] :: operatorsOf (62 :: w)) := by
  rw [KeepsDecrements]
  rcases hpieces : operatorsOf (62 :: w) with _ | ⟨q, pieces⟩
  · rw [operatorsOf, chop_cons] at hpieces
    cases hpieces
  · rw [List.isChain_cons_cons, head_chop hpieces]
    exact fun h => h.1 ⟨by decide, by rfl⟩

/-- **Operators are made of whole marks exactly where decrements stand apart from `>`.** -/
theorem refines_iff (bytes : Bytes) :
    Refines (marksOf bytes) (operatorsOf bytes) ↔ KeepsDecrements (operatorsOf bytes) := by
  induction bytes using step_induction with
  | nil => exact iff_of_true .nil .nil
  | whole p w marks _ hassembles hoperators hmarks happart ih =>
    rw [hoperators, hmarks, keepsDecrements_cons happart, ← ih]
    refine ⟨fun h => ?_, fun h => hassembles.1 ▸ .cons h⟩
    obtain ⟨group, rest, htexts, hgroup, hrest⟩ := h.of_cons
    obtain ⟨-, rfl⟩ := append_inj_of_flatten htexts
      (fun text hmem => ne_nil_of_mem_chop (hmarks ▸ hmem)) (hassembles.1.trans hgroup.symm)
    exact hrest
  | decrement w hoperators hmarks =>
    rw [hoperators, hmarks]
    refine iff_of_false (fun h => ?_) (not_keepsDecrements w)
    -- The first mark is too short to be the decrement, and the first two are too long.
    obtain ⟨group, rest, htexts, hgroup, -⟩ := h.of_cons
    rcases group with _ | ⟨first, _ | ⟨second, group⟩⟩
    · cases hgroup
    · cases htexts
      cases hgroup
    · simp only [List.cons_append, List.cons.injEq] at htexts
      obtain ⟨rfl, rfl, -⟩ := htexts
      cases hgroup

/-- **Arrows are read as such exactly where decrements stand apart from `>`.** -/
theorem arrowsRead_iff (bytes : Bytes) :
    ArrowsRead (marksOf bytes) (operatorsOf bytes) ↔ KeepsDecrements (operatorsOf bytes) := by
  induction bytes using step_induction with
  | nil => exact iff_of_true (fun before after h => by simp [marksOf, chop_nil] at h) .nil
  | whole p w marks hne hassembles hoperators hmarks happart ih =>
    rw [hoperators, hmarks, keepsDecrements_cons happart, ← ih]
    constructor
    · intro h before after htexts
      obtain ⟨front, piece, back, hpieces, hfront, hpiece⟩ :=
        h (marks ++ before) after (by rw [htexts, List.append_assoc])
      rw [List.flatten_append, hassembles.1] at hfront
      rcases front with _ | ⟨q, front⟩
      · exact absurd (List.append_eq_nil_iff.mp hfront.symm).1 hne
      · rw [List.cons_append, List.cons.injEq] at hpieces
        obtain ⟨rfl, hpieces⟩ := hpieces
        exact ⟨front, piece, back, hpieces, List.append_cancel_left hfront, hpiece⟩
    · intro h before after htexts
      have hlater : ∀ c, before = marks ++ c → marksOf w = c ++ utf8 "->" :: after →
          ∃ front piece back, p :: operatorsOf w = front ++ piece :: back ∧
            front.flatten = before.flatten ∧ (piece = utf8 "->" ∨ piece = utf8 "->*") := by
        rintro c rfl hc
        obtain ⟨front, piece, back, hpieces, hfront, hpiece⟩ := h c after hc
        refine ⟨p :: front, piece, back, by rw [hpieces, List.cons_append], ?_, hpiece⟩
        rw [List.flatten_cons, List.flatten_append, hassembles.1, hfront]
      rcases List.append_eq_append_iff.mp htexts with ⟨c, hbefore, hc⟩ | ⟨c, hc, hafter⟩
      · exact hlater c hbefore hc
      · rcases c with _ | ⟨arrow, c⟩
        · exact hlater [] (by simpa using hc.symm) hafter.symm
        · -- The arrow is among the marks of the operator in front, so it starts it.
          obtain ⟨rfl, -⟩ := List.cons.inj hafter
          rcases before with _ | ⟨text, before⟩
          · exact ⟨[], p, operatorsOf w, rfl, rfl, hassembles.2.2 (by rw [hc]; rfl)⟩
          · exact absurd rfl (hassembles.2.1 (utf8 "->") (by rw [hc]; simp))
  | decrement w hoperators hmarks =>
    rw [hoperators, hmarks]
    refine iff_of_false (fun h => ?_) (not_keepsDecrements w)
    obtain ⟨front, piece, back, hpieces, hfront, -⟩ := h [[45]] (marksOf w) (by rfl)
    rcases front with _ | ⟨q, front⟩
    · cases hfront
    · obtain ⟨rfl, -⟩ := List.cons.inj hpieces
      cases hfront

/-! ## Runs of marks -/

/-- Marks that stand next to each other. -/
structure MarkRun (run : List Token) : Prop where
  marks : ∀ t ∈ run, t.kind = .punctuation
  touching : run.IsChain fun t u => t.stop = u.start

theorem MarkRun.tail {t : Token} {run : List Token} (h : MarkRun (t :: run)) : MarkRun run :=
  ⟨fun u hu => h.marks u (List.mem_cons_of_mem t hu), h.touching.tail⟩

/-- The next mark starts where the first one stops. -/
theorem MarkRun.start_eq {t u : Token} {run : List Token} (h : MarkRun (t :: run))
    (hu : u ∈ run.head?) : u.start = t.stop :=
  ((List.isChain_cons.mp h.touching).1 u hu).symm

namespace Lexer

/-- Punctuation is read by its own scanner. -/
theorem punctuationExtent_of_scan {fresh : Bool} {b : UInt8} {x v : Bytes}
    (h : scan fresh b (x ++ v) = .ok ⟨.punctuation, x.length⟩) :
    (punctuationExtent b (x ++ v)).more = x.length := by
  rcases hhash : b == Byte.hash && fresh with _ | _
  · rw [scan_plain hhash] at h
    split_ifs at h with hcomment _ _ hname
    · obtain ⟨result, hresult⟩ := Option.isSome_iff_exists.mp (Bool.and_eq_true_iff.mp hcomment).2
      rw [hresult, Option.getD_some] at h
      rw [h] at hresult
      cases (commentExtent?_eq_ok_iff.mp hresult).1
    · obtain ⟨n, -, hkind, -⟩ := literalExtent_eq_ok_iff.mp h
      cases hkind
    · cases h
    · obtain ⟨y, r, hyr, hy⟩ := exists_nameWidth (x ++ v)
      rw [hyr, wordExtent_append hy] at h
      split at h
      · obtain ⟨n, -, hkind, -⟩ := literalExtent_eq_ok_iff.mp h
        cases hkind
      · rw [Except.ok.injEq, Extent.mk.injEq, Kind.ofWord] at h
        split_ifs at h <;> cases h.1
    · rw [Except.ok.inj h]
  · obtain ⟨rfl, rfl⟩ : b = Byte.hash ∧ fresh = true := by simpa using hhash
    rw [scan_directive] at h
    split at h <;> cases h

/-- A mark is read as the same mark if fewer bytes follow it. -/
theorem more_punctuationExtent_take {b : UInt8} {x u v : Bytes}
    (h : (punctuationExtent b (x ++ (u ++ v))).more = x.length) :
    (punctuationExtent b (x ++ u)).more = x.length := by
  have hmore : ∀ {p : Bytes}, p.isPrefixOf (b :: (x ++ u)) = true →
      p.isPrefixOf (b :: (x ++ (u ++ v))) = true := by
    intro p hp
    rw [List.isPrefixOf_iff_prefix] at hp ⊢
    rw [← List.append_assoc, ← List.cons_append]
    exact hp.trans (List.prefix_append _ _)
  have hsame : ∀ {p : Bytes}, p.isPrefixOf (b :: (x ++ (u ++ v))) = true →
      p.length = x.length + 1 → p.isPrefixOf (b :: (x ++ u)) = true := by
    intro p hp hlen
    rw [List.isPrefixOf_iff_prefix] at hp ⊢
    refine List.prefix_of_prefix_length_le hp ?_ (by simp; omega)
    rw [← List.append_assoc, ← List.cons_append]
    exact List.prefix_append _ _
  rw [more_punctuationExtent] at h ⊢
  by_cases hdots : [46, 46, 46].isPrefixOf (b :: (x ++ (u ++ v))) = true
  · rw [if_pos hdots] at h
    rw [if_pos (hsame hdots (by rw [← h]; rfl)), h]
  · rw [if_neg hdots] at h
    rw [if_neg fun hp => hdots (hmore hp)]
    split_ifs at h with hpair
    · rw [Bool.or_eq_true] at hpair
      have hlen : ([58, 58] : Bytes).length = x.length + 1 ∧
          ([45, 62] : Bytes).length = x.length + 1 := by
        rw [← h]
        exact ⟨rfl, rfl⟩
      rw [if_pos (Bool.or_eq_true_iff.mpr
        (hpair.imp (fun hp => hsame hp hlen.1) fun hp => hsame hp hlen.2)), h]
    · rw [if_neg fun hp => hpair (Bool.or_eq_true_iff.mpr
        ((Bool.or_eq_true_iff.mp hp).imp hmore hmore)), h]

/-- **Marks next to each other are the marks of their bytes.** -/
theorem Lexes.marksOf_run {start : Nat} {fresh fresh' : Bool} {w v : Bytes} {run back : List Token}
    (h : Lexes start fresh w v (run ++ back) fresh') (hrun : MarkRun run)
    (hfirst : ∀ t ∈ run.head?, t.start = start) :
    (∃ rest, w = (run.map (·.text)).flatten ++ rest) ∧
      marksOf (run.map (·.text)).flatten = run.map (·.text) := by
  generalize htokens : run ++ back = tokens at h
  induction h generalizing run with
  | nil =>
    obtain ⟨rfl, -⟩ := List.append_eq_nil_iff.mp htokens
    exact ⟨⟨[], rfl⟩, rfl⟩
  | @gap start _ _ _ g w v tokens _ htail ih =>
    rcases run with _ | ⟨t, run⟩
    · exact ⟨⟨_, rfl⟩, rfl⟩
    · -- The first mark stands where the stretch starts, so nothing is skipped.
      have hstart := hfirst t rfl
      have hbounds := (htail.bounds (show t ∈ tokens by rw [← htokens]; simp)).1
      obtain rfl : g = [] := List.length_eq_zero_iff.mp (by omega)
      exact ih hrun hfirst htokens
  | @token start fresh _ b x w v kind tokens _ hscan htail ih =>
    rcases run with _ | ⟨t, run⟩
    · exact ⟨⟨_, rfl⟩, rfl⟩
    · obtain ⟨rfl, rfl⟩ := List.cons.inj htokens
      have hnext : ∀ u ∈ run.head?, u.start = start + 1 + x.length := by
        intro u hu
        rw [hrun.start_eq hu, Token.stop, List.length_cons, Nat.add_right_comm, Nat.add_assoc]
      obtain ⟨⟨rest, rfl⟩, hmarks⟩ := ih hrun.tail hnext rfl
      obtain rfl : kind = .punctuation := hrun.marks _ List.mem_cons_self
      have hmore := punctuationExtent_of_scan hscan
      rw [List.append_assoc] at hmore
      rw [List.map_cons, List.flatten_cons]
      refine ⟨⟨rest, by simp⟩, ?_⟩
      rw [List.cons_append, marksOf, chop_append (more_punctuationExtent_take hmore), ← marksOf,
        hmarks]

end Lexer

/-- The tokens of a buffer from one of them on are read from where it starts. -/
theorem exists_lexes_drop {source : Bytes} {front after : List Token} {t : Token}
    (h : tokenize source = .ok (front ++ t :: after)) :
    ∃ fresh fresh', Lexer.Lexes t.start fresh (source.drop t.start) [] (t :: after) fresh' := by
  obtain ⟨fresh', hlexes⟩ := Lexer.tokenize_eq_ok_iff.mp h
  obtain ⟨a, b, x, c, mid, rfl, ht, -, hgap, hscan, hc⟩ := hlexes.split
  have hstart : t.start = a.length := (congrArg Token.start ht).trans (Nat.zero_add _)
  have htext : t.text = b :: x := congrArg Token.text ht
  have ht' : t = ⟨t.kind, b :: x, t.start⟩ := by rw [← htext]
  refine ⟨mid, fresh', ?_⟩
  rw [hstart, List.drop_left, htext, ← hstart]
  have hstop : t.stop = t.start + 1 + x.length := by
    rw [Token.stop, htext, List.length_cons, Nat.add_right_comm, Nat.add_assoc]
  rw [hstop] at hc
  have hlexes : Lexer.Lexes t.start mid (b :: (x ++ c)) [] (⟨t.kind, b :: x, t.start⟩ :: after)
    fresh' := .token hgap hscan hc
  rwa [← ht'] at hlexes

/-- **Operators are whole marks, and arrows are read as arrows, exactly where no decrement stands
right before `>`.**  For all marks next to each other, as many as there are: their bytes stand in
the buffer where the first of them starts. -/
theorem marks_refine_operators {source : Bytes} {tokens front run back : List Token}
    {texts : List Bytes} (h : tokenize source = .ok tokens) (hsplit : tokens = front ++ run ++ back)
    (hrun : MarkRun run) (htexts : run.map (·.text) = texts) :
    (∀ t ∈ run.head?, texts.flatten <+: source.drop t.start) ∧
      (Refines texts (operatorsOf texts.flatten) ↔ KeepsDecrements (operatorsOf texts.flatten)) ∧
      (ArrowsRead texts (operatorsOf texts.flatten) ↔
        KeepsDecrements (operatorsOf texts.flatten)) := by
  have hmarks : (∀ t ∈ run.head?, texts.flatten <+: source.drop t.start) ∧
      marksOf texts.flatten = texts := by
    rcases run with _ | ⟨t, run⟩
    · subst htexts
      exact ⟨nofun, rfl⟩
    · rw [hsplit, List.append_assoc, List.cons_append] at h
      obtain ⟨fresh, fresh', hlexes⟩ := exists_lexes_drop h
      rw [← List.cons_append] at hlexes
      obtain ⟨⟨rest, hbytes⟩, hmarks⟩ := hlexes.marksOf_run hrun fun u hu => by cases hu; rfl
      rw [htexts] at hbytes hmarks
      refine ⟨fun u hu => ?_, hmarks⟩
      cases hu
      exact ⟨rest, hbytes.symm⟩
  have hrefines := refines_iff texts.flatten
  have harrows := arrowsRead_iff texts.flatten
  rw [hmarks.2] at hrefines harrows
  exact ⟨hmarks.1, hrefines, harrows⟩

/-- In `p--->q` the decrement is two marks, and the arrow after it is one. -/
theorem decrement_before_arrow :
    let texts := [utf8 "-", utf8 "-", utf8 "->"]
    operatorsOf texts.flatten = [utf8 "--", utf8 "->"] ∧ Refines texts (operatorsOf texts.flatten) ∧
      ArrowsRead texts (operatorsOf texts.flatten) := by
  have hlexed : tokenize (utf8 "p--->q") = .ok ([⟨.identifier, utf8 "p", 0⟩] ++
      [⟨.punctuation, utf8 "-", 1⟩, ⟨.punctuation, utf8 "-", 2⟩, ⟨.punctuation, utf8 "->", 3⟩] ++
        [⟨.identifier, utf8 "q", 5⟩]) := by decide +kernel
  have hrun : MarkRun [⟨.punctuation, utf8 "-", 1⟩, ⟨.punctuation, utf8 "-", 2⟩,
      ⟨.punctuation, utf8 "->", 3⟩] := ⟨by decide, by decide⟩
  have hkeeps : KeepsDecrements (operatorsOf (utf8 "--->")) := by decide
  obtain ⟨-, hrefines, harrows⟩ := marks_refine_operators hlexed rfl hrun rfl
  exact ⟨by decide, hrefines.mpr hkeeps, harrows.mpr hkeeps⟩

/-- **The decrement of `x-->y` is torn apart**: its second half is read as part of an arrow, and an
arrow is no operator here. -/
theorem decrement_torn :
    ∃ front run back texts, tokenize (utf8 "x-->y") = .ok (front ++ run ++ back) ∧ MarkRun run ∧
      run.map (·.text) = texts ∧ texts = [utf8 "-", utf8 "->"] ∧
      operatorsOf texts.flatten = [utf8 "--", utf8 ">"] ∧
      ¬Refines texts (operatorsOf texts.flatten) ∧
      ¬ArrowsRead texts (operatorsOf texts.flatten) := by
  have htorn : ¬KeepsDecrements (operatorsOf (utf8 "-->")) := by decide
  refine ⟨[⟨.identifier, utf8 "x", 0⟩], [⟨.punctuation, utf8 "-", 1⟩, ⟨.punctuation, utf8 "->", 2⟩],
    [⟨.identifier, utf8 "y", 4⟩], _, by decide +kernel, ⟨by decide, by decide⟩, rfl, by decide,
    by decide, fun h => htorn ?_, fun h => htorn ?_⟩
  · exact (refines_iff (utf8 "-->")).mp h
  · exact (arrowsRead_iff (utf8 "-->")).mp h

end Quell
