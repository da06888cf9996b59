import Quell.Region.Pass
import Quell.Proofs.Foresight
import Quell.Proofs.Kinds

/-!
# Proofs/Pass — one pass gives the pairing and the forest

The pass pairs brackets as `Pairing.pairFrom` does (`Pass.map_run`), whatever it does to its tree.
Beside the growing forest, whose regions know their ends and names from the start, its tree is
always `Grown`: a closed region is the same in both, an open one becomes so at its closing brace,
and the children of a region are the regions with that parent.  So a finished pass holds the pairing
and the forest, with the lists that the forest reads off its parents (`Indexed.ofCode_eq`), and an
outline is what the pass leaves (`Outline.ofTokens_eq_pass`).
-/

namespace Quell

open Region

/-! ## A kind before and after its closing brace -/

namespace Region

variable {code : Code} {pairing table : Pairing} {regions regions' : Array Region}
  {parent parent' : Option RegionKind} {n brace closing : Nat}

/-- Only the recognizer of enums makes an enum. -/
theorem otherKind_ne_enumBody (head : EnumHead) :
    otherKind code pairing regions parent brace ≠ .enumBody head := by
  rw [otherKind]
  split
  · rename_i kind hfunction
    obtain ⟨-, -, _, -, rfl⟩ := functionKind?_eq_some hfunction
    exact fun henum => by cases henum
  · split
    · rename_i kind hfound
      obtain ⟨_, -, hhandler⟩ := Option.bind_eq_some_iff.mp hfound
      obtain ⟨-, -, _, -, rfl⟩ := handlerKind?_eq_some hhandler
      exact fun henum => by cases henum
    · intro henum
      rcases blockKind_plain_or_admits
          (code.slice ⟨statementStart code pairing brace brace, brace⟩) with hplain | hadmits
      · rw [henum] at hplain
        cases hplain
      · rw [henum] at hadmits
        cases hadmits

/-- Only an enum is named by what stands behind it. -/
theorem calledBehind_of_ne {kind : RegionKind} (h : ∀ head, kind ≠ .enumBody head)
    (opening closing : Nat) : calledBehind code opening closing kind = kind := by
  cases kind with
  | enumBody head => exact absurd rfl (h head)
  | _ => rfl

/-- **The kind found at a brace, and the name found behind its partner, make the kind.**  At the
brace the table holds the partners so far, and the regions so far need not be closed. -/
theorem calledBehind_classify (h : Agree n code code pairing table) (hbrace : brace < n)
    (hsize : brace ≤ code.size) (hregions : regions.map unnamed = regions'.map unnamed)
    (hparent : parent.map RegionKind.unnamed = parent'.map RegionKind.unnamed)
    (hclosing : pairing.partner brace = some closing) (hopen : table.partner brace = none) :
    calledBehind code brace closing (classify code table regions' parent' brace) =
      classify code pairing regions parent brace := by
  rw [classify_eq_match, classify_eq_match, h.switchGroup?_eq (Nat.le_of_lt hbrace),
    h.otherKind_eq hbrace hsize hsize hregions hparent, enumHead?_eq_stem, enumHead?_eq_stem,
    hclosing, hopen]
  cases switchGroup? code table brace with
  | some opening => rfl
  | none =>
    cases hstem : enumStem? code brace with
    | none => exact calledBehind_of_ne otherKind_ne_enumBody brace closing
    | some stem =>
      obtain ⟨keyword, isScoped, _ | name⟩ := stem
      · obtain ⟨found, hkeyword, hfound⟩ := Option.bind_eq_some_iff.mp hstem
        obtain rfl : found = keyword := by
          dsimp only at hfound
          split_ifs at hfound <;> cases hfound <;> rfl
        have hname : (enumKeyword? code brace).bind (typedefName? code · closing) =
            typedefName? code found closing := by rw [hkeyword, Option.bind_some]
        exact congrArg (fun name => RegionKind.enumBody ⟨name, isScoped⟩) hname
      · rfl

/-- Closing changes nothing that a recognizer asks for. -/
theorem unnamed_close (code : Code) (i : Nat) (t : Token) (r : Region) :
    (r.close code i t).unnamed = r.unnamed := by
  obtain ⟨id, kind, opening, closing, start, stop, parent⟩ := r
  rcases kind with _ | _ | ⟨_ | name, isScoped⟩ <;> rfl

/-- **The region becomes `r` at its closing brace.** -/
def Ends (code : Code) (q r : Region) : Prop :=
  ∃ closer, code[r.closing]? = some closer ∧ q.close code r.closing closer = r

theorem Ends.unnamed_eq {q r : Region} (h : q.Ends code r) : q.unnamed = r.unnamed := by
  obtain ⟨closer, -, hclose⟩ := h
  rw [← hclose, unnamed_close]

end Region

/-! ## The brackets of the pass -/

namespace Pass

variable {code : Code} {pairing : Pairing} {p p' : Pass} {i : Nat} {t : Token}

@[simp] theorem enter_pairing (code : Code) (p : Pass) (i : Nat) (t : Token) :
    (p.enter code i t).pairing = p.pairing := by
  rw [enter]
  split <;> rfl

@[simp] theorem enter_brackets (code : Code) (p : Pass) (i : Nat) (t : Token) :
    (p.enter code i t).brackets = p.brackets := by
  rw [enter]
  split <;> rfl

@[simp] theorem leave_pairing (code : Code) (p : Pass) (i : Nat) (t : Token) :
    (p.leave code i t).pairing = p.pairing := by
  rw [leave]
  split <;> rfl

@[simp] theorem leave_brackets (code : Code) (p : Pass) (i : Nat) (t : Token) :
    (p.leave code i t).brackets = p.brackets := by
  rw [leave]
  split <;> rfl

/-- **What a token does to the brackets**, and to the tree if it is a brace. -/
inductive Steps (code : Code) (p : Pass) (i : Nat) (t : Token) : Pass → Prop
  | opening {shape : Bracket} : t.opening? = some shape →
      Steps code p i t (if shape = .curly then
        { p with brackets := (i, t) :: p.brackets }.enter code i t
        else { p with brackets := (i, t) :: p.brackets })
  | neutral : t.opening? = none → t.closing? = none → Steps code p i t p
  | closing {shape : Bracket} {j : Nat} {opener : Token} {brackets : List (Nat × Token)} :
      t.opening? = none → t.closing? = some shape → p.brackets = (j, opener) :: brackets →
      opener.opening? = some shape →
      Steps code p i t (if shape = .curly then
        { p with pairing := p.pairing.pair j i, brackets }.leave code i t
        else { p with pairing := p.pairing.pair j i, brackets })

/-- A step that does not fail is one of these three. -/
theorem steps_of_step (h : p.step code i t = .ok p') : Steps code p i t p' := by
  rw [step] at h
  split at h
  · rename_i shape hopen
    cases h
    exact .opening hopen
  · rename_i hopen hclose
    cases h
    exact .neutral hopen hclose
  · rename_i shape hopen hclose
    split at h
    · cases h
    · rename_i j opener brackets hbrackets
      split at h
      · rename_i hshape
        cases h
        exact .closing hopen hclose hbrackets (beq_iff_eq.mp hshape)
      · cases h

/-- **The pass pairs brackets as the pairing does**, and fails where it does. -/
theorem map_run (code : Code) (p : Pass) (i : Nat) (tokens : List Token) :
    (run code i p tokens).map (·.pairing) = Pairing.pairFrom i p.brackets p.pairing tokens := by
  induction tokens generalizing p i with
  | nil =>
    rw [run, Pairing.pairFrom.eq_def]
    rcases p.brackets with _ | ⟨⟨j, opener⟩, brackets⟩ <;> rfl
  | cons t rest ih =>
    rw [run, Pairing.pairFrom, step]
    cases hopen : t.opening? with
    | some shape =>
      rw [Option.isSome_some, if_pos rfl]
      dsimp only [Except.bind]
      rw [ih]
      split_ifs
      · rw [enter_brackets, enter_pairing]
      · rfl
    | none =>
      rw [Option.isSome_none, if_neg Bool.false_ne_true]
      cases t.closing? with
      | none => exact ih p (i + 1)
      | some shape =>
        rcases hbrackets : p.brackets with _ | ⟨⟨j, opener⟩, brackets⟩
        · rfl
        · dsimp only
          cases opener.opening? == some shape with
          | true =>
            rw [if_pos rfl, if_pos rfl]
            dsimp only [Except.bind]
            rw [ih]
            split_ifs
            · rw [leave_brackets, leave_pairing]
            · rfl
          | false => rfl

/-- The open brackets and the table are those of the first `i` tokens. -/
structure Paired (code : Code) (i : Nat) (table : Pairing) (brackets : List (Nat × Token)) :
    Prop where
  brackets : Pairing.Open (code.toList.take i) brackets
  tabled : Pairing.Tabled table (code.toList.take i)
  size_eq : table.size = code.size

theorem paired_start (code : Code) : Paired code 0 (Pairing.unpaired code.size) [] where
  brackets := .nil .nil
  tabled := Pairing.tabled_unpaired code.size
  size_eq := Array.size_replicate

/-- **A token keeps the table that of the tokens so far.** -/
theorem Paired.step (h : Paired code i p.pairing p.brackets) (ht : code[i]? = some t)
    (hstep : Steps code p i t p') : Paired code (i + 1) p'.pairing p'.brackets := by
  obtain ⟨hopen, htabled, hsize⟩ := h
  have hlt : i < code.size := (Array.getElem?_eq_some_iff.mp ht).1
  have hlength : (code.toList.take i).length = i := by
    rw [List.length_take, Array.length_toList]
    omega
  have htake : code.toList.take (i + 1) = code.toList.take i ++ [t] := by
    rw [List.take_add_one, Array.getElem?_toList, ht, Option.toList_some]
  cases hstep with
  | @opening shape hshape =>
    have hclose := Token.closing?_eq_none hshape
    have hnext : Paired code (i + 1) p.pairing ((i, t) :: p.brackets) := by
      refine ⟨?_, fun a b => ?_, hsize⟩
      · have := Pairing.Open.cons hopen (by rw [hshape]; rfl) (.nil : Balanced [])
        rwa [hlength, ← htake] at this
      · rw [htabled, htake, Pairing.partners_append_iff hclose]
    split_ifs
    · rwa [enter_pairing, enter_brackets]
    · exact hnext
  | neutral hopening hclosing =>
    refine ⟨htake ▸ hopen.append (.neutral hopening hclosing), fun a b => ?_, hsize⟩
    rw [htabled, htake, Pairing.partners_append_iff hclosing]
  | @closing shape j opener brackets hopening hclosing hbrackets hshape =>
    rw [hbrackets] at hopen
    obtain ⟨hrest, hmatch⟩ := hopen.close hshape hclosing
    have hpair := htabled.pair (by omega) hmatch
    rw [hlength, ← htake] at hpair
    have hnext : Paired code (i + 1) (p.pairing.pair j i) brackets := by
      refine ⟨htake ▸ hrest, hpair, ?_⟩
      rw [Pairing.pair, Array.size_setIfInBounds, Array.size_setIfInBounds, hsize]
    split_ifs
    · rwa [leave_pairing, leave_brackets]
    · exact hnext

/-- At an opening bracket the table agrees with the finished one on all that closed so far. -/
theorem Paired.agree (h : Paired code i p.pairing p.brackets)
    (hpaired : Pairing.ofCode code = .ok pairing) (ht : code[i]? = some t)
    (hopen : t.opening? = some .curly) : Agree (i + 1) code code pairing p.pairing := by
  have htabled := (h.step ht (.opening hopen)).tabled
  rw [if_pos rfl, enter_pairing] at htabled
  exact ⟨hpaired, rfl, fun a b hmatch => (htabled b a).mpr (.inr hmatch)⟩

/-- A token not seen yet has no partner. -/
theorem Paired.partner_eq_none (h : Paired code i p.pairing p.brackets) :
    p.pairing.partner i = none := by
  rw [Option.eq_none_iff_forall_ne_some]
  intro j hj
  have hlength : (code.toList.take i).length ≤ i := List.length_take_le _ _
  rcases (h.tabled i j).mp hj with hmatch | hmatch
  · have := hmatch.1
    have := hmatch.lt_length
    omega
  · have := hmatch.lt_length
    omega

end Pass

/-! ## The tree of the pass -/

namespace Forest

/-- The ids of the regions with a parent, or without one, in order. -/
def idsUnder (regions : Array Region) (parent : Option Nat) : List Nat :=
  (regions.toList.filter (·.parent == parent)).map (·.id)

/-- A region pushed is the last child of its parent. -/
theorem idsUnder_push (regions : Array Region) (r : Region) (parent : Option Nat) :
    idsUnder (regions.push r) parent =
      idsUnder regions parent ++ if r.parent = parent then [r.id] else [] := by
  rw [idsUnder, idsUnder, Array.toList_push, List.filter_append, List.map_append]
  congr 1
  by_cases h : r.parent = parent
  · rw [if_pos h, List.filter_singleton, beq_iff_eq.mpr h, cond_true, List.map_singleton]
  · rw [if_neg h, List.filter_singleton, beq_false_of_ne h, cond_false, List.map_nil]

/-- The forest grows at braces only. -/
theorem Growth.step_of_not_brace (code : Code) (pairing : Pairing) (g : Growth) (i : Nat)
    {t : Token} (hopen : t.opening? ≠ some .curly) (hclose : t.closing? ≠ some .curly) :
    g.step code pairing i t = g := by
  rw [step, if_neg (by simpa using hopen), if_neg (by simpa using hclose)]

/-- Nothing is under a region that does not exist. -/
theorem idsUnder_eq_nil {regions : Array Region} {id : Nat}
    (h : ∀ r ∈ regions, ∀ q, r.parent = some q → q < id) : idsUnder regions (some id) = [] := by
  rw [idsUnder, List.filter_eq_nil_iff.mpr, List.map_nil]
  intro r hr hparent
  exact absurd (h r (Array.mem_toList_iff.mp hr) id (beq_iff_eq.mp hparent)) (Nat.lt_irrefl id)

end Forest

/-- **The tree beside a growing forest**: closed regions are those of the forest, open ones become
so at their closing braces, and the lists of children are read off the parents. -/
structure Grown (code : Code) (branches : Array Branch) (roots pending : List Nat)
    (g : Forest.Growth) : Prop where
  pending_eq : pending = g.pending
  size_eq : branches.size = g.regions.size
  region : ∀ id b r, branches[id]? = some b → g.regions[id]? = some r →
    id ∈ g.pending ∧ b.region.Ends code r ∨ id ∉ g.pending ∧ b.region = r
  children : ∀ id b, branches[id]? = some b → b.children = Forest.idsUnder g.regions (some id)
  roots_eq : roots = Forest.idsUnder g.regions none

namespace Grown

variable {code : Code} {pairing : Pairing} {p : Pass} {g : Forest.Growth} {i : Nat} {t : Token}

theorem empty (code : Code) : Grown code #[] [] [] {} := ⟨rfl, rfl, by simp, by simp, rfl⟩

variable (h : Grown code p.branches p.roots p.pending g)

include h

/-- The recognizers cannot tell the two lists of regions apart. -/
theorem map_unnamed_eq :
    g.regions.map Region.unnamed = (p.branches.map (·.region)).map Region.unnamed := by
  rw [Array.map_map]
  refine Array.ext (by simp [h.size_eq]) fun id hid hid' => ?_
  rw [Array.size_map] at hid hid'
  rw [Array.getElem_map, Array.getElem_map, Function.comp_apply]
  rcases h.region id _ _ (Array.getElem?_eq_getElem hid') (Array.getElem?_eq_getElem hid) with
    ⟨-, hends⟩ | ⟨-, hsame⟩
  · exact hends.unnamed_eq.symm
  · rw [hsame]

/-- Nor the kinds of the innermost open region. -/
theorem map_kind_eq :
    (g.pending.head?.bind fun q => g.regions[q]?.map (·.kind)).map RegionKind.unnamed =
      (p.pending.head?.bind fun q => p.branches[q]?.map (·.region.kind)).map
        RegionKind.unnamed := by
  rw [Option.map_bind, Option.map_bind, h.pending_eq]
  refine Option.bind_congr fun q _ => ?_
  have := congrArg (·[q]?.map Region.kind) h.map_unnamed_eq
  simpa [Function.comp_def, Region.unnamed] using this

/-- **The region that opens becomes the one of the forest.** -/
theorem ends_opened (hagree : Agree (i + 1) code code pairing p.pairing)
    (hunpaired : p.pairing.partner i = none) (ht : code[i]? = some t)
    (hopen : t.opening? = some .curly) :
    ∃ r, g.step code pairing i t = ⟨g.regions.push r, g.regions.size :: g.pending⟩ ∧
      r.id = g.regions.size ∧ r.parent = g.pending.head? ∧ (p.opened code i t).Ends code r := by
  have hlt : i < code.size := (Array.getElem?_eq_some_iff.mp ht).1
  have hmark : code.mark i (Bracket.opener .curly) = true := by
    rw [Code.mark, Code.has, ht, Option.any_some]
    exact Token.opening?_eq_some_iff.mp hopen
  obtain ⟨closing, hclosing, -, hcloser⟩ := Pairing.exists_closing hagree.paired .curly hmark
  rw [Code.mark, Code.has, Option.any_eq_true] at hcloser
  obtain ⟨closer, hcloser, -⟩ := hcloser
  refine ⟨_, by rw [Forest.Growth.step, hopen, beq_self_eq_true, if_pos rfl], rfl, rfl,
    closer, ?_, ?_⟩
  · rw [hclosing, Option.getD_some, hcloser]
  · have hkind := calledBehind_classify hagree (Nat.lt_succ_self i) (Nat.le_of_lt hlt)
      h.map_unnamed_eq h.map_kind_eq hclosing hunpaired
    rw [Region.close, Pass.opened, hclosing, Option.getD_some, hcloser, Option.getD_some, hkind,
      h.size_eq, h.pending_eq]

/-- The region that opens is the last of both, and it is open. -/
theorem region_push {opened r : Region} (hends : opened.Ends code r) {id : Nat} {b : Branch}
    {q : Region} (hb : (p.branches.push ⟨opened, []⟩)[id]? = some b)
    (hq : (g.regions.push r)[id]? = some q) :
    id ∈ g.regions.size :: g.pending ∧ b.region.Ends code q ∨
      id ∉ g.regions.size :: g.pending ∧ b.region = q := by
  rw [Array.getElem?_push, h.size_eq] at hb
  rw [Array.getElem?_push] at hq
  split_ifs at hb hq with hlast
  · cases hb
    cases hq
    exact .inl ⟨hlast ▸ List.mem_cons_self, hends⟩
  · rw [List.mem_cons, or_iff_right hlast]
    exact h.region id b q hb hq

/-- Nothing is inside the region that opens. -/
theorem children_push (hgrowing : Forest.Growing code pairing i g) (opened : Region) {id : Nat}
    {b : Branch} (hb : (p.branches.push ⟨opened, []⟩)[id]? = some b) :
    b.children = Forest.idsUnder g.regions (some id) := by
  rw [Array.getElem?_push, h.size_eq] at hb
  split_ifs at hb with hlast
  · cases hb
    rw [hlast, Forest.idsUnder_eq_nil fun q hq _ => hgrowing.parent_lt_size hq]
  · exact h.children id b hb

/-- **An opening brace keeps the tree grown.** -/
theorem enter (hgrowing : Forest.Growing code pairing i g)
    (hagree : Agree (i + 1) code code pairing p.pairing)
    (hunpaired : p.pairing.partner i = none) (ht : code[i]? = some t)
    (hopen : t.opening? = some .curly) :
    Grown code (p.enter code i t).branches (p.enter code i t).roots (p.enter code i t).pending
      (g.step code pairing i t) := by
  obtain ⟨r, hstep, hid, hparent, hends⟩ := h.ends_opened hagree hunpaired ht hopen
  rw [hstep, Pass.enter]
  cases hpending : p.pending with
  | nil =>
    have hnone : r.parent = none := by rw [hparent, ← h.pending_eq, hpending, List.head?_nil]
    refine ⟨?_, ?_, fun id b q => h.region_push hends, fun id b hb => ?_, ?_⟩
    · rw [← h.pending_eq, hpending, h.size_eq]
    · rw [Array.size_push, Array.size_push, h.size_eq]
    · rw [h.children_push hgrowing _ hb, Forest.idsUnder_push, hnone,
        if_neg (Option.some_ne_none id).symm, List.append_nil]
    · rw [Forest.idsUnder_push, hnone, if_pos rfl, h.roots_eq, hid, h.size_eq]
  | cons parent outer =>
    have hsome : r.parent = some parent := by
      rw [hparent, ← h.pending_eq, hpending, List.head?_cons]
    refine ⟨?_, ?_, fun id b q hb hq => ?_, fun id b hb => ?_, ?_⟩
    · rw [← h.pending_eq, hpending, h.size_eq]
    · rw [Array.size_modify, Array.size_push, Array.size_push, h.size_eq]
    · rw [Array.getElem?_modify] at hb
      split_ifs at hb
      · obtain ⟨b', hb', rfl⟩ := Option.map_eq_some_iff.mp hb
        exact h.region_push (b := b') hends hb' hq
      · exact h.region_push hends hb hq
    · rw [Array.getElem?_modify] at hb
      rw [Forest.idsUnder_push, hsome, hid, ← h.size_eq]
      by_cases hadopts : parent = id
      · rw [if_pos hadopts] at hb
        obtain ⟨b', hb', rfl⟩ := Option.map_eq_some_iff.mp hb
        rw [if_pos (congrArg some hadopts), Branch.adopt, h.children_push hgrowing _ hb']
      · rw [if_neg hadopts] at hb
        rw [if_neg (mt Option.some.inj hadopts), List.append_nil, h.children_push hgrowing _ hb]
    · rw [Forest.idsUnder_push, hsome, if_neg (Option.some_ne_none parent), List.append_nil,
        h.roots_eq]

/-- **A closing brace keeps the tree grown.** -/
theorem leave (hgrowing : Forest.Growing code pairing i g)
    (hpaired : Pairing.ofCode code = .ok pairing) (ht : code[i]? = some t)
    (hclose : t.closing? = some .curly) :
    Grown code (p.leave code i t).branches (p.leave code i t).roots (p.leave code i t).pending
      (g.step code pairing i t) := by
  obtain ⟨id, outer, r, hpending, hr, hclosing⟩ := hgrowing.exists_closed hpaired ht hclose
  have hstep : g.step code pairing i t = { g with pending := outer } := by
    rw [Forest.Growth.step, Token.opening?_eq_none hclose, hclose, if_neg (by decide),
      beq_self_eq_true, if_pos rfl, hpending, List.tail_cons]
  have houter : id ∉ outer := by
    have hsorted := hgrowing.sorted
    rw [hpending, List.pairwise_cons] at hsorted
    exact fun hmem => Nat.lt_irrefl id (hsorted.1 id hmem)
  rw [hstep, Pass.leave, h.pending_eq, hpending]
  refine ⟨rfl, ?_, fun k b q hb hq => ?_, fun k b hb => ?_, h.roots_eq⟩
  · rw [Array.size_modify, h.size_eq]
  · rw [Array.getElem?_modify] at hb
    split_ifs at hb with hk
    · obtain ⟨b', hb', rfl⟩ := Option.map_eq_some_iff.mp hb
      subst hk
      rw [hr] at hq
      cases hq
      refine .inr ⟨houter, ?_⟩
      rcases h.region id b' r hb' hr with ⟨-, closer, hcloser, hends⟩ | ⟨hnot, -⟩
      · rw [hclosing, ht] at hcloser
        cases hcloser
        rw [Branch.close, ← hends, hclosing]
      · exact absurd (hpending ▸ List.mem_cons_self) hnot
    · have := h.region k b q hb hq
      rwa [hpending, List.mem_cons, or_iff_right (Ne.symm hk)] at this
  · rw [Array.getElem?_modify] at hb
    split_ifs at hb with hk
    · obtain ⟨b', hb', rfl⟩ := Option.map_eq_some_iff.mp hb
      exact h.children k b' hb'
    · exact h.children k b hb

end Grown

namespace Pass

variable {code : Code} {pairing : Pairing} {p p' : Pass} {g : Forest.Growth} {i : Nat} {t : Token}

/-- **A token keeps the tree grown.** -/
theorem grown_step (hgrowing : Forest.Growing code pairing i g)
    (hpaired : Pairing.ofCode code = .ok pairing) (hp : Paired code i p.pairing p.brackets)
    (h : Grown code p.branches p.roots p.pending g) (ht : code[i]? = some t)
    (hstep : Steps code p i t p') :
    Grown code p'.branches p'.roots p'.pending (g.step code pairing i t) := by
  cases hstep with
  | @opening shape hopen =>
    split_ifs with hcurly
    · rw [hcurly] at hopen
      exact h.enter (p := { p with brackets := (i, t) :: p.brackets }) hgrowing
        (hp.agree hpaired ht hopen) hp.partner_eq_none ht hopen
    · rwa [Forest.Growth.step_of_not_brace code pairing g i (by simpa [hopen] using hcurly)
        (by simp [Token.closing?_eq_none hopen])]
  | neutral hopen hclose =>
    rwa [Forest.Growth.step_of_not_brace code pairing g i (by simp [hopen]) (by simp [hclose])]
  | @closing shape j opener brackets hopen hclose hbrackets hshape =>
    split_ifs with hcurly
    · rw [hcurly] at hclose
      exact h.leave (p := { p with pairing := p.pairing.pair j i, brackets }) hgrowing hpaired ht
        hclose
    · rwa [Forest.Growth.step_of_not_brace code pairing g i (by simp [hopen])
        (by simpa [hclose] using hcurly)]

/-- **Token after token the tree stays grown**, and the brackets those seen. -/
theorem grown_run (hpaired : Pairing.ofCode code = .ok pairing) {tokens : List Token}
    (htokens : code.Holds i tokens) (hgrowing : Forest.Growing code pairing i g)
    (hp : Paired code i p.pairing p.brackets) (h : Grown code p.branches p.roots p.pending g)
    (hrun : run code i p tokens = .ok p') :
    Grown code p'.branches p'.roots p'.pending (Forest.growFrom code pairing i g tokens) := by
  induction tokens generalizing i p g with
  | nil =>
    rw [run] at hrun
    split at hrun
    · cases hrun
      exact h
    · cases hrun
  | cons t rest ih =>
    rw [run] at hrun
    cases hstep : p.step code i t with
    | error fault =>
      rw [hstep] at hrun
      cases hrun
    | ok next =>
      rw [hstep] at hrun
      have hsteps := steps_of_step hstep
      exact ih htokens.tail (hgrowing.step hpaired htokens.head) (hp.step htokens.head hsteps)
        (grown_step hgrowing hpaired hp h htokens.head hsteps) hrun

end Pass

/-- **What the pass leaves is what the forest says**: its regions, with their children and the
regions at file scope read off the parents. -/
def Indexed.ofForest (pairing : Pairing) (f : Forest) : Indexed where
  pairing
  branches := f.regions.map fun r => ⟨r, (f.childrenOf (some r.id)).map (·.id)⟩
  roots := (f.childrenOf none).map (·.id)

/-- At the end no region is open, and every region is the one of the forest. -/
theorem Pass.toIndexed_eq {code : Code} {p : Pass}
    (hpaired : Pairing.ofCode code = .ok p.pairing)
    (hrun : run code 0 (.start code.size) code.toList = .ok p) :
    p.toIndexed = .ofForest p.pairing (Forest.ofCode code p.pairing) := by
  have hgrowing := Forest.growFrom_growing hpaired (.whole code) .empty
  have hgrown := grown_run hpaired (.whole code) .empty (paired_start code) (.empty code) hrun
  obtain ⟨-, hsize, hregion, hchildren, hroots⟩ := hgrown
  have hclosed : ∀ id r,
      (Forest.growFrom code p.pairing 0 {} code.toList).regions[id]? = some r →
        id ∉ (Forest.growFrom code p.pairing 0 {} code.toList).pending := by
    intro id r hr hpending
    obtain ⟨q, hq, hle⟩ := (hgrowing.pending_iff id).mp hpending
    have := (hgrowing.matched hpaired (Array.mem_of_getElem? hq)).1.lt_length
    omega
  refine Indexed.ext rfl (Array.ext_getElem? fun id => ?_) hroots
  rw [Indexed.ofForest, Array.getElem?_map, Forest.ofCode]
  cases hb : p.branches[id]? with
  | none =>
    rw [Array.getElem?_eq_none_iff, hsize] at hb
    rw [Array.getElem?_eq_none hb, Option.map_none]
  | some b =>
    have hid : id < (Forest.growFrom code p.pairing 0 {} code.toList).regions.size := by
      rw [← hsize]
      exact (Array.getElem?_eq_some_iff.mp hb).1
    have hr := Array.getElem?_eq_getElem hid
    rcases hregion id b _ hb hr with ⟨hpending, -⟩ | ⟨-, hsame⟩
    · exact absurd hpending (hclosed id _ hr)
    · rw [hr, Option.map_some, hgrowing.numbered.id_eq id _ hr, ← hsame]
      exact congrArg (fun children => some (Branch.mk b.region children)) (hchildren id b hb)

/-- **One pass gives the pairing and the forest**, or the same fault. -/
theorem Indexed.ofCode_eq (code : Code) :
    Indexed.ofCode code =
      (Pairing.ofCode code).map fun pairing => .ofForest pairing (Forest.ofCode code pairing) := by
  have hmap : _ = Pairing.ofCode code := Pass.map_run code (.start code.size) 0 code.toList
  rw [Indexed.ofCode]
  cases hrun : Pass.run code 0 (.start code.size) code.toList with
  | error fault =>
    rw [hrun] at hmap
    rw [← hmap]
    rfl
  | ok p =>
    rw [hrun] at hmap
    have hpaired : Pairing.ofCode code = .ok p.pairing := hmap.symm
    rw [hpaired]
    exact congrArg Except.ok (Pass.toIndexed_eq hpaired hrun)

/-- **An outline is what one pass leaves**: its pairing, and the regions of its tree. -/
theorem Outline.ofTokens_eq_pass (source : Bytes) (tokens : List Token) :
    Outline.ofTokens source tokens =
      (Indexed.ofCode (Code.ofTokens tokens)).map fun indexed =>
        ⟨source, tokens, Code.ofTokens tokens, indexed.pairing,
          ⟨indexed.branches.map (·.region)⟩⟩ := by
  rw [Indexed.ofCode_eq, ofTokens]
  cases Pairing.ofCode (Code.ofTokens tokens) with
  | error fault => rfl
  | ok pairing =>
    have hregions : ∀ f : Forest, (Indexed.ofForest pairing f).branches.map (·.region) =
        f.regions := by
      intro f
      rw [Indexed.ofForest, Array.map_map]
      exact Array.map_id' _
    exact congrArg (fun regions => Except.ok (Outline.mk source tokens (Code.ofTokens tokens)
      pairing ⟨regions⟩)) (hregions (Forest.ofCode (Code.ofTokens tokens) pairing)).symm

end Quell
