import Mathlib.Tactic.Common
import Quell.Proofs.Wedge.Edits

/-!
# Proofs/Rerun — what a second run finds in the result of a first

The result of a run can be run again, from the outline that the first run leaves (`exists_rerun`).
-/

namespace Quell

/-- **The result of a run can be run again**, from its own outline. -/
theorem exists_rerun {settings : Settings} {source : Bytes} {t : Transformed}
    (h : transform settings source = .ok t) :
    ∃ o o' t', Outline.ofSource source = .ok o ∧ Outline.ofSource t.output = .ok o' ∧
      transform settings t.output = .ok t' ∧ Woven settings t o o' ∧
      t'.CarriesOut settings o' := by
  obtain ⟨o, o', rfl, hwoven⟩ := exists_woven h
  rw [← hwoven.output]
  obtain ⟨t', hrun, -⟩ :=
    exists_transform hwoven.check hwoven.after.tokenized hwoven.after.ofTokens_eq
  obtain ⟨o₂, hsource, hcarries⟩ := exists_carriesOut hrun
  have hafter := Outline.ofSource_eq_ok_iff_valid.mpr ⟨rfl, hwoven.after⟩
  -- The second run starts from the outline of the result.
  have hsame := Outline.ofSource_eq_ok_iff_valid.mpr ⟨hsource, hcarries.valid⟩
  rw [hafter] at hsame
  cases hsame
  exact ⟨o, o', t', Outline.ofSource_eq_ok_iff_valid.mpr ⟨rfl, hwoven.before⟩, hafter, hrun, hwoven,
    hcarries⟩

/-- A `case` without its colon takes that of the inserted `default`, so the second run inserts one
more. -/
theorem transform_inserts_default_twice :
    transform {} (utf8 "enum E \x7bA\x7d; void f(E e) \x7bswitch (e) \x7bcase\x7d\x7d") =
      .ok ⟨utf8 "enum E \x7bA\x7d; void f(E e) \x7bswitch (e) \x7bcase default: break;\x7d\x7d",
        [⟨41, utf8 " default: break;", .missingDefault, ["A"]⟩], []⟩ ∧
    transform {}
        (utf8 "enum E \x7bA\x7d; void f(E e) \x7bswitch (e) \x7bcase default: break;\x7d\x7d") =
      .ok ⟨utf8
    "enum E \x7bA\x7d; void f(E e) \x7bswitch (e) \x7bcase default: break; default: break;\x7d\x7d",
        [⟨57, utf8 " default: break;", .missingDefault, ["A"]⟩], []⟩ := by
  decide +kernel

/-- **No body is given the same discard twice.**  The result of a run can be run again, and what the
first run discards in a body the second does not discard there, whatever becomes of the function
heads. -/
theorem transform_discards_once {settings : Settings} {source : Bytes} {t : Transformed}
    (h : transform settings source = .ok t) :
    ∃ o o' t', Outline.ofSource source = .ok o ∧ Outline.ofSource t.output = .ok o' ∧
      transform settings t.output = .ok t' ∧
      ∀ e ∈ t.edits, ∀ e' ∈ t'.edits, ∀ r ∈ o.forest.toList, ∀ r' ∈ o'.forest.toList,
        r'.id = r.id → ∀ name, e.Discards r name → ¬e'.Discards r' name := by
  obtain ⟨o, o', t', hbefore, hafter, hrun, hwoven, hcarries⟩ := exists_rerun h
  exact ⟨o, o', t', hbefore, hafter, hrun, fun e he e' he' r hr r' hr' hid name =>
    hwoven.not_discards he ((hcarries.planned e').mp he') hr hr' hid⟩

/-- **A second run has nothing to discard** where no discard of the first changes structure: none
goes close after `operator`, into a statement that may head a block, or into a parameter list. -/
theorem transform_discards_settle {settings : Settings} {source : Bytes} {t : Transformed}
    {o : Outline} (hdisabled : settings.switches.enabled = false)
    (h : transform settings source = .ok t) (ho : Outline.ofSource source = .ok o)
    (hshelters : ∀ e ∈ t.edits, o.Shelters (o.place e.offset)) :
    ∃ t', transform settings t.output = .ok t' ∧ t'.edits = [] ∧ t'.output = t.output := by
  obtain ⟨o₁, o', t', hbefore, hafter, hrun, hwoven, hcarries⟩ := exists_rerun h
  cases ho.symm.trans hbefore
  have hplanned : ∀ {o e}, Plan.Planned o settings e →
      settings.params.enabled = true ∧ e ∈ Plan.discardEdits o settings := by
    intro o e he
    refine he.resolve_right fun hswitch => ?_
    cases hdisabled.symm.trans hswitch.1
  have hfits : ∀ e ∈ t.edits, (e.wedge o).Fits o.stripped := fun e he =>
    Plan.fits_discard hwoven.before (hplanned ((hwoven.planned e).mp he)).2 (hshelters e he)
  have hedits : t'.edits = [] := by
    refine List.eq_nil_iff_forall_not_mem.mpr fun e he => ?_
    obtain ⟨henabled, hdiscard⟩ := hplanned ((hcarries.planned e).mp he)
    rw [hwoven.discardEdits_eq_nil henabled hfits] at hdiscard
    cases hdiscard
  have houtput := (hcarries.spliced.output_eq_iff (by rw [hedits]; exact nofun)).mpr hedits
  exact ⟨t', hrun, hedits, houtput.trans hwoven.output⟩

/-- A method of a class in a lambda, before the block of an `if`. -/
theorem transform_discards_settle_nested :
    ∃ o t t', Outline.ofSource (utf8 "void f() \x7bif (g([&] \x7bstruct S \x7bvoid m(int q) "
        ++ utf8 "\x7b\x7d\x7d;\x7d)) \x7b\x7d\x7d") = .ok o ∧
      transform { switches := { enabled := false } }
        (utf8 "void f() \x7bif (g([&] \x7bstruct S \x7bvoid m(int q) "
          ++ utf8 "\x7b\x7d\x7d;\x7d)) \x7b\x7d\x7d") = .ok t ∧
      t.edits.map (·.subjects) = [["q"]] ∧ (∀ e ∈ t.edits, o.Shelters (o.place e.offset)) ∧
      transform { switches := { enabled := false } } t.output = .ok t' ∧ t'.edits = [] ∧
      t'.output = t.output := by
  obtain ⟨o, ho, hplace⟩ := Outline.exists_ofSource
    (utf8 "void f() \x7bif (g([&] \x7bstruct S \x7bvoid m(int q) "
      ++ utf8 "\x7b\x7d\x7d;\x7d)) \x7b\x7d\x7d")
    (fun o => decide (o.Shelters (o.place 46))) (a := true) (by decide +kernel)
  have hrun : transform { switches := { enabled := false } }
      (utf8 "void f() \x7bif (g([&] \x7bstruct S \x7bvoid m(int q) "
        ++ utf8 "\x7b\x7d\x7d;\x7d)) \x7b\x7d\x7d") =
      .ok ⟨utf8 "void f() \x7bif (g([&] \x7bstruct S \x7bvoid m(int q) \x7b (void) q; "
        ++ utf8 "\x7d\x7d;\x7d)) \x7b\x7d\x7d",
        [⟨46, utf8 " (void) q; ", .unusedParamDiscard, ["q"]⟩], []⟩ := by decide +kernel
  have hshelters : ∀ e ∈ [Edit.mk 46 (utf8 " (void) q; ") .unusedParamDiscard ["q"]],
      o.Shelters (o.place e.offset) :=
    List.forall_mem_singleton.mpr (of_decide_eq_true hplace)
  obtain ⟨t', hrun', hsettled⟩ := transform_discards_settle rfl hrun ho hshelters
  exact ⟨o, _, t', ho, hrun, rfl, hshelters, hrun', hsettled⟩

/-- The declared name of a parameter that is an array of pointers is the last name in its
parentheses.  A method defined there, in the bound of the array, moves that name by its own discard,
and the second run discards it. -/
theorem transform_discards_twice :
    transform { switches := { enabled := false } }
      (utf8 "void f(int (*p[sizeof []\x7bstruct S\x7bvoid m(int q,S)\x7b"
        ++ utf8 "\x7d\x7d;\x7d]))\x7bstruct S;\x7d") =
      .ok ⟨utf8 "void f(int (*p[sizeof []\x7bstruct S\x7bvoid m(int q,S)\x7b (void) q; "
        ++ utf8 "\x7d\x7d;\x7d]))\x7bstruct S;\x7d",
        [⟨50, utf8 " (void) q; ", .unusedParamDiscard, ["q"]⟩], []⟩ ∧
    transform { switches := { enabled := false } }
      (utf8 "void f(int (*p[sizeof []\x7bstruct S\x7bvoid m(int q,S)\x7b (void) q; "
        ++ utf8 "\x7d\x7d;\x7d]))\x7bstruct S;\x7d") =
      .ok ⟨utf8 "void f(int (*p[sizeof []\x7bstruct S\x7bvoid m(int q,S)\x7b (void) q; "
        ++ utf8 "\x7d\x7d;\x7d]))\x7b (void) q; struct S;\x7d",
        [⟨69, utf8 " (void) q; ", .unusedParamDiscard, ["q"]⟩], []⟩ := by
  decide +kernel

end Quell
