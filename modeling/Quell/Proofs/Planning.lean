import Mathlib.Tactic.Common
import Quell.Proofs.Checking

/-!
# Proofs/Planning — the planned edits can always be applied

A discard goes right after the opening brace of a function, a completion right before the closing
brace of a switch.  These places lie between tokens and differ from each other, since a region has
one kind and braces have one partner.  So the check never refuses a plan and a run fails only where
the settings, the tokens or the brackets do.
-/

namespace Quell

namespace Plan

/-! ## The edits of an outline -/

/-- The discards for the functions of an outline. -/
def discardEdits (o : Outline) (settings : Settings) : List Edit :=
  o.unusedParams.filterMap (discardEdit? o settings)

/-- The completions for the switches of an outline. -/
def switchEdits (o : Outline) (settings : Settings) : List Edit :=
  (o.coverage o.enumerations).omissions.filterMap (switchEdit? o settings)

/-- The draft holds the discards and the completions that the settings ask for. -/
theorem draft_findings (o : Outline) (settings : Settings) :
    draft o settings (o.findings settings).unused (o.findings settings).coverage.omissions =
      (if settings.params.enabled then discardEdits o settings else []) ++
        (if settings.switches.enabled then switchEdits o settings else []) := by
  rw [draft, Outline.findings]
  congr 1
  · split_ifs <;> rfl
  · split_ifs <;> rfl

/-- What the settings ask for. -/
def Planned (o : Outline) (settings : Settings) (e : Edit) : Prop :=
  settings.params.enabled = true ∧ e ∈ discardEdits o settings ∨
    settings.switches.enabled = true ∧ e ∈ switchEdits o settings

theorem Planned.mem {o : Outline} {settings : Settings} {e : Edit} (h : Planned o settings e) :
    e ∈ discardEdits o settings ∨ e ∈ switchEdits o settings :=
  h.imp And.right And.right

theorem mem_draft_iff {o : Outline} {settings : Settings} {e : Edit} :
    e ∈ draft o settings (o.findings settings).unused (o.findings settings).coverage.omissions ↔
      Planned o settings e := by
  rw [draft_findings, List.mem_append, Planned]
  refine or_congr ?_ ?_ <;> split_ifs with henabled <;> simp [henabled]

/-- The edit for a function, as a function of its region. -/
def discardAt? (o : Outline) (settings : Settings) (f : Region × FunctionHead) : Option Edit :=
  (UnusedParams.ofFunction? o f.1 f.2).bind (discardEdit? o settings)

/-- The edit for a switch, as a function of its region. -/
def completionAt? (o : Outline) (settings : Settings) (s : Region × Group) : Option Edit :=
  let switch := Switch.ofRegion o s.1 s.2
  (Coverage.omission? switch (Coverage.judge o o.enumerations switch)).bind
    (switchEdit? o settings)

theorem discardEdits_eq (o : Outline) (settings : Settings) :
    discardEdits o settings = o.functions.filterMap (discardAt? o settings) := by
  rw [discardEdits, Outline.unusedParams, List.filterMap_filterMap]
  rfl

theorem switchEdits_eq (o : Outline) (settings : Settings) :
    switchEdits o settings = o.switches.filterMap (completionAt? o settings) := by
  rw [switchEdits, Outline.coverage, Coverage.omissions, Outline.labelledSwitches,
    List.filterMap_filterMap, List.filterMap_map, List.filterMap_map]
  rfl

end Plan

namespace Outline

/-- A function is a region that is a function body, with its head. -/
theorem mem_functions_iff {o : Outline} {f : Region × FunctionHead} :
    f ∈ o.functions ↔ f.1 ∈ o.forest.toList ∧ f.1.kind = .functionBody f.2 := by
  obtain ⟨r, head⟩ := f
  rw [functions, List.mem_filterMap]
  constructor
  · rintro ⟨q, hq, h⟩
    split at h
    · rename_i kind hkind
      cases h
      exact ⟨hq, hkind⟩
    · cases h
  · rintro ⟨hr, hkind⟩
    exact ⟨r, hr, by rw [hkind]⟩

/-- A switch is a region that is a switch body, with its condition. -/
theorem mem_switches_iff {o : Outline} {s : Region × Group} :
    s ∈ o.switches ↔ s.1 ∈ o.forest.toList ∧ s.1.kind = .switchBody s.2 := by
  obtain ⟨r, condition⟩ := s
  rw [switches, List.mem_filterMap]
  constructor
  · rintro ⟨q, hq, h⟩
    split at h
    · rename_i kind hkind
      cases h
      exact ⟨hq, hkind⟩
    · cases h
  · rintro ⟨hr, hkind⟩
    exact ⟨r, hr, by rw [hkind]⟩

/-- Functions are listed in the order of their braces. -/
theorem pairwise_functions {o : Outline} (h : o.Valid) :
    o.functions.Pairwise fun f g => f.1.opening < g.1.opening := by
  refine h.numbered.ordered.filterMap _ ?_
  intro r q hrq f hf g hg
  split at hf <;> cases hf
  split at hg <;> cases hg
  exact hrq

theorem pairwise_switches {o : Outline} (h : o.Valid) :
    o.switches.Pairwise fun s t => s.1.opening < t.1.opening := by
  refine h.numbered.ordered.filterMap _ ?_
  intro r q hrq s hs t ht
  split at hs <;> cases hs
  split at ht <;> cases ht
  exact hrq

end Outline

namespace Plan

variable {o : Outline} {settings : Settings} {e : Edit}

/-! ## Where edits go -/

/-- The bytes of the name of an unused parameter. -/
def word (o : Outline) (p : String × Nat) : Bytes := (o.code[p.2]?.map (·.text)).getD []

theorem region_eq {r : Region} {head : FunctionHead} {u : UnusedParams}
    (h : UnusedParams.ofFunction? o r head = some u) : u.region = r.id := by
  rw [UnusedParams.ofFunction?] at h
  split at h <;> cases h
  rfl

/-- What is known of a discard. -/
theorem discardAt?_eq_some (h : o.Valid) {f : Region × FunctionHead} (hf : f ∈ o.functions)
    (he : discardAt? o settings f = some e) :
    ∃ u, UnusedParams.ofFunction? o f.1 f.2 = some u ∧ e.offset = f.1.bodyOffset ∧
      e.text = discardText o settings f.1
        ((u.params.map (word o)).map settings.params.style.statement) ∧
      e.subjects = u.names := by
  obtain ⟨u, hu, hedit⟩ := Option.bind_eq_some_iff.mp he
  rw [discardEdit?, region_eq hu, h.get?_id (Outline.mem_functions_iff.mp hf).1] at hedit
  cases hedit
  refine ⟨u, hu, rfl, ?_, rfl⟩
  rw [List.map_map]
  rfl

/-- What is known of a completion. -/
theorem completionAt?_eq_some (h : o.Valid) {s : Region × Group} (hs : s ∈ o.switches)
    (he : completionAt? o settings s = some e) :
    ∃ m, Coverage.omission? (Switch.ofRegion o s.1 s.2)
        (Coverage.judge o o.enumerations (Switch.ofRegion o s.1 s.2)) = some m ∧
      e.offset = s.1.closeOffset ∧
      e.text = if Line.starts o.source s.1.closeOffset
        then labelLines o settings s.1 m (labels settings m).1
        else labelsInline o settings s.1 (labels settings m).1 := by
  obtain ⟨m, hm, hedit⟩ := Option.bind_eq_some_iff.mp he
  have hregion : m.region = s.1.id := by
    rw [Coverage.omission?.eq_def] at hm
    split at hm
    · split_ifs at hm
      cases hm
      rfl
    · cases hm
  rw [switchEdit?, hregion, h.get?_id (Outline.mem_switches_iff.mp hs).1] at hedit
  cases hedit
  exact ⟨m, hm, rfl, rfl⟩

/-- A discard belongs to a function. -/
theorem mem_discardEdits (he : e ∈ discardEdits o settings) :
    ∃ f ∈ o.functions, discardAt? o settings f = some e := by
  rw [discardEdits_eq] at he
  exact List.mem_filterMap.mp he

theorem mem_switchEdits (he : e ∈ switchEdits o settings) :
    ∃ s ∈ o.switches, completionAt? o settings s = some e := by
  rw [switchEdits_eq] at he
  exact List.mem_filterMap.mp he

/-- **No two edits go to one place.** -/
theorem pairwise_edits (h : o.Valid) :
    (discardEdits o settings ++ switchEdits o settings).Pairwise fun a b =>
      a.offset ≠ b.offset := by
  refine List.pairwise_append.mpr ⟨?_, ?_, fun a ha b hb => ?_⟩
  · rw [discardEdits_eq]
    refine (List.Pairwise.and_mem.mp (Outline.pairwise_functions h)).filterMap _ ?_
    rintro f g ⟨hf, hg, hlt⟩ a ha b hb
    obtain ⟨-, -, hoffset, -⟩ := discardAt?_eq_some h hf ha
    obtain ⟨-, -, hoffset', -⟩ := discardAt?_eq_some h hg hb
    rw [hoffset, hoffset']
    exact Nat.ne_of_lt (h.bodyOffset_lt (Outline.mem_functions_iff.mp hf).1
      (Outline.mem_functions_iff.mp hg).1 hlt)
  · rw [switchEdits_eq]
    refine (List.Pairwise.and_mem.mp (Outline.pairwise_switches h)).filterMap _ ?_
    rintro s t ⟨hs, ht, hlt⟩ a ha b hb
    obtain ⟨-, -, hoffset, -⟩ := completionAt?_eq_some h hs ha
    obtain ⟨-, -, hoffset', -⟩ := completionAt?_eq_some h ht hb
    rw [hoffset, hoffset']
    exact h.closeOffset_ne (Outline.mem_switches_iff.mp hs).1 (Outline.mem_switches_iff.mp ht).1
      (Nat.ne_of_lt hlt)
  · obtain ⟨f, hf, hfa⟩ := mem_discardEdits ha
    obtain ⟨s, hs, hsb⟩ := mem_switchEdits hb
    obtain ⟨-, -, hoffset, -⟩ := discardAt?_eq_some h hf hfa
    obtain ⟨-, -, hoffset', -⟩ := completionAt?_eq_some h hs hsb
    obtain ⟨hfmem, hfkind⟩ := Outline.mem_functions_iff.mp hf
    obtain ⟨hsmem, hskind⟩ := Outline.mem_switches_iff.mp hs
    rw [hoffset, hoffset']
    -- A region is a function or a switch, not both.
    refine h.bodyOffset_ne_closeOffset hfmem hsmem fun hsame => ?_
    rw [hsame, hskind] at hfkind
    cases hfkind

/-! ## Every edit is sound by itself -/

/-- The edit lies in the buffer, between tokens, and inserts something. -/
structure Sound (o : Outline) (e : Edit) : Prop where
  offset_le : e.offset ≤ o.source.length
  between : ∀ t ∈ o.tokens, ¬(t.start < e.offset ∧ e.offset < t.stop)
  text_ne : e.text ≠ []

theorem params_ne_nil {r : Region} {head : FunctionHead} {u : UnusedParams}
    (h : UnusedParams.ofFunction? o r head = some u) : u.params ≠ [] := by
  rw [UnusedParams.ofFunction?] at h
  split at h
  · cases h
  · rename_i hne
    cases h
    exact hne

theorem newline_ne_nil (o : Outline) : newline o ≠ [] := by
  rw [newline]
  cases Line.ending o.source <;> decide

/-- A discard of something is not empty. -/
theorem discardText_ne_nil {r : Region} {statements : List Bytes} (h : statements ≠ []) :
    discardText o settings r statements ≠ [] := by
  rw [discardText]
  split_ifs
  · obtain ⟨s, rest, rfl⟩ := List.exists_cons_of_ne_nil h
    simp [newline_ne_nil]
  · simp

theorem labelLines_ne_nil {r : Region} {m : Omission} {texts : List Bytes} :
    labelLines o settings r m texts ≠ [] := by
  simp [labelLines, newline_ne_nil]

theorem labelsInline_ne_nil {r : Region} {texts : List Bytes} :
    labelsInline o settings r texts ≠ [] := by
  rw [labelsInline]
  split_ifs <;> simp

/-- **A discard is sound.** -/
theorem sound_discard (h : o.Valid) (he : e ∈ discardEdits o settings) : Sound o e := by
  obtain ⟨f, hf, hfe⟩ := mem_discardEdits he
  obtain ⟨u, hu, hoffset, htext, -⟩ := discardAt?_eq_some h hf hfe
  obtain ⟨opener, -, hopener, -, -, -, -, -, hbody, -⟩ :=
    h.braces (Outline.mem_functions_iff.mp hf).1
  have hmem := h.mem_tokens hopener
  refine ⟨?_, fun t ht => ?_, ?_⟩
  · rw [hoffset, hbody]
    exact (h.bounds hmem).2
  · rw [hoffset, hbody]
    exact (h.not_inside hmem ht).2
  · rw [htext]
    exact discardText_ne_nil (by simpa using params_ne_nil hu)

/-- **So is a completion.** -/
theorem sound_completion (h : o.Valid) (he : e ∈ switchEdits o settings) : Sound o e := by
  obtain ⟨s, hs, hse⟩ := mem_switchEdits he
  obtain ⟨m, -, hoffset, htext⟩ := completionAt?_eq_some h hs hse
  obtain ⟨-, closer, -, hcloser, -, -, -, -, -, hclose⟩ :=
    h.braces (Outline.mem_switches_iff.mp hs).1
  have hmem := h.mem_tokens hcloser
  refine ⟨?_, fun t ht => ?_, ?_⟩
  · rw [hoffset, hclose]
    have := h.bounds hmem
    omega
  · rw [hoffset, hclose]
    exact (h.not_inside hmem ht).1
  · rw [htext]
    split_ifs
    · exact labelLines_ne_nil
    · exact labelsInline_ne_nil

theorem sound_edit (h : o.Valid) (he : e ∈ discardEdits o settings ∨ e ∈ switchEdits o settings) :
    Sound o e :=
  he.elim (sound_discard h) (sound_completion h)

end Plan

namespace Edit

/-! ## Ordering and applying -/

/-- Edits at different places are put in strict order. -/
theorem pairwise_sort {edits : List Edit} (h : edits.Pairwise fun a b => a.offset ≠ b.offset) :
    (sort edits).Pairwise fun a b => a.offset < b.offset := by
  have hne : (sort edits).Pairwise fun a b => a.offset ≠ b.offset :=
    h.perm (List.mergeSort_perm edits before).symm fun hab => hab.symm
  exact (pairwise_sort_offset edits).imp₂ (fun _ _ hle hne => Nat.lt_of_le_of_ne hle hne) hne

/-- **Sound edits at different places pass the check**, and come back in order. -/
theorem check_eq_ok {o : Outline} (h : o.Valid) {edits : List Edit}
    (hne : edits.Pairwise fun a b => a.offset ≠ b.offset) (hsound : ∀ e ∈ edits, Plan.Sound o e) :
    check o edits = .ok (sort edits) :=
  (check_eq_ok_iff h).mpr ⟨rfl, fun e he => ⟨(hsound e he).offset_le, (hsound e he).between⟩,
    hne.imp fun hab hrivals => hab hrivals.1⟩

/-- Nothing is lost, and every text is added. -/
theorem Spliced.length_eq {cursor : Nat} {rest output : Bytes} {edits : List Edit}
    (h : Spliced cursor rest edits output) :
    output.length = rest.length + (edits.flatMap (·.text)).length := by
  induction h with
  | done cursor rest => simp
  | insert gap place tail ih =>
    simp only [List.length_append, List.flatMap_cons, ih]
    omega

/-- Edits with a text change the buffer, and only these do. -/
theorem Spliced.output_eq_iff {cursor : Nat} {rest output : Bytes} {edits : List Edit}
    (h : Spliced cursor rest edits output) (htext : ∀ e ∈ edits, e.text ≠ []) :
    output = rest ↔ edits = [] := by
  constructor
  · intro heq
    cases edits with
    | nil => rfl
    | cons e edits =>
      have hlen := h.length_eq
      have := List.length_pos_iff.mpr (htext e (by simp))
      rw [heq, List.flatMap_cons, List.length_append] at hlen
      omega
  · rintro rfl
    cases h
    rfl

end Edit

/-! ## Runs -/

/-- **The plan for an outline is never refused**, and its edits are put in in strict order. -/
theorem Plan.exists_applied {o : Outline} (h : o.Valid) (settings : Settings) :
    ∃ edits output, Transform.applied o settings (o.findings settings) = .ok (edits, output) ∧
      edits.Pairwise (fun a b => a.offset < b.offset) ∧
      (∀ e, e ∈ edits ↔ Planned o settings e) ∧ Edit.Spliced 0 o.source edits output := by
  let drafted := draft o settings (o.findings settings).unused
    (o.findings settings).coverage.omissions
  have hsub : drafted.Sublist (discardEdits o settings ++ switchEdits o settings) := by
    rw [show drafted = _ from draft_findings o settings]
    refine List.Sublist.append ?_ ?_ <;> split_ifs <;> simp
  have hne : drafted.Pairwise fun a b => a.offset ≠ b.offset := (pairwise_edits h).sublist hsub
  have hsound : ∀ e ∈ drafted, Sound o e := fun e he =>
    sound_edit h (mem_draft_iff.mp he).mem
  have hsorted := Edit.pairwise_sort hne
  have hbounds : ∀ e ∈ Edit.sort drafted, 0 ≤ e.offset ∧ e.offset ≤ 0 + o.source.length := by
    intro e he
    rw [Nat.zero_add]
    exact ⟨Nat.zero_le _, (hsound e (Edit.mem_sort.mp he)).offset_le⟩
  obtain ⟨output, houtput⟩ := Edit.exists_spliced (hsorted.imp Nat.le_of_lt) hbounds
  exact ⟨Edit.sort drafted, output, Transform.applied_eq_ok_iff.mpr
    ⟨Edit.check_eq_ok h hne hsound, Edit.apply_eq_ok_iff.mpr houtput⟩,
    hsorted, fun e => Edit.mem_sort.trans mem_draft_iff, houtput⟩

/-- **A result that carries out the plan for an outline**: its edits are the planned ones in strict
order, and its output is the buffer with them put in. -/
structure Transformed.CarriesOut (t : Transformed) (settings : Settings) (o : Outline) : Prop where
  check : settings.check = .ok ()
  valid : o.Valid
  ordered : t.edits.Pairwise fun a b => a.offset < b.offset
  planned : ∀ e, e ∈ t.edits ↔ Plan.Planned o settings e
  spliced : Edit.Spliced 0 o.source t.edits t.output

/-- Every run carries out the plan for its buffer. -/
theorem exists_carriesOut {settings : Settings} {source : Bytes} {t : Transformed}
    (h : transform settings source = .ok t) : ∃ o, o.source = source ∧ t.CarriesOut settings o := by
  obtain ⟨o, houtline, happlied, -⟩ := transform_eq_ok_iff.mp h
  obtain ⟨hcheck, hsource⟩ := Transform.outline_eq_ok_iff.mp houtline
  obtain ⟨rfl, hvalid⟩ := Outline.ofSource_eq_ok_iff_valid.mp hsource
  obtain ⟨edits, output, happlied', hordered, hplanned, hspliced⟩ :=
    Plan.exists_applied hvalid settings
  rw [happlied, Except.ok.injEq, Prod.mk.injEq] at happlied'
  obtain ⟨rfl, rfl⟩ := happlied'
  exact ⟨o, rfl, hcheck, hvalid, hordered, hplanned, hspliced⟩

/-- A result whose edits are in strict order, between tokens and not empty, so that it differs from
the buffer exactly if there are any. -/
structure Transformed.Orderly (source : Bytes) (tokens : List Token) (t : Transformed) : Prop where
  ordered : (t.edits.map (·.offset)).Pairwise (· < ·)
  between : ∀ e ∈ t.edits, ∀ k ∈ tokens, ¬(k.start < e.offset ∧ e.offset < k.stop)
  text_ne : ∀ e ∈ t.edits, e.text ≠ []
  changed_iff : t.changed = true ↔ t.output ≠ source

/-- **A run of what tokenizes and pairs succeeds**, and what it does is in order. -/
theorem exists_transform {settings : Settings} {source : Bytes} {tokens : List Token} {o : Outline}
    (hcheck : settings.check = .ok ()) (htokens : tokenize source = .ok tokens)
    (houtline : Outline.ofTokens source tokens = .ok o) :
    ∃ t, transform settings source = .ok t ∧ t.Orderly source tokens := by
  have hsource : Outline.ofSource source = .ok o :=
    Outline.ofSource_eq_ok_iff.mpr ⟨tokens, htokens, houtline⟩
  obtain ⟨rfl, hvalid⟩ := Outline.ofSource_eq_ok_iff_valid.mp hsource
  obtain rfl : o.tokens = tokens := by
    have := hvalid.tokenized
    rw [htokens] at this
    exact (Except.ok.inj this).symm
  obtain ⟨edits, output, happlied, hsorted, hplanned, hspliced⟩ :=
    Plan.exists_applied hvalid settings
  have hsound : ∀ e ∈ edits, Plan.Sound o e := fun e he =>
    Plan.sound_edit hvalid ((hplanned e).mp he).mem
  refine ⟨⟨output, edits, Transform.diagnostics o.source
    ((o.findings settings).coverage.warnings o)⟩, transform_eq_ok_iff.mpr
      ⟨o, Transform.outline_eq_ok_iff.mpr ⟨hcheck, hsource⟩, happlied, rfl⟩, ?_, ?_, ?_, ?_⟩
  · exact List.pairwise_map.mpr hsorted
  · exact fun e he => (hsound e he).between
  · exact fun e he => (hsound e he).text_ne
  · rw [ne_eq, hspliced.output_eq_iff fun e he => (hsound e he).text_ne, Transformed.changed]
    cases edits <;> simp

/-- A run fails with the fault of the outline. -/
theorem transform_of_outline_error {settings : Settings} {source : Bytes} {fault : Fault}
    (h : Transform.outline settings source = .error fault) :
    transform settings source = .error [fault.diagnostic (LineTable.ofSource source)] := by
  rw [transform, h]
  rfl

/-- **A run fails only for its settings, its tokens or its brackets**, looked at in this order, with
the one diagnostic of that fault; any other run gives orderly edits. -/
theorem transform_fails_or_orderly (settings : Settings) (source : Bytes) :
    (match settings.check with
      | .error fault =>
        transform settings source = .error [fault.fault.diagnostic (LineTable.ofSource source)]
      | .ok _ =>
        match tokenize source with
        | .error fault =>
          transform settings source = .error [fault.fault.diagnostic (LineTable.ofSource source)]
        | .ok tokens =>
          match Outline.ofTokens source tokens with
          | .error fault =>
            transform settings source = .error [fault.fault.diagnostic (LineTable.ofSource source)]
          | .ok _ => ∃ t, transform settings source = .ok t ∧ t.Orderly source tokens) ∧
      ∀ diagnostics, transform settings source = .error diagnostics →
        ∀ d ∈ diagnostics, d.code ≠ "overlapping_edit" := by
  have hother : ∀ fault : Fault, fault.code ≠ "overlapping_edit" →
      transform settings source = .error [fault.diagnostic (LineTable.ofSource source)] →
      ∀ diagnostics, transform settings source = .error diagnostics →
        ∀ d ∈ diagnostics, d.code ≠ "overlapping_edit" := by
    intro fault hcode hrun diagnostics herror d hd
    rw [hrun, Except.error.injEq] at herror
    rw [← herror, List.mem_singleton] at hd
    rw [hd]
    exact hcode
  cases hcheck : settings.check with
  | error fault =>
    have hrun : transform settings source = _ :=
      transform_of_outline_error (by rw [Transform.outline, hcheck])
    exact ⟨hrun, hother fault.fault (show "config_error" ≠ "overlapping_edit" by decide) hrun⟩
  | ok _ =>
    cases htokens : tokenize source with
    | error fault =>
      have hrun : transform settings source = _ :=
        transform_of_outline_error (by rw [Transform.outline, hcheck, Outline.ofSource, htokens])
      exact ⟨hrun, hother fault.fault (show "lex_error" ≠ "overlapping_edit" by decide) hrun⟩
    | ok tokens =>
      dsimp only
      cases houtline : Outline.ofTokens source tokens with
      | error fault =>
        have houtline' : Transform.outline settings source = .error fault.fault := by
          rw [Transform.outline, hcheck, Outline.ofSource, htokens]
          dsimp only
          rw [houtline]
        have hrun := transform_of_outline_error houtline'
        have hword : "structural_error" ≠ "overlapping_edit" := by decide
        exact ⟨hrun, hother fault.fault hword hrun⟩
      | ok o =>
        obtain ⟨t, hrun, horderly⟩ := exists_transform hcheck htokens houtline
        refine ⟨⟨t, hrun, horderly⟩, fun diagnostics herror => ?_⟩
        rw [hrun] at herror
        cases herror

end Quell
