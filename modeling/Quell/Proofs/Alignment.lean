import Mathlib.Tactic.Common
import Quell.Proofs.Newlines
import Quell.Proofs.Position

/-!
# Proofs/Alignment — labels and the brace after them, in the result

Labels on lines of their own are put in after the indentation of the closing brace.  No other text
goes there (`Edit.Sited`), so what the line of the brace starts with in the buffer is what the first
label starts with in the result, and each further label and the brace itself start a line of the
text.  The first label is brought to its place from there, which works only if it stands deeper than
the brace.
-/

namespace Quell

/-! ## Lines -/

namespace Line

variable {front line blanks text back : Bytes}

/-- What stands between a newline and an offset is what stands before the offset on its line. -/
theorem before_append (hfront : front.getLast? = some Byte.newline) (hline : Byte.newline ∉ line) :
    before (front ++ (line ++ back)) (front.length + line.length) = line.reverse := by
  obtain ⟨rest, rfl⟩ := List.getLast?_eq_some_iff.mp hfront
  have hkeep : ∀ c ∈ line.reverse, (c != Byte.newline) = true := by
    intro c hc
    rw [bne_iff_ne]
    rintro rfl
    exact hline (List.mem_reverse.mp hc)
  rw [before, ← List.length_append, ← List.append_assoc, List.take_left, List.reverse_append,
    List.takeWhile_append_of_pos hkeep]
  simp

/-- A line starts after the newline before it. -/
theorem start_append (hfront : front.getLast? = some Byte.newline) (hline : Byte.newline ∉ line) :
    start (front ++ (line ++ back)) (front.length + line.length) = front.length := by
  rw [start, before_append hfront hline]
  simp only [List.length_append, List.length_reverse]
  omega

/-- **The text stands at the offset**, first on its line, after this indentation. -/
structure Opens (source : Bytes) (offset : Nat) (indentation text : Bytes) : Prop where
  stands : text <+: source.drop offset
  starts_line : starts source offset = true
  indent_eq : indent source offset = indentation

/-- A text after the blanks of its line opens that line. -/
theorem opens_append (hfront : front.getLast? = some Byte.newline)
    (hblanks : ∀ b ∈ blanks, Byte.isBlank b = true)
    (htext : ∃ b ∈ text.head?, Byte.isBlank b = false) :
    Opens (front ++ (blanks ++ (text ++ back))) (front.length + blanks.length) blanks text := by
  have hline : Byte.newline ∉ blanks := fun hmem => absurd (hblanks _ hmem) (by decide)
  obtain ⟨b, hb, hnone⟩ := htext
  obtain ⟨more, rfl⟩ := List.head?_eq_some_iff.mp hb
  refine ⟨?_, ?_, ?_⟩
  · rw [← List.length_append, ← List.append_assoc, List.drop_left]
    exact List.prefix_append _ _
  · rw [starts, before_append hfront hline, List.all_reverse, List.all_eq_true]
    exact hblanks
  · rw [indent, start_append hfront hline, List.drop_left, List.takeWhile_append_of_pos hblanks,
      List.cons_append, List.takeWhile_cons_of_neg (by simp [hnone]), List.append_nil]

/-- **Texts in rows**: they stand at the places in order, each first on its line after the same
indentation. -/
structure Rows (source indentation : Bytes) (places : List Nat) (texts : List Bytes) : Prop where
  ordered : places.Pairwise (· < ·)
  opens : List.Forall₂ (fun p s => Opens source p indentation s) places texts

end Line

/-! ## Cutting an output -/

namespace Edit

/-- **The output of edits, cut where no text goes** or at the one place where one goes: what becomes
of the bytes before, and what becomes of those after. -/
theorem Spliced.cut {cursor : Nat} {x y output : Bytes} {front back : List Edit}
    (h : Spliced cursor (x ++ y) (front ++ back) output)
    (hfront : ∀ e ∈ front, e.offset ≤ cursor + x.length)
    (hback : ∀ e ∈ back, cursor + x.length ≤ e.offset) :
    ∃ u w, output = u ++ w ∧ Spliced cursor x front u ∧ Spliced (cursor + x.length) y back w := by
  induction front generalizing cursor x output with
  | nil =>
    rw [List.nil_append] at h
    generalize hbytes : x ++ y = bytes at h
    cases h with
    | done =>
      subst hbytes
      exact ⟨x, y, rfl, .done _ _, .done _ _⟩
    | @insert _ gap e rest output edits place tail =>
      have hle := hback e (by simp)
      obtain ⟨gap', rfl⟩ : x <+: gap :=
        List.prefix_of_prefix_length_le ⟨y, hbytes⟩ ⟨rest, rfl⟩ (by omega)
      rw [List.append_assoc, List.append_cancel_left_eq] at hbytes
      rw [List.length_append, ← Nat.add_assoc] at place
      rw [hbytes]
      exact ⟨x, _, List.append_assoc .., .done _ _, .insert gap' place tail⟩
  | cons e front ih =>
    rw [List.cons_append] at h
    generalize hbytes : x ++ y = bytes at h
    cases h with
    | @insert _ gap _ rest output _ place tail =>
      have hle := hfront e (by simp)
      obtain ⟨x', rfl⟩ : gap <+: x :=
        List.prefix_of_prefix_length_le ⟨rest, rfl⟩ ⟨y, hbytes⟩ (by omega)
      rw [List.append_assoc, List.append_cancel_left_eq] at hbytes
      subst hbytes
      have hlen : cursor + (gap ++ x').length = e.offset + x'.length := by
        rw [List.length_append, place, Nat.add_assoc]
      rw [hlen] at hfront hback ⊢
      obtain ⟨u, w, rfl, hu, hw⟩ := ih tail (fun d hd => hfront d (by simp [hd])) hback
      refine ⟨gap ++ (e.text ++ u), w, by simp, .insert gap place hu, hw⟩

/-- Where the text of an edit starts in the output. -/
def place (edits : List Edit) (offset : Nat) : Nat :=
  offset + ((edits.filter (·.offset < offset)).flatMap (·.text)).length

/-- The edit goes right after an opening brace or right before a closing one. -/
def Sited (source : Bytes) (e : Edit) : Prop :=
  0 < e.offset ∧ source[e.offset - 1]? = some 123 ∨ source[e.offset]? = some 125

/-- A text that goes first is the front of the output. -/
theorem Spliced.of_offset_eq {rest output : Bytes} {e : Edit} {edits : List Edit}
    (h : Spliced e.offset rest (e :: edits) output) :
    ∃ w, output = e.text ++ w ∧ Spliced e.offset rest edits w := by
  cases h with
  | insert gap place tail =>
    obtain rfl : gap = [] := List.length_eq_zero_iff.mp (by omega)
    exact ⟨_, rfl, tail⟩

/-- **An output around one of its texts**: what became of the bytes before it, the text, and what
became of the bytes after it. -/
theorem Spliced.around {source output : Bytes} {edits : List Edit} {e : Edit}
    (h : Spliced 0 source edits output) (hordered : edits.Pairwise fun a b => a.offset < b.offset)
    (he : e ∈ edits) (hle : e.offset ≤ source.length) :
    ∃ u w back, output = u ++ (e.text ++ w) ∧ u.length = place edits e.offset ∧
      Spliced 0 (source.take e.offset) (edits.filter (·.offset < e.offset)) u ∧
      (∀ d ∈ back, e.offset < d.offset) ∧ Spliced e.offset (source.drop e.offset) back w := by
  obtain ⟨front, back, rfl⟩ := List.append_of_mem he
  obtain ⟨-, hback, hbetween⟩ := List.pairwise_append.mp hordered
  have hbefore : ∀ d ∈ front, d.offset < e.offset := fun d hd => hbetween d hd e (by simp)
  have hafter : ∀ d ∈ back, e.offset < d.offset := (List.pairwise_cons.mp hback).1
  have hfilter : (front ++ e :: back).filter (·.offset < e.offset) = front := by
    have hnone : back.filter (·.offset < e.offset) = [] := by
      rw [List.filter_eq_nil_iff]
      intro d hd
      have := hafter d hd
      simpa using Nat.le_of_lt this
    rw [List.filter_append, List.filter_eq_self.mpr (by simpa using hbefore),
      List.filter_cons_of_neg (by simp), hnone, List.append_nil]
  have hlen : (source.take e.offset).length = e.offset := List.length_take_of_le hle
  rw [← List.take_append_drop e.offset source] at h
  obtain ⟨u, w, rfl, hu, hw⟩ := h.cut
    (fun d hd => by rw [hlen, Nat.zero_add]; exact Nat.le_of_lt (hbefore d hd))
    (fun d hd => by
      rw [hlen, Nat.zero_add]
      rcases List.mem_cons.mp hd with rfl | hd
      · exact Nat.le_refl _
      · exact Nat.le_of_lt (hafter d hd))
  rw [hlen, Nat.zero_add] at hw
  obtain ⟨v, rfl, hv⟩ := hw.of_offset_eq
  refine ⟨u, v, back, rfl, ?_, by rwa [hfilter], hafter, hv⟩
  rw [place, hfilter, hu.length_eq, hlen]

theorem Spliced.eq_of_nil {cursor : Nat} {rest output : Bytes} (h : Spliced cursor rest [] output) :
    output = rest :=
  (Except.ok.inj h.spliceFrom_eq).symm

/-- What stands before all texts stays in front. -/
theorem Spliced.head {cursor : Nat} {b : UInt8} {rest output : Bytes} {edits : List Edit}
    (h : Spliced cursor (b :: rest) edits output) (hahead : ∀ e ∈ edits, cursor < e.offset) :
    ∃ tail, output = b :: tail := by
  have hcut : Spliced cursor ([b] ++ rest) ([] ++ edits) output := h
  obtain ⟨u, w, rfl, hu, -⟩ := hcut.cut (by simp) hahead
  cases hu.eq_of_nil
  exact ⟨w, rfl⟩

end Edit

/-! ## The line of the brace -/

/-- **The line of a closing brace that starts it**: after a newline there is nothing but the
indentation. -/
theorem Region.Cut.exists_line {source front body back : Bytes} {r : Region}
    (h : r.Cut source front body back) (hstarts : Line.starts source r.closeOffset = true) :
    ∃ upper, source.take r.closeOffset =
      upper ++ Byte.newline :: Line.indent source r.closeOffset := by
  obtain ⟨upper, line, htake, -, hbefore, -, hupper⟩ := Line.exists_start source r.closeOffset
  rw [Line.starts, hbefore, List.all_reverse, List.all_eq_true] at hstarts
  rcases hupper with rfl | hupper
  · -- The opening brace is no blank, so the line cannot start where the buffer does.
    rw [List.nil_append, h.at_closeOffset.1] at htake
    exact absurd (hstarts 123 (by rw [← htake]; simp)) (by decide)
  · have hopens : Line.Opens (upper ++ (line ++ ([125] ++ back))) (upper.length + line.length) line
        [125] := Line.opens_append hupper hstarts ⟨125, rfl, by decide⟩
    have hlen : upper.length + line.length = r.closeOffset := by
      have := congrArg List.length htake
      rw [List.length_append, List.length_take, h.source_eq] at this
      rw [← this, h.closeOffset_eq]
      simp
      omega
    rw [List.singleton_append, ← List.append_assoc, ← htake, ← h.at_closeOffset.2,
      List.take_append_drop, hlen] at hopens
    obtain ⟨rest, rfl⟩ := List.getLast?_eq_some_iff.mp hupper
    exact ⟨rest, by rw [htake, hopens.indent_eq, ← List.append_cons]⟩

/-- **No other text goes into the indentation of a brace.** -/
theorem Edit.Sited.le_of_lt {source upper blanks : Bytes} {e : Edit} {offset : Nat}
    (h : e.Sited source) (htake : source.take offset = upper ++ Byte.newline :: blanks)
    (hblanks : ∀ b ∈ blanks, Byte.isBlank b = true) (hlt : e.offset < offset) :
    e.offset ≤ upper.length := by
  by_contra hgt
  have hbyte : ∀ {k : Nat} {b : UInt8}, upper.length ≤ k → k < offset → source[k]? = some b →
      b = Byte.newline ∨ Byte.isBlank b = true := by
    intro k b hle hlt hk
    rw [← List.getElem?_take_of_lt hlt, htake, List.getElem?_append_right hle] at hk
    exact (List.mem_cons.mp (List.mem_of_getElem? hk)).imp_right (hblanks b)
  rcases h with ⟨hpos, hopen⟩ | hclose
  · rcases hbyte (by omega) (by omega) hopen with h | h <;> exact absurd h (by decide)
  · rcases hbyte (by omega) hlt hclose with h | h <;> exact absurd h (by decide)

namespace Plan

variable {o : Outline} {settings : Settings} {e : Edit}

/-- **An edit stands at its brace.** -/
theorem sited_edit (h : o.Valid) (he : e ∈ discardEdits o settings ∨ e ∈ switchEdits o settings) :
    e.Sited o.source := by
  rcases he with he | he
  · obtain ⟨f, hf, hfe⟩ := mem_discardEdits he
    obtain ⟨u, -, hoffset, -⟩ := discardAt?_eq_some h hf hfe
    obtain ⟨front, body, back, hcut⟩ := h.exists_cut_region (Outline.mem_functions_iff.mp hf).1
    rw [Edit.Sited, hoffset, hcut.bodyOffset_eq, Nat.add_sub_cancel, hcut.source_eq]
    exact .inl ⟨Nat.succ_pos _, by simp⟩
  · obtain ⟨s, hs, hse⟩ := mem_switchEdits he
    obtain ⟨m, -, hoffset, -⟩ := completionAt?_eq_some h hs hse
    obtain ⟨front, body, back, hcut⟩ := h.exists_cut_region (Outline.mem_switches_iff.mp hs).1
    have hhead := congrArg List.head? hcut.at_closeOffset.2
    rw [List.head?_drop] at hhead
    rw [Edit.Sited, hoffset]
    exact .inr hhead

/-! ## The text of a completion -/

/-- A label starts with a letter. -/
theorem head_label {m : Omission} :
    ∀ s ∈ (labels settings m).1, ∃ b ∈ s.head?, Byte.isBlank b = false := by
  rw [labels]
  split
  · exact List.forall_mem_singleton.mpr ⟨100, by decide, by decide⟩
  · intro s hs
    obtain ⟨e, -, rfl⟩ := List.mem_map.mp hs
    have hcase : (utf8 "case ").head? = some 99 := by decide
    refine ⟨99, ?_, by decide⟩
    rw [utf8_append, utf8_append, List.head?_append, List.head?_append, hcase]
    rfl

theorem labels_ne_nil {m : Omission} (hm : m ∈ (o.coverage o.enumerations).omissions) :
    (labels settings m).1 ≠ [] := by
  obtain ⟨⟨s, verdict⟩, -, hm⟩ := List.mem_filterMap.mp hm
  dsimp only at hm
  rw [Coverage.omission?.eq_def] at hm
  split at hm
  · split_ifs at hm with hempty
    cases hm
    rw [labels]
    split
    · simp
    · simpa using hempty
  · cases hm

theorem getLast?_newline (o : Outline) : (newline o).getLast? = some Byte.newline := by
  rw [newline]
  cases Line.ending o.source <;> decide

end Plan

/-- **Labels with newlines and indentation between them are rows**; the first is where its own
indentation brings it. -/
theorem Line.rows_joinWith {nl indentation start front back first : Bytes} {others : List Bytes}
    (hnl : nl.getLast? = some Byte.newline)
    (hindentation : ∀ b ∈ indentation, Byte.isBlank b = true)
    (hstart : ∀ b ∈ start, Byte.isBlank b = true)
    (htexts : ∀ s ∈ first :: others, ∃ b ∈ s.head?, Byte.isBlank b = false)
    (hfront : front.getLast? = some Byte.newline) {output joined : Bytes}
    (hjoined : joined = Plan.joinWith (nl ++ indentation) (first :: others))
    (houtput : output = front ++ (start ++ (joined ++ back))) :
    Opens output (front.length + start.length) start first ∧ ∃ places,
      Rows output indentation places others ∧ ∀ p ∈ places, front.length + start.length < p ∧
        p ≤ front.length + start.length + joined.length := by
  induction others generalizing front start first output joined with
  | nil =>
    rw [Plan.joinWith, List.intercalate_singleton] at hjoined
    rw [houtput, hjoined]
    exact ⟨opens_append hfront hstart (htexts first (by simp)), [], ⟨.nil, .nil⟩, by simp⟩
  | cons next others ih =>
    rw [Plan.joinWith, List.intercalate_cons_cons] at hjoined
    have hopens : Opens output (front.length + start.length) start first := by
      rw [houtput, hjoined, List.append_assoc, List.append_assoc]
      exact opens_append hfront hstart (htexts first (by simp))
    have hfront' : (front ++ (start ++ (first ++ nl))).getLast? = some Byte.newline := by
      simp [List.getLast?_append, hnl]
    have houtput' : output = front ++ (start ++ (first ++ nl)) ++ (indentation ++
        (Plan.joinWith (nl ++ indentation) (next :: others) ++ back)) := by
      rw [houtput, hjoined, Plan.joinWith]
      simp only [List.append_assoc]
    have hnext := ih hindentation (fun s hs => htexts s (List.mem_cons_of_mem first hs)) hfront' rfl
      houtput'
    have hpos : 0 < first.length := by
      obtain ⟨b, hb, -⟩ := htexts first (by simp)
      exact List.length_pos_of_mem (List.mem_of_mem_head? hb)
    have hlen : joined.length = first.length + nl.length + indentation.length +
        (Plan.joinWith (nl ++ indentation) (next :: others)).length := by
      rw [hjoined, Plan.joinWith]
      simp only [List.length_append]
      omega
    simp only [List.length_append] at hnext
    obtain ⟨hopens', places, hrows, hbounds⟩ := hnext
    refine ⟨hopens, _ :: places, ⟨List.pairwise_cons.mpr ⟨fun p hp => (hbounds p hp).1,
      hrows.ordered⟩, .cons hopens' hrows.opens⟩, fun p hp => ?_⟩
    rcases List.mem_cons.mp hp with rfl | hp
    · omega
    · have := hbounds p hp
      omega

/-- What brings a label to its place does so if the place is deeper than the brace. -/
theorem Plan.append_lead_eq_iff (brace indentation unit : Bytes) :
    brace ++ lead brace indentation unit = indentation ↔ brace <+: indentation := by
  rw [lead]
  split_ifs with hprefix
  · rw [List.isPrefixOf_iff_prefix] at hprefix
    obtain ⟨rest, rfl⟩ := hprefix
    simp
  · rw [List.isPrefixOf_iff_prefix] at hprefix
    exact iff_of_false (fun heq => hprefix ⟨unit, heq⟩) hprefix

theorem Plan.category_discard {o : Outline} {settings : Settings} {e : Edit}
    (he : e ∈ discardEdits o settings) : e.category = .unusedParamDiscard := by
  obtain ⟨u, -, hedit⟩ := List.mem_filterMap.mp he
  obtain ⟨r, -, rfl⟩ := Option.map_eq_some_iff.mp hedit
  rfl

/-- **A text of labels, seen from the line of the brace**: that line goes to the first label, and
the last line of the text is left for the brace. -/
theorem Plan.opens_labelLines {o : Outline} {settings : Settings} {r : Region} {m : Omission}
    {upper tail first text output brace indentation : Bytes} {others : List Bytes}
    (hupper : upper.getLast? = some Byte.newline)
    (htexts : ∀ s ∈ first :: others, ∃ b ∈ s.head?, Byte.isBlank b = false)
    (hbrace : brace = Line.indent o.source r.closeOffset)
    (hindentation : indentation = labelIndent o settings brace m)
    (htext : text = labelLines o settings r m (first :: others))
    (houtput : output = upper ++ (brace ++ (text ++ 125 :: tail))) :
    Line.Opens output (upper.length + brace.length + text.length) brace [125] ∧
      ∃ p places start, Line.Opens output p start first ∧
        (start = indentation ↔ brace <+: indentation) ∧
        Line.Rows output indentation places others ∧ upper.length + brace.length ≤ p ∧
        ∀ q ∈ places, p < q ∧ q < upper.length + brace.length + text.length := by
  have hbraceBlank : ∀ b ∈ brace, Byte.isBlank b = true := fun b hb =>
    isBlank_of_mem_indent (hbrace ▸ hb)
  have hindentBlank : ∀ b ∈ indentation, Byte.isBlank b = true := by
    intro b hb
    rw [hindentation, hbrace] at hb
    exact isBlank_of_mem_labelIndent hb
  rw [labelLines] at htext
  rw [← hbrace, ← hindentation] at htext
  generalize hlead : lead brace indentation (unit settings indentation) = leading at htext
  generalize hjoined : joinWith (newline o ++ indentation) (first :: others) = joined at htext
  have hleadBlank : ∀ b ∈ leading, Byte.isBlank b = true := fun b hb =>
    isBlank_of_mem_lead hindentBlank (fun b hb => isBlank_of_mem_unit hb) (hlead ▸ hb)
  have hnewline := getLast?_newline o
  constructor
  · -- The last newline of the text is followed by the indentation of the brace.
    obtain ⟨above, habove⟩ : ∃ above, text = above ++ (newline o ++ brace) :=
      ⟨_, htext.trans (List.append_assoc ..)⟩
    have hlast : (upper ++ (brace ++ (above ++ newline o))).getLast? = some Byte.newline := by
      simp [List.getLast?_append, hnewline]
    have hsame :
        output = upper ++ (brace ++ (above ++ newline o)) ++ (brace ++ ([125] ++ tail)) := by
      rw [houtput, habove]
      simp only [List.append_assoc, List.singleton_append]
    have hplace : upper.length + brace.length + text.length =
        (upper ++ (brace ++ (above ++ newline o))).length + brace.length := by
      rw [habove]
      simp only [List.length_append]
      omega
    rw [hsame, hplace]
    exact Line.opens_append hlast hbraceBlank ⟨125, rfl, by decide⟩
  · obtain ⟨below, hbelow, hpos⟩ : ∃ below, text = leading ++ (joined ++ below) ∧
        0 < below.length := by
      refine ⟨newline o ++ (indentation ++ (unit settings indentation ++ (utf8 "break;" ++
        (utf8 settings.commentMarker ++ (newline o ++ brace))))), ?_, ?_⟩
      · rw [htext]
        simp only [List.append_assoc]
      · have := List.length_pos_iff.mpr (newline_ne_nil o)
        rw [List.length_append]
        omega
    have hsame : output = upper ++ ((brace ++ leading) ++ (joined ++ (below ++ 125 :: tail))) := by
      rw [houtput, hbelow]
      simp only [List.append_assoc]
    obtain ⟨hopens, places, hrows, hbounds⟩ := Line.rows_joinWith hnewline hindentBlank
      (List.forall_mem_append.mpr ⟨hbraceBlank, hleadBlank⟩) htexts hupper hjoined.symm hsame
    have hlen : text.length = leading.length + (joined.length + below.length) := by
      rw [hbelow, List.length_append, List.length_append]
    rw [List.length_append] at hopens hbounds
    refine ⟨_, places, brace ++ leading, hopens, ?_, hrows, by omega, fun q hq => ?_⟩
    · rw [← hlead]
      exact append_lead_eq_iff _ _ _
    · have := hbounds q hq
      omega

/-- **The result around the text of a completion**: before it the line of the brace, after it the
brace. -/
theorem Transformed.CarriesOut.exists_line {settings : Settings} {o : Outline} {t : Transformed}
    (h : t.CarriesOut settings o) {e : Edit} (he : e ∈ t.edits) {r : Region}
    (hr : r ∈ o.forest.toList) (hoffset : e.offset = r.closeOffset)
    (hstarts : Line.starts o.source e.offset = true) :
    ∃ upper tail, t.output = upper ++ [Byte.newline] ++
        (Line.indent o.source e.offset ++ (e.text ++ 125 :: tail)) ∧
      (upper ++ [Byte.newline]).length + (Line.indent o.source e.offset).length =
        Edit.place t.edits e.offset := by
  have hplanned : ∀ d ∈ t.edits,
      d ∈ Plan.discardEdits o settings ∨ d ∈ Plan.switchEdits o settings :=
    fun d hd => ((h.planned d).mp hd).mem
  obtain ⟨front, body, back, hcut⟩ := h.valid.exists_cut_region hr
  obtain ⟨upper, hline⟩ := hcut.exists_line (hoffset ▸ hstarts)
  rw [← hoffset] at hline
  obtain ⟨u, w, later, houtput, hplace, hbefore, hlater, hafter⟩ :=
    h.spliced.around h.ordered he (Plan.sound_edit h.valid (hplanned e he)).offset_le
  -- No text goes between the newline and the brace.
  have hfar : ∀ d ∈ t.edits.filter (·.offset < e.offset), d.offset ≤ 0 + upper.length := by
    intro d hd
    rw [List.mem_filter, decide_eq_true_eq] at hd
    rw [Nat.zero_add]
    exact (Plan.sited_edit h.valid (hplanned d hd.1)).le_of_lt hline
      (fun b hb => isBlank_of_mem_indent hb) hd.2
  rw [hline, ← List.append_nil (List.filter _ _)] at hbefore
  obtain ⟨upper', rest, rfl, -, hrest⟩ := hbefore.cut hfar (by simp)
  rw [hoffset, hcut.at_closeOffset.2, ← hoffset] at hafter
  obtain ⟨tail, rfl⟩ := hafter.head hlater
  refine ⟨upper', tail, ?_, ?_⟩
  · rw [houtput, hrest.eq_of_nil]
    simp only [List.append_assoc, List.cons_append, List.nil_append]
  · rw [← hplace, hrest.eq_of_nil]
    simp only [List.length_append, List.length_cons, List.length_nil]
    omega

/-- **Labels on lines of their own start lines of the result.**  The closing brace of the switch
still starts its line, with its indentation.  The labels start lines in order; each but the first is
indented like the last label of the switch, and the first exactly if that indentation continues the
one of the brace, after which it is put in. -/
theorem labels_aligned {settings : Settings} {source : Bytes} {t : Transformed} {e : Edit}
    (h : transform settings source = .ok t) (he : e ∈ t.edits)
    (hswitch : e.category ≠ .unusedParamDiscard) :
    ∃ o m r, Outline.ofSource source = .ok o ∧ m ∈ (o.coverage o.enumerations).omissions ∧
      o.forest.get? m.region = some r ∧ e.offset = r.closeOffset ∧
      ∀ k, Line.starts source e.offset = true → m.lastLabel = some k →
        let brace := Line.indent source e.offset
        let aligned := Line.indent source (o.code.offset k)
        let place := Edit.place t.edits e.offset
        Line.Opens t.output (place + e.text.length) brace [125] ∧
        ∃ first others p places indentation, (Plan.labels settings m).1 = first :: others ∧
          Line.Opens t.output p indentation first ∧
          (indentation = aligned ↔ brace <+: aligned) ∧
          Line.Rows t.output aligned places others ∧ place ≤ p ∧
          ∀ q ∈ places, p < q ∧ q < place + e.text.length := by
  obtain ⟨o, rfl, hcarries⟩ := exists_carriesOut h
  have hcompletion : e ∈ Plan.switchEdits o settings :=
    ((hcarries.planned e).mp he).mem.resolve_left fun hdiscard =>
      hswitch (Plan.category_discard hdiscard)
  obtain ⟨m, hm, hedit⟩ := List.mem_filterMap.mp hcompletion
  obtain ⟨r, hr, hfields⟩ := Option.map_eq_some_iff.mp hedit
  have hoffset : e.offset = r.closeOffset := by rw [← hfields]
  refine ⟨o, m, r, Outline.ofSource_eq_ok_iff_valid.mpr ⟨rfl, hcarries.valid⟩, hm, hr, hoffset,
    fun k hstarts hk => ?_⟩
  intro brace aligned place
  obtain ⟨upper, tail, houtput, hplace⟩ :=
    hcarries.exists_line he (Forest.mem_of_get? hr) hoffset hstarts
  have hne : (Plan.labels settings m).1 ≠ [] := Plan.labels_ne_nil hm
  obtain ⟨first, others, hlabels⟩ := List.exists_cons_of_ne_nil hne
  have htext : e.text = Plan.labelLines o settings r m (first :: others) := by
    rw [← hlabels, ← hfields]
    exact if_pos (hoffset ▸ hstarts)
  have hindentation : aligned = Plan.labelIndent o settings brace m := by
    rw [Plan.labelIndent, hk]
  obtain ⟨hbrace, p, places, start, hopens, hstart, hrows, hle, hbounds⟩ :=
    Plan.opens_labelLines List.getLast?_concat (hlabels ▸ Plan.head_label) (hoffset ▸ rfl)
      hindentation htext houtput
  rw [hplace] at hbrace hle hbounds
  exact ⟨hbrace, first, others, p, places, start, hlabels, hopens, hstart, hrows, hle, hbounds⟩

/-- Two labels for a switch whose labels stand deeper than its brace. -/
theorem labels_aligned_deeper :
    ∃ t p places, transform { switches := { policy := .missingCases } }
        (utf8 "enum E \x7bA, B, C\x7d;\nvoid f(E e) \x7b\n  switch (e) \x7b\n    case A:\n"
          ++ utf8 "  \x7d\n\x7d") = .ok t ∧
      Line.Opens t.output p (utf8 "    ") (utf8 "case B:") ∧
      Line.Rows t.output (utf8 "    ") places [utf8 "case C:"] := by
  let source := utf8 "enum E \x7bA, B, C\x7d;\nvoid f(E e) \x7b\n  switch (e) \x7b\n    case A:\n"
    ++ utf8 "  \x7d\n\x7d"
  let edit : Edit :=
    ⟨61, utf8 "  case B:\n    case C:\n        break;\n  ", .missingCase, ["B", "C"]⟩
  have hrun : transform { switches := { policy := .missingCases } } source =
      .ok ⟨utf8 "enum E \x7bA, B, C\x7d;\nvoid f(E e) \x7b\n  switch (e) \x7b\n    case A:\n"
        ++ utf8 "    case B:\n    case C:\n        break;\n  \x7d\n\x7d", [edit], []⟩ := by
    decide +kernel
  obtain ⟨o, hsource, homissions⟩ := Outline.exists_ofSource source
    (fun o => (o.coverage o.enumerations).omissions.map fun m => (m.lastLabel.map o.code.offset,
      (Plan.labels { switches := { policy := .missingCases } } m).1))
    (a := [(some 51, [utf8 "case B:", utf8 "case C:"])]) (by decide +kernel)
  obtain ⟨o', m, r, hsource', hm, -, -, haligned⟩ :=
    labels_aligned hrun (List.mem_singleton.mpr rfl) (by decide)
  obtain rfl : o = o' := Except.ok.inj (hsource.symm.trans hsource')
  have hlast := List.mem_map_of_mem (f := fun m => (m.lastLabel.map o.code.offset,
    (Plan.labels { switches := { policy := .missingCases } } m).1)) hm
  rw [homissions, List.mem_singleton, Prod.mk.injEq] at hlast
  obtain ⟨k, hk, hoffset⟩ := Option.map_eq_some_iff.mp hlast.1
  have hindent : Line.indent source 51 = utf8 "    " := by decide +kernel
  have hbrace : Line.indent source 61 = utf8 "  " := by decide +kernel
  obtain ⟨-, first, others, p, places, start, hlabels, hopens, hstart, hrows, -⟩ :=
    haligned k (by decide +kernel) hk
  rw [hlast.2, List.cons.injEq] at hlabels
  obtain ⟨rfl, rfl⟩ := hlabels
  rw [hoffset, hindent] at hstart hrows
  exact ⟨_, p, places, hrun, hstart.mpr (by rw [hbrace]; decide) ▸ hopens, hrows⟩

/-- **A first label that is not aligned.**  The brace stands deeper than the last label, and the
first label deeper still. -/
theorem label_not_aligned :
    let source := utf8 "enum E \x7bA, B\x7d;\nvoid f(E e) \x7b\n  switch (e) \x7b\ncase A:\n"
      ++ utf8 "  \x7d\n\x7d"
    (∃ o, Outline.ofSource source = .ok o ∧
      (o.coverage o.enumerations).omissions.map (fun m => m.lastLabel.map o.code.offset) =
        [some 44]) ∧
    Line.starts source 54 = true ∧ Line.indent source 44 = [] ∧
    ∃ t, transform {} source = .ok t ∧
      t.edits = [⟨54, utf8 "    default:\n    break;\n  ", .missingDefault, ["B"]⟩] ∧
      Line.Opens t.output 58 (utf8 "      ") (utf8 "default:") := by
  intro source
  have hrun : transform {} source =
      .ok ⟨utf8 "enum E \x7bA, B\x7d;\nvoid f(E e) \x7b\n  switch (e) \x7b\ncase A:\n"
        ++ utf8 "      default:\n    break;\n  \x7d\n\x7d",
        [⟨54, utf8 "    default:\n    break;\n  ", .missingDefault, ["B"]⟩], []⟩ := by
    decide +kernel
  refine ⟨Outline.exists_ofSource _ _ (by decide +kernel), by decide +kernel, by decide +kernel,
    _, hrun, rfl, ?_, ?_, ?_⟩
  · decide +kernel
  · decide +kernel
  · decide +kernel

end Quell
