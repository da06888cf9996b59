import Mathlib.Tactic.Common
import Quell.Proofs.ReadBack

/-!
# Proofs/Newlines — the line ending of a buffer is that of its result

The style of a buffer is read off its first newline, and texts on lines of their own are written
with it.  Such a text goes where the buffer has a newline between the braces, so the style is that
of the whole buffer; any other text holds no newline.  Since `{` stands before a discard and `}`
after a completion, no text comes between a carriage return and its newline.
-/

namespace Quell

open Lexer

/-! ## Styles -/

namespace Line

/-- **All newlines are of one style**: a carriage return stands before each, or before none. -/
def Styled (style : Ending) (source : Bytes) : Prop :=
  ∀ front back, source = front ++ Byte.newline :: back →
    (front.getLast? = some Byte.carriage ↔ style = .crlf)

/-- The newlines of a stretch are of one style; `last` is the byte before the stretch. -/
def StyledAfter (style : Ending) : (last : Option UInt8) → Bytes → Prop
  | _, [] => True
  | last, b :: rest =>
    (b = Byte.newline → (last = some Byte.carriage ↔ style = .crlf)) ∧
      StyledAfter style (some b) rest

instance decidableStyledAfter (style : Ending) :
    (last : Option UInt8) → (bytes : Bytes) → Decidable (StyledAfter style last bytes)
  | _, [] => .isTrue trivial
  | _, b :: rest =>
    have := decidableStyledAfter style (some b) rest
    inferInstanceAs (Decidable (_ ∧ _))

variable {style : Ending} {last last' : Option UInt8} {u w : Bytes}

/-- The line endings of a text are those of its parts, the second read after the first. -/
theorem styledAfter_append :
    StyledAfter style last (u ++ w) ↔
      StyledAfter style last u ∧ StyledAfter style (u.getLast?.or last) w := by
  induction u generalizing last with
  | nil => simp [StyledAfter]
  | cons b u ih =>
    have hlast : (b :: u).getLast?.or last = u.getLast?.or (some b) := by
      rw [List.getLast?_cons]
      cases u.getLast? <;> rfl
    rw [List.cons_append, StyledAfter, StyledAfter, ih, hlast, and_assoc]

/-- A text without newlines has no line ending that could be wrong. -/
theorem styledAfter_of_not_mem (h : Byte.newline ∉ u) : StyledAfter style last u := by
  induction u generalizing last with
  | nil => trivial
  | cons b u ih =>
    rw [List.mem_cons, not_or] at h
    exact ⟨fun hb => absurd hb.symm h.1, ih h.2⟩

/-- The byte before a stretch matters only if it is a carriage return and a newline follows. -/
theorem StyledAfter.congr (h : StyledAfter style last u)
    (hlast : u.head? = some Byte.newline →
      last ≠ some Byte.carriage ∧ last' ≠ some Byte.carriage) : StyledAfter style last' u := by
  cases u with
  | nil => trivial
  | cons b u =>
    refine ⟨fun hb => ?_, h.2⟩
    obtain ⟨hlast, hlast'⟩ := hlast (congrArg some hb)
    have hiff := h.1 hb
    simp only [hlast, hlast', false_iff] at hiff ⊢
    exact hiff

theorem styled_iff {source : Bytes} : Styled style source ↔ StyledAfter style none source := by
  have key : ∀ (last : Option UInt8) (u : Bytes), StyledAfter style last u ↔ ∀ front back,
      u = front ++ Byte.newline :: back →
        (front.getLast?.or last = some Byte.carriage ↔ style = .crlf) := by
    intro last u
    constructor
    · rintro h front back rfl
      exact (styledAfter_append.mp h).2.1 rfl
    · induction u generalizing last with
      | nil => exact fun _ => trivial
      | cons b u ih =>
        intro h
        refine ⟨fun hb => h [] u (by rw [hb]; rfl), ih (some b) fun front back hu => ?_⟩
        have hcons := h (b :: front) back (by rw [hu]; rfl)
        rw [List.getLast?_cons] at hcons
        cases hlast : front.getLast? <;> simpa [hlast] using hcons
  rw [key none source, Styled]
  simp only [Option.or_none]

instance (style : Ending) (source : Bytes) : Decidable (Styled style source) :=
  decidable_of_iff _ styled_iff.symm

/-- The first newline shows the style. -/
theorem Styled.ending_eq {source : Bytes} (h : Styled style source) (hmem : Byte.newline ∈ source) :
    ending source = style := by
  obtain ⟨front, back, rfl, hfront⟩ := List.eq_append_cons_of_mem hmem
  have htake : (front ++ Byte.newline :: back).takeWhile (· != Byte.newline) = front := by
    have hkeep : ∀ b ∈ front, (b != Byte.newline) = true := by
      rintro b hb
      rw [bne_iff_ne]
      rintro rfl
      exact hfront hb
    rw [List.takeWhile_append_of_pos hkeep, List.takeWhile_cons_of_neg (by simp), List.append_nil]
  have hiff := h front back rfl
  rw [ending, htake, List.length_append, List.length_cons]
  cases style with
  | lf =>
    have hlast : (front.getLast? == some Byte.carriage) = false := by simpa using hiff
    rw [hlast, Bool.and_false]
    rfl
  | crlf =>
    have hlast : front.getLast? = some Byte.carriage := by simpa using hiff
    rw [hlast, if_pos (by simp)]

/-- **The text may stand after any byte but a carriage return**: its newlines are of the style then,
and it does not end in a carriage return. -/
def Fits (style : Ending) (u : Bytes) : Prop :=
  u.getLast? ≠ some Byte.carriage ∧
    ∀ last, last ≠ some Byte.carriage → StyledAfter style last u

/-- A text that fits may stand after anything but a carriage return. -/
theorem Fits.after (h : Fits style u) (hlast : last ≠ some Byte.carriage) :
    StyledAfter style last u :=
  h.2 last hlast

/-- Two texts that fit make one. -/
theorem Fits.append (hu : Fits style u) (hw : Fits style w) : Fits style (u ++ w) := by
  have hlast : ∀ {last : Option UInt8}, last ≠ some Byte.carriage →
      u.getLast?.or last ≠ some Byte.carriage := by
    intro last hlast
    cases hgiven : u.getLast? with
    | none => simpa using hlast
    | some b => simpa [hgiven] using hu.1
  refine ⟨?_, fun last hne => styledAfter_append.mpr ⟨hu.after hne, hw.after (hlast hne)⟩⟩
  rw [List.getLast?_append]
  cases hgiven : w.getLast? with
  | none => simpa using hu.1
  | some b => simpa [hgiven] using hw.1

/-- A text without newlines fits unless it ends in a carriage return. -/
theorem fits_of_not_mem (h : Byte.newline ∉ u) (hlast : u.getLast? ≠ some Byte.carriage) :
    Fits style u :=
  ⟨hlast, fun _ _ => styledAfter_of_not_mem h⟩

theorem fits_text (style : Ending) : Fits style (utf8 style.text) := by
  have hlf : utf8 (Ending.text .lf) = [Byte.newline] := by decide
  have hcrlf : utf8 (Ending.text .crlf) = [Byte.carriage, Byte.newline] := by decide
  cases style with
  | lf =>
    rw [hlf]
    exact ⟨by decide, fun last hlast => ⟨fun _ => by simpa using hlast, trivial⟩⟩
  | crlf =>
    rw [hcrlf]
    exact ⟨by decide, fun last _ => ⟨fun h => absurd h (by decide), fun _ => by simp, trivial⟩⟩

theorem fits_nil (style : Ending) : Fits style [] := fits_of_not_mem (by simp) (by simp)

theorem fits_flatMap {α : Type} {f : α → Bytes} {items : List α}
    (h : ∀ a ∈ items, Fits style (f a)) : Fits style (items.flatMap f) := by
  induction items with
  | nil => exact fits_nil style
  | cons a items ih =>
    rw [List.flatMap_cons]
    exact (h a (by simp)).append (ih fun c hc => h c (by simp [hc]))

/-- What holds neither byte of a line ending. -/
theorem fits_of_forall (h : ∀ b ∈ u, b ≠ Byte.newline ∧ b ≠ Byte.carriage) : Fits style u :=
  fits_of_not_mem (fun hmem => (h _ hmem).1 rfl)
    fun hlast => (h _ (List.mem_of_getLast? hlast)).2 rfl

theorem fits_of_blank (h : ∀ b ∈ u, Byte.isBlank b = true) : Fits style u := by
  refine fits_of_forall fun b hb => ?_
  have hblank := h b hb
  refine ⟨?_, ?_⟩ <;> rintro rfl <;> cases hblank

end Line

/-! ## Braces in the buffer -/

/-- A buffer cut at the braces of a region. -/
structure Region.Cut (source : Bytes) (r : Region) (front body back : Bytes) : Prop where
  source_eq : source = front ++ 123 :: (body ++ 125 :: back)
  bodyOffset_eq : r.bodyOffset = front.length + 1
  closeOffset_eq : r.closeOffset = front.length + 1 + body.length

namespace Region.Cut

variable {source front body back : Bytes} {r : Region}

/-- The body of a region starts after its brace. -/
theorem at_bodyOffset (h : r.Cut source front body back) :
    source.take r.bodyOffset = front ++ [123] ∧
      source.drop r.bodyOffset = body ++ 125 :: back := by
  have hlen : r.bodyOffset = (front ++ [123]).length := by
    rw [h.bodyOffset_eq, List.length_append, List.length_singleton]
  rw [h.source_eq.trans (List.append_cons ..), hlen]
  exact ⟨List.take_left, List.drop_left⟩

theorem at_closeOffset (h : r.Cut source front body back) :
    source.take r.closeOffset = front ++ 123 :: body ∧
      source.drop r.closeOffset = 125 :: back := by
  have hlen : r.closeOffset = (front ++ 123 :: body).length := by
    rw [h.closeOffset_eq, List.length_append, List.length_cons]
    omega
  rw [h.source_eq, hlen, ← List.cons_append, ← List.append_assoc]
  exact ⟨List.take_left, List.drop_left⟩

/-- Where the opening brace ends its line, the line ends before the region does. -/
theorem newline_mem_of_ends (h : r.Cut source front body back)
    (hends : Line.ends source r.bodyOffset = true) : Byte.newline ∈ body := by
  by_contra hnone
  have hkeep : ∀ b ∈ body ++ [125], (b != Byte.newline) = true := by
    intro b hb
    rw [bne_iff_ne]
    rintro rfl
    exact absurd (show Byte.newline = _ by simpa [hnone] using hb) (by decide)
  rw [Line.ends, Line.after, h.at_bodyOffset.2, List.append_cons,
    List.takeWhile_append_of_pos hkeep, List.all_append, Bool.and_eq_true, List.all_eq_true]
    at hends
  exact absurd (hends.1 125 (by simp)) (by decide)

/-- Where the closing brace starts its line, the line starts after the region does. -/
theorem newline_mem_of_starts (h : r.Cut source front body back)
    (hstarts : Line.starts source r.closeOffset = true) : Byte.newline ∈ body := by
  by_contra hnone
  have hkeep : ∀ b ∈ body.reverse ++ [123], (b != Byte.newline) = true := by
    intro b hb
    rw [bne_iff_ne]
    rintro rfl
    exact absurd (show Byte.newline = _ by simpa [hnone] using hb) (by decide)
  rw [Line.starts, Line.before, h.at_closeOffset.1, List.reverse_append, List.reverse_cons,
    List.takeWhile_append_of_pos hkeep, List.all_append, Bool.and_eq_true, List.all_eq_true]
    at hstarts
  exact absurd (hstarts.1 123 (by simp)) (by decide)

end Region.Cut

namespace Outline

variable {o : Outline}

/-- **A token, cut out of the buffer.** -/
theorem Valid.exists_cut (h : o.Valid) {t : Token} (ht : t ∈ o.tokens) :
    ∃ a c, o.source = a ++ (t.text ++ c) ∧ t.start = a.length := by
  obtain ⟨fresh', hlexes⟩ := Lexer.tokenize_eq_ok_iff.mp h.tokenized
  obtain ⟨front, back, htokens⟩ := List.append_of_mem ht
  rw [htokens] at hlexes
  obtain ⟨a, b, x, c, mid, hsource, hplace, -⟩ := hlexes.split
  exact ⟨a, c, hsource, (congrArg Token.start hplace).trans (Nat.zero_add _)⟩

/-- **The buffer can be cut at the braces of each region.** -/
theorem Valid.exists_cut_region (h : o.Valid) {r : Region} (hr : r ∈ o.forest.toList) :
    ∃ front body back, r.Cut o.source front body back := by
  obtain ⟨opener, closer, hopener, hcloser, hopen, hclose, hmatch, -, hbody, hend⟩ := h.braces hr
  have hstop := h.stop_le_start hmatch.1 hopener hcloser
  obtain ⟨front, rest, hsource, hstart⟩ := h.exists_cut (h.mem_tokens hopener)
  obtain ⟨before, back, hsource', hstart'⟩ := h.exists_cut (h.mem_tokens hcloser)
  rw [eq_of_opening hopen] at hsource
  rw [eq_of_closing hclose] at hsource'
  rw [Token.stop, eq_of_opening hopen, List.length_singleton] at hstop hbody
  dsimp only at hstop hbody
  -- What stands before the closing brace starts with what stands up to the opening one.
  have hprefix : front ++ [123] <+: o.source := ⟨rest, by rw [hsource, List.append_assoc]⟩
  obtain ⟨body, rfl⟩ : front ++ [123] <+: before := by
    refine List.prefix_of_prefix_length_le hprefix ⟨_, hsource'.symm⟩ ?_
    rw [List.length_append, List.length_singleton]
    omega
  refine ⟨front, body, back, ?_, by omega, ?_⟩
  · rw [hsource', List.append_assoc, List.append_assoc]
    rfl
  · rw [hend, hstart', List.length_append, List.length_append, List.length_singleton]

end Outline

/-! ## The planned texts -/

theorem newline_not_mem_utf8 {s : String} (h : '\n' ∉ s.toList) : Byte.newline ∉ utf8 s := by
  intro hmem
  obtain ⟨c, hc, hb⟩ := List.mem_flatMap.mp hmem
  rw [(eq_ofNat_of_mem_utf8EncodeChar (by decide) hb).1] at hc
  exact h hc

namespace Plan

variable {o : Outline} {settings : Settings} {style : Line.Ending} {r : Region}

/-- The newline that a buffer is given is of its own style. -/
theorem fits_newline (hending : Line.ending o.source = style) : Line.Fits style (newline o) :=
  hending ▸ Line.fits_text _

/-- Texts joined by what fits, fit. -/
theorem fits_joinWith {separator : Bytes} {texts : List Bytes}
    (hseparator : Line.Fits style separator) (h : ∀ s ∈ texts, Line.Fits style s) :
    Line.Fits style (joinWith separator texts) := by
  induction texts with
  | nil => exact Line.fits_nil style
  | cons s texts ih =>
    rcases texts with _ | ⟨t, texts⟩
    · rw [joinWith, List.intercalate_singleton]
      exact h s (by simp)
    · rw [joinWith, List.intercalate_cons_cons]
      exact ((h s (by simp)).append hseparator).append (ih fun q hq => h q (by simp [hq]))

/-- The discard of a name fits. -/
theorem fits_statement (discard : DiscardStyle) {name : Bytes} (h : isWord name = true) :
    Line.Fits style (discard.statement name) := by
  have hbyte : ∀ b : UInt8, Byte.continuesName b = true → b ≠ Byte.newline ∧ b ≠ Byte.carriage := by
    intro b hb
    refine ⟨?_, ?_⟩ <;> rintro rfl <;> cases hb
  have hname : Line.Fits style name :=
    Line.fits_of_forall fun b hb => hbyte b (continuesName_of_isWord h b hb)
  have htext : ∀ {u : Bytes}, u.all (fun b => b ≠ Byte.newline ∧ b ≠ Byte.carriage) = true →
      Line.Fits style u := fun hall => Line.fits_of_forall (forall_mem_of_all hall)
  cases discard with
  | voidCast => exact ((htext (by decide)).append hname).append (htext (by decide))
  | staticCast => exact ((htext (by decide)).append hname).append (htext (by decide))

/-- **The discards of a function**, on lines of their own or on one. -/
theorem fits_discardText
    (hending : Line.ends o.source r.bodyOffset = true → Line.ending o.source = style)
    {statements : List Bytes} (h : ∀ s ∈ statements, Line.Fits style s) :
    Line.Fits style (discardText o settings r statements) := by
  have hspace : Line.Fits style [Byte.space] :=
    Line.fits_of_blank (List.forall_mem_singleton.mpr rfl)
  rw [discardText]
  split_ifs with hends
  · exact Line.fits_flatMap fun s hs => ((fits_newline (hending hends)).append
      (Line.fits_of_blank fun b hb => isBlank_of_mem_bodyIndent hb)).append (h s hs)
  · dsimp only
    refine (hspace.append (fits_joinWith hspace h)).append ?_
    split_ifs
    · exact hspace
    · exact Line.fits_nil style

/-- The mark of a comment holds no newline. -/
theorem newline_not_mem_commentMarker (h : settings.check = .ok ()) :
    Byte.newline ∉ utf8 settings.commentMarker := by
  refine newline_not_mem_utf8 ?_
  rw [Settings.commentMarker]
  split
  · decide
  · rename_i text htext
    have hnone := (settings.comment_of_check h htext).2
    split_ifs
    · decide
    · simp [hnone]

theorem getLast?_commentMarker_ne (settings : Settings) :
    (utf8 settings.commentMarker).getLast? ≠ some Byte.carriage := by
  rw [Settings.commentMarker]
  split
  · decide
  · split_ifs
    · decide
    · have hend : (utf8 " */").getLast? = some Byte.slash := by decide
      rw [utf8_append, List.getLast?_append, hend, Option.some_or]
      decide

/-- A text on one line, and the comment after it. -/
theorem fits_commentMarker (h : settings.check = .ok ()) :
    Line.Fits style (utf8 settings.commentMarker) :=
  Line.fits_of_not_mem (newline_not_mem_commentMarker h) (getLast?_commentMarker_ne settings)

/-- Labels are written on one line each. -/
theorem newline_not_mem_label (h : o.Valid) {m : Omission}
    (hm : m ∈ (o.coverage o.enumerations).omissions) :
    ∀ s ∈ (labels settings m).1, Byte.newline ∉ s := by
  rw [labels]
  split
  · exact List.forall_mem_singleton.mpr (by decide)
  · intro s hs
    obtain ⟨e, he, rfl⟩ := List.mem_map.mp hs
    obtain ⟨last, back, hpath, -, hlabel⟩ := h.exists_path hm he
    refine newline_not_mem_utf8 ?_
    have hname : ∀ t ∈ last :: back, '\n' ∉ t.name.toList := by
      intro t ht
      refine Utf8.newline_not_mem_legible fun hmem => ?_
      rcases hpath.free_or_colons t ht with hfree | hcolons
      · exact absurd (continuesName_of_isWord hfree.isWord _ hmem) (by decide)
      · rw [(Token.isMark_iff.mp hcolons).2] at hmem
        exact absurd hmem (by decide)
    rw [hlabel, String.toList_append, String.toList_append, String.toList_join]
    simp only [List.mem_append, List.mem_flatMap, List.mem_map, List.mem_reverse]
    rintro ((hcase | ⟨_, ⟨t, ht, rfl⟩, hmem⟩) | hcolon)
    · exact absurd hcase (by decide)
    · exact hname t ht hmem
    · exact absurd hcolon (by decide)

/-- A label ends in a colon. -/
theorem getLast?_label {m : Omission} : ∀ s ∈ (labels settings m).1, s.getLast? = some 58 := by
  rw [labels]
  split
  · exact List.forall_mem_singleton.mpr (by decide)
  · intro s hs
    obtain ⟨e, -, rfl⟩ := List.mem_map.mp hs
    have hcolon : (utf8 ":").getLast? = some 58 := by decide
    rw [utf8_append, List.getLast?_append, hcolon]
    rfl

/-- **The labels of a completion fit.** -/
theorem fits_label (h : o.Valid) {m : Omission} (hm : m ∈ (o.coverage o.enumerations).omissions) :
    ∀ s ∈ (labels settings m).1, Line.Fits style s := by
  intro s hs
  refine Line.fits_of_not_mem (newline_not_mem_label h hm s hs) ?_
  rw [getLast?_label s hs]
  decide

/-- **Labels on lines of their own.** -/
theorem fits_labelLines (hcheck : settings.check = .ok ()) (hending : Line.ending o.source = style)
    (m : Omission) {texts : List Bytes} (h : ∀ s ∈ texts, Line.Fits style s) :
    Line.Fits style (labelLines o settings r m texts) := by
  have hindent : Line.Fits style (labelIndent o settings (Line.indent o.source r.closeOffset) m) :=
    Line.fits_of_blank fun b hb => isBlank_of_mem_labelIndent hb
  have hunit : ∀ {reference : Bytes}, Line.Fits style (unit settings reference) :=
    Line.fits_of_blank fun b hb => isBlank_of_mem_unit hb
  have hlead : Line.Fits style (lead (Line.indent o.source r.closeOffset)
      (labelIndent o settings (Line.indent o.source r.closeOffset) m)
      (unit settings (labelIndent o settings (Line.indent o.source r.closeOffset) m))) :=
    Line.fits_of_blank fun b hb => isBlank_of_mem_lead (fun b hb => isBlank_of_mem_labelIndent hb)
      (fun b hb => isBlank_of_mem_unit hb) hb
  have hbrace : Line.Fits style (Line.indent o.source r.closeOffset) :=
    Line.fits_of_blank fun b hb => isBlank_of_mem_indent hb
  have hbreak : Line.Fits style (utf8 "break;") :=
    Line.fits_of_forall (forall_mem_of_all (by decide))
  have hnewline := fits_newline hending
  rw [labelLines]
  exact (((((((hlead.append (fits_joinWith (hnewline.append hindent) h)).append hnewline).append
    hindent).append hunit).append hbreak).append (fits_commentMarker hcheck)).append
      hnewline).append hbrace

/-- **Labels on the line of the brace** hold no newline. -/
theorem newline_not_mem_labelsInline (hcheck : settings.check = .ok ()) {texts : List Bytes}
    (h : ∀ s ∈ texts, Byte.newline ∉ s) : Byte.newline ∉ labelsInline o settings r texts := by
  have hspace : ∀ b ∈ [Byte.space], b ≠ Byte.newline :=
    List.forall_mem_singleton.mpr (by decide)
  have hjoin := forall_mem_joinWith hspace
    fun s hs b hb (heq : b = Byte.newline) => h s hs (heq ▸ hb)
  have hbody : Byte.newline ∉ joinWith [Byte.space] texts ++ utf8 " break;" ++
      utf8 settings.commentMarker := by
    simp only [List.mem_append, not_or]
    exact ⟨⟨fun hmem => hjoin _ hmem rfl, by decide⟩, newline_not_mem_commentMarker hcheck⟩
  have hne : Byte.newline ≠ Byte.space := by decide
  rw [labelsInline]
  split_ifs <;> intro hmem
  · exact (List.mem_append.mp hmem).elim hbody fun heq => hne (List.mem_singleton.mp heq)
  · exact (List.mem_cons.mp hmem).elim hne hbody

end Plan

/-! ## Putting the texts in -/

/-- **The edit keeps the style of what follows it**, after the byte that stands before it. -/
def Edit.KeepsStyle (style : Line.Ending) (source : Bytes) (e : Edit) : Prop :=
  ∃ front b back, source = front ++ b :: back ∧ e.offset = front.length + 1 ∧
    (Line.StyledAfter style (some b) back → Line.StyledAfter style (some b) (e.text ++ back))

open Line in
/-- Texts that keep the style one by one keep it together. -/
theorem Edit.Spliced.styledAfter {style : Ending} {source : Bytes} {cursor : Nat}
    {rest output : Bytes} {edits : List Edit} (h : Spliced cursor rest edits output)
    (hrest : source.drop cursor = rest) (hordered : edits.Pairwise fun a b => a.offset < b.offset)
    (hahead : ∀ e ∈ edits, cursor < e.offset) (hkeeps : ∀ e ∈ edits, e.KeepsStyle style source)
    {last : Option UInt8} (hstyled : StyledAfter style last rest) :
    StyledAfter style last output := by
  induction h generalizing last with
  | done => exact hstyled
  | @insert cursor gap e rest output edits place tail ih =>
    obtain ⟨hfirst, hordered⟩ := List.pairwise_cons.mp hordered
    obtain ⟨hgap, hafter⟩ := styledAfter_append.mp hstyled
    obtain ⟨front, b, back, hsource, hoffset, hkeep⟩ := hkeeps e (by simp)
    have := hahead e (by simp)
    -- The byte before the text is the last of the stretch that is copied.
    have hcut : source.drop cursor = front.drop cursor ++ b :: back := by
      rw [hsource, List.drop_append_of_le_length (by omega)]
    have hlen : gap.length = (front.drop cursor ++ [b]).length := by
      rw [List.length_append, List.length_drop, List.length_singleton]
      omega
    rw [hrest, List.append_cons] at hcut
    obtain ⟨rfl, rfl⟩ := List.append_inj hcut hlen
    have hlast : ∀ {before : Option UInt8},
        (front.drop cursor ++ [b]).getLast?.or before = some b := by
      intro before
      rw [List.getLast?_concat]
      rfl
    rw [hlast] at hafter
    obtain ⟨htext, hrest'⟩ := styledAfter_append.mp (hkeep hafter)
    refine styledAfter_append.mpr ⟨hgap, styledAfter_append.mpr ⟨by rwa [hlast], ?_⟩⟩
    rw [hlast]
    refine ih ?_ hordered hfirst (fun d hd => hkeeps d (by simp [hd])) hrest'
    rw [hsource, hoffset, List.append_cons, ← List.length_singleton, ← List.length_append,
      List.drop_left]

section

variable {style : Line.Ending} {source front back : Bytes} {b : UInt8} {e : Edit}

/-- A text that fits may go after any byte but a carriage return. -/
theorem Edit.keepsStyle_of_fits (hsource : source = front ++ b :: back)
    (hoffset : e.offset = front.length + 1) (hb : b ≠ Byte.carriage) (h : Line.Fits style e.text) :
    e.KeepsStyle style source := by
  have hbefore : some b ≠ some Byte.carriage := fun heq => hb (Option.some.inj heq)
  refine ⟨front, b, back, hsource, hoffset, fun hafter =>
    Line.styledAfter_append.mpr ⟨h.after hbefore, hafter.congr fun _ => ⟨hbefore, ?_⟩⟩⟩
  cases hlast : e.text.getLast? with
  | none => rwa [Option.none_or]
  | some c =>
    rw [Option.some_or, ← hlast]
    exact h.1

/-- A text on one line may go before anything but a newline. -/
theorem Edit.keepsStyle_of_not_mem (hsource : source = front ++ b :: back)
    (hoffset : e.offset = front.length + 1) (hback : back.head? ≠ some Byte.newline)
    (h : Byte.newline ∉ e.text) : e.KeepsStyle style source :=
  ⟨front, b, back, hsource, hoffset, fun hafter => Line.styledAfter_append.mpr
    ⟨Line.styledAfter_of_not_mem h, hafter.congr fun hhead => absurd hhead hback⟩⟩

end

namespace Plan

variable {o : Outline} {settings : Settings} {style : Line.Ending} {e : Edit}

/-- **A discard keeps the style.** -/
theorem keepsStyle_discard (h : o.Valid) (hstyled : Line.Styled style o.source)
    (he : e ∈ discardEdits o settings) : e.KeepsStyle style o.source := by
  obtain ⟨f, hf, hfe⟩ := mem_discardEdits he
  obtain ⟨u, hu, hoffset, htext, -⟩ := discardAt?_eq_some h hf hfe
  obtain ⟨front, body, back, hcut⟩ := h.exists_cut_region (Outline.mem_functions_iff.mp hf).1
  refine Edit.keepsStyle_of_fits hcut.source_eq (hoffset.trans hcut.bodyOffset_eq) (by decide) ?_
  rw [htext]
  refine fits_discardText (fun hends => hstyled.ending_eq ?_) fun s hs => ?_
  · rw [hcut.source_eq]
    simp [hcut.newline_mem_of_ends hends]
  · obtain ⟨w, hw, rfl⟩ := List.mem_map.mp hs
    obtain ⟨p, hp, rfl⟩ := List.mem_map.mp hw
    exact fits_statement _ (word_spec h hu hp).1

/-- **So does a completion.** -/
theorem keepsStyle_completion (h : o.Valid) (hcheck : settings.check = .ok ())
    (hstyled : Line.Styled style o.source) (he : e ∈ switchEdits o settings) :
    e.KeepsStyle style o.source := by
  obtain ⟨s, hs, hse⟩ := mem_switchEdits he
  obtain ⟨m, hm, hoffset, htext⟩ := completionAt?_eq_some h hs hse
  have homission : m ∈ (o.coverage o.enumerations).omissions :=
    List.mem_filterMap.mpr ⟨_, List.mem_map_of_mem (List.mem_map_of_mem hs), hm⟩
  obtain ⟨front, body, back, hcut⟩ := h.exists_cut_region (Outline.mem_switches_iff.mp hs).1
  obtain ⟨before, b, hbefore⟩ : ∃ before b, front ++ 123 :: body = before ++ [b] :=
    ⟨_, _, (List.dropLast_concat_getLast (by simp)).symm⟩
  have htake : o.source.take s.1.closeOffset = before ++ [b] := hcut.at_closeOffset.1.trans hbefore
  have hsource : o.source = before ++ b :: 125 :: back := by
    rw [← List.take_append_drop s.1.closeOffset o.source, htake, hcut.at_closeOffset.2,
      ← List.append_cons]
  have hlength : e.offset = before.length + 1 := by
    have hlen := congrArg List.length hbefore
    simp only [List.length_append, List.length_cons, List.length_nil] at hlen
    rw [hoffset, hcut.closeOffset_eq]
    omega
  split_ifs at htext with hline
  · -- The brace starts its line, so a blank or a newline stands before it.
    have hb := trailing_of_starts hline (b := b) (by rw [htake, List.getLast?_concat])
    refine Edit.keepsStyle_of_fits hsource hlength (fun heq => absurd (heq ▸ hb) (by decide)) ?_
    rw [htext]
    refine fits_labelLines hcheck (hstyled.ending_eq ?_) m (fits_label h homission)
    rw [hcut.source_eq]
    simp [hcut.newline_mem_of_starts hline]
  · refine Edit.keepsStyle_of_not_mem hsource hlength
      (fun hhead => absurd (Option.some.inj hhead) (by decide)) ?_
    rw [htext]
    exact newline_not_mem_labelsInline hcheck (newline_not_mem_label h homission)

end Plan

/-- **A run keeps the line ending.**  If a carriage return stands before every newline of the buffer
it does so in the result, and if it stands before none it stands before none there; a buffer without
newlines, of which both hold, gets none. -/
theorem transform_keeps_line_ending {settings : Settings} {source : Bytes} {t : Transformed}
    (h : transform settings source = .ok t) (style : Line.Ending)
    (hstyled : Line.Styled style source) : Line.Styled style t.output := by
  obtain ⟨o, rfl, hcheck, hvalid, hordered, hplanned, hspliced⟩ := exists_carriesOut h
  have hkeeps : ∀ e ∈ t.edits, e.KeepsStyle style o.source := fun e he =>
    ((hplanned e).mp he).mem.elim (Plan.keepsStyle_discard hvalid hstyled)
      (Plan.keepsStyle_completion hvalid hcheck hstyled)
  have hahead : ∀ e ∈ t.edits, 0 < e.offset := by
    intro e he
    obtain ⟨front, b, back, -, hoffset, -⟩ := hkeeps e he
    omega
  exact Line.styled_iff.mpr (hspliced.styledAfter rfl hordered hahead hkeeps
    (Line.styled_iff.mp hstyled))

/-- A label on a line of its own, under CR LF. -/
theorem transform_keeps_crlf :
    let source := utf8 "enum E \x7bA, B\x7d;\r\nvoid f(E e) \x7bswitch (e) \x7b\r\n"
      ++ utf8 "\tcase A:\r\n\t\x7d\x7d"
    let output := utf8 "enum E \x7bA, B\x7d;\r\nvoid f(E e) \x7bswitch (e) \x7b\r\n"
      ++ utf8 "\tcase A:\r\n\tdefault:\r\n\t\tbreak;\r\n\t\x7d\x7d"
    Line.Styled .crlf source ∧ Line.Styled .crlf output := by
  intro source output
  have hrun : transform {} source = .ok ⟨output,
      [⟨54, utf8 "default:\r\n\t\tbreak;\r\n\t", .missingDefault, ["B"]⟩], []⟩ := by
    decide +kernel
  have hstyled : Line.Styled .crlf source := by decide +kernel
  exact ⟨hstyled, transform_keeps_line_ending hrun .crlf hstyled⟩

end Quell
