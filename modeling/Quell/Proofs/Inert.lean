import Mathlib.Tactic.Common
import Quell.Proofs.Forest
import Quell.Proofs.Spelling

/-!
# Proofs/Inert — the inserted texts disturb nothing

A text is `Inert` if it reads the same wherever it stands, closes the brackets it opens and has no
braces.  Discards are, name by name; labels are, since they are plain text up to the semicolon of
their `break`, and the comment after it ends where it says.
-/

namespace Quell

open Lexer

/-! ## Tokens without their places -/

/-- Tokens of the given classes and bytes, at no place in particular. -/
def plant (shapes : List (Kind × Bytes)) : List Token := shapes.map fun s => ⟨s.1, s.2, 0⟩

theorem plant_append (u w : List (Kind × Bytes)) : plant (u ++ w) = plant u ++ plant w :=
  List.map_append

/-- Brackets are told by class and bytes alone. -/
theorem settle_plant (tokens : List Token) (stack : List Bracket) :
    settle stack (plant (tokens.map Token.shape)) = settle stack tokens := by
  induction tokens generalizing stack with
  | nil => rfl
  | cons t rest ih =>
    have hpress : Token.press ⟨t.kind, t.text, 0⟩ stack = t.press stack := rfl
    rw [settle, ← funext ih, ← hpress]
    rfl

/-- Braces are told by class and bytes alone. -/
theorem braces_plant (tokens : List Token) :
    Forest.braces (plant (tokens.map Token.shape)) = Forest.braces tokens := by
  rw [plant, List.map_map, Forest.braces, List.filterMap_map]
  rfl

theorem braces_append (u w : List Token) :
    Forest.braces (u ++ w) = Forest.braces u ++ Forest.braces w := List.filterMap_append

/-- **A text that reads the same wherever it stands**, closes the brackets it opens and has no
braces. -/
def Inert (text : Bytes) (fresh' : Bool) : Prop :=
  ∃ shapes, Chunk text shapes fresh' ∧ Balanced (plant shapes) ∧
    Forest.braces (plant shapes) = []

namespace Inert

/-- Inert texts one after the other are inert. -/
theorem append {u w : Bytes} {mid fresh' : Bool} (hu : Inert u mid) (hw : Inert w fresh') :
    Inert (u ++ w) fresh' := by
  obtain ⟨first, hfirst, hbalanced, hbraces⟩ := hu
  obtain ⟨second, hsecond, hbalanced', hbraces'⟩ := hw
  refine ⟨first ++ second, hfirst.append hsecond, ?_, ?_⟩
  · rw [plant_append]
    exact hbalanced.append hbalanced'
  · rw [plant_append, braces_append, hbraces, hbraces']
    rfl

/-- Blanks before an inert text keep it inert. -/
theorem gap_append {g w : Bytes} {nl fresh' : Bool} (hg : Gap g nl) (hw : Inert w fresh') :
    Inert (g ++ w) fresh' := by
  obtain ⟨shapes, hshapes, hinert⟩ := hw
  exact ⟨shapes, hshapes.gap_append hg, hinert⟩

theorem append_gap {w g : Bytes} {nl fresh' : Bool} (hw : Inert w fresh') (hg : Gap g nl) :
    Inert (w ++ g) (fresh' || nl) := by
  obtain ⟨shapes, hshapes, hinert⟩ := hw
  exact ⟨shapes, hshapes.append_gap hg, hinert⟩

end Inert

/-! ## Blanks -/

theorem gap_blanks {g : Bytes} (h : ∀ b ∈ g, Byte.isBlank b = true) : Gap g false :=
  gap_of_spacing fun b hb => isSpacing_of_isBlank (h b hb)

theorem gap_space : Gap [Byte.space] false := .spacing rfl .nil

theorem isBlank_of_mem_indent {source : Bytes} {offset : Nat} {b : UInt8}
    (h : b ∈ Line.indent source offset) : Byte.isBlank b = true :=
  List.all_eq_true.mp List.all_takeWhile b h

theorem isBlank_of_mem_unit {settings : Settings} {reference : Bytes} {b : UInt8}
    (h : b ∈ Plan.unit settings reference) : Byte.isBlank b = true := by
  rw [Plan.unit] at h
  split_ifs at h
  · rw [List.mem_singleton.mp h]
    rfl
  · rw [List.eq_of_mem_replicate h]
    rfl

/-- The newline of a buffer is a gap in which a line ends. -/
theorem gap_newline_text (o : Outline) : Gap (Plan.newline o) true := by
  rw [Plan.newline]
  rcases Line.ending o.source with _ | _
  · exact .newline .nil
  · exact .spacing (by decide) (.newline .nil)

/-! ## Shapes without brackets -/

/-- Neither an opening nor a closing bracket. -/
def Neutral (s : Kind × Bytes) : Prop :=
  Token.opening? ⟨s.1, s.2, 0⟩ = none ∧ Token.closing? ⟨s.1, s.2, 0⟩ = none

instance (s : Kind × Bytes) : Decidable (Neutral s) := inferInstanceAs (Decidable (_ ∧ _))

/-- A token that is none of the six brackets is neutral. -/
theorem neutral_of_not_isMark {s : Kind × Bytes}
    (h : ∀ word ∈ ["(", "[", "\x7b", ")", "]", "\x7d"], Token.isMark ⟨s.1, s.2, 0⟩ word = false) :
    Neutral s := by
  constructor
  · rcases hopen : Token.opening? ⟨s.1, s.2, 0⟩ with _ | shape
    · rfl
    · have hmark := Token.opening?_eq_some_iff.mp hopen
      rw [h shape.opener (by cases shape <;> decide)] at hmark
      cases hmark
  · rcases hclose : Token.closing? ⟨s.1, s.2, 0⟩ with _ | shape
    · rfl
    · have hmark := Token.closing?_eq_some_iff.mp hclose
      rw [h shape.closer (by cases shape <;> decide)] at hmark
      cases hmark

/-- A word is no bracket. -/
theorem neutral_word (w : Bytes) : Neutral (Kind.ofWord w, w) := by
  refine neutral_of_not_isMark fun word _ => ?_
  have hkind : Kind.ofWord w ≠ .punctuation := by
    rw [Kind.ofWord]
    split_ifs <;> decide
  rw [Token.isMark, beq_eq_false_iff_ne.mpr hkind, Bool.false_and]

/-- Plain bytes make no bracket. -/
theorem neutral_plain {s : Kind × Bytes} (h : ∀ b ∈ s.2, plain b = true) : Neutral s := by
  refine neutral_of_not_isMark fun word hword => ?_
  rw [← Bool.not_eq_true, Token.isMark_iff]
  rintro ⟨-, htext⟩
  have hbracket : ∀ w ∈ ["(", "[", "\x7b", ")", "]", "\x7d"], (utf8 w).all plain = false := by
    decide
  dsimp only at htext
  rw [htext, ← List.all_eq_true, hbracket word hword] at h
  cases h

theorem Neutral.balanced {s : Kind × Bytes} (h : Neutral s) : Balanced (plant [s]) :=
  .neutral h.1 h.2

theorem Neutral.braces {s : Kind × Bytes} (h : Neutral s) : Forest.braces (plant [s]) = [] := by
  have hbrace : Forest.brace? ⟨s.1, s.2, 0⟩ = none := by
    rw [Forest.brace?, h.1, h.2]
    rfl
  rw [plant, List.map_singleton, Forest.braces, List.filterMap_cons_none hbrace]
  rfl

/-- Neutral tokens are balanced and hold no brace. -/
theorem balanced_of_neutral {shapes : List (Kind × Bytes)} (h : ∀ s ∈ shapes, Neutral s) :
    Balanced (plant shapes) ∧ Forest.braces (plant shapes) = [] := by
  induction shapes with
  | nil => exact ⟨.nil, rfl⟩
  | cons s shapes ih =>
    have hs := h s (by simp)
    obtain ⟨hbalanced, hbraces⟩ := ih fun q hq => h q (by simp [hq])
    rw [← List.singleton_append, plant_append, braces_append, hs.braces, hbraces]
    exact ⟨hs.balanced.append hbalanced, rfl⟩

/-- A text of neutral tokens is inert. -/
theorem Inert.of_neutral {text : Bytes} {shapes : List (Kind × Bytes)} {fresh' : Bool}
    (h : Chunk text shapes fresh') (hneutral : ∀ s ∈ shapes, Neutral s) : Inert text fresh' :=
  ⟨shapes, h, balanced_of_neutral hneutral⟩

/-- Plain text with a semicolon. -/
theorem inert_plain {u : Bytes} (hu : ∀ b ∈ u, plain b = true) :
    Inert (u ++ [semicolon]) false := by
  obtain ⟨shapes, hplain, hchunk⟩ := exists_chunk_plain hu
  refine .of_neutral hchunk fun s hs => ?_
  rcases List.mem_append.mp hs with hs | hs
  · exact neutral_plain (hplain s hs)
  · rw [List.mem_singleton.mp hs]
    decide

/-! ## Discards -/

/-- What the statement that discards a name reads as. -/
def DiscardStyle.shapes : DiscardStyle → Bytes → List (Kind × Bytes)
  | .voidCast, name =>
    [(.punctuation, [40]), (.keyword, utf8 "void"), (.punctuation, [41]), (Kind.ofWord name, name),
      (.punctuation, [semicolon])]
  | .staticCast, name =>
    [(.keyword, utf8 "static_cast"), (.punctuation, [60]), (.keyword, utf8 "void"),
      (.punctuation, [62]), (.punctuation, [40]), (Kind.ofWord name, name), (.punctuation, [41]),
      (.punctuation, [semicolon])]

/-- **The discard of one name is one statement.** -/
theorem chunk_statement (style : DiscardStyle) {name : Bytes} (hname : isWord name = true) :
    Chunk (style.statement name) (style.shapes name) false := by
  rcases style with _ | _
  · have hcast := (chunk_lone (b := 40) (by decide)).append
      (chunk_word (w := utf8 "void") (c := 41) (by decide) (by decide))
    have := (hcast.append_gap gap_space).append (chunk_word (c := semicolon) hname (by decide))
    rw [← List.append_assoc] at this
    exact this
  · have hcast := (chunk_word (w := utf8 "static_cast") (c := 60) (by decide) (by decide)).append
      (chunk_word (w := utf8 "void") (c := 62) (by decide) (by decide))
    have hargument := (chunk_lone (b := 40) (by decide)).append
      (chunk_word (c := 41) hname (by decide))
    have := (hcast.append hargument).append (chunk_lone (b := semicolon) (by decide))
    simp only [List.append_assoc] at this
    rw [DiscardStyle.statement, show utf8 "static_cast<void>(" =
      utf8 "static_cast" ++ ([60] ++ (utf8 "void" ++ ([62] ++ [40]))) by decide]
    simp only [List.append_assoc]
    exact this

theorem balanced_shapes (style : DiscardStyle) (name : Bytes) :
    Balanced (plant (style.shapes name)) ∧ Forest.braces (plant (style.shapes name)) = [] := by
  have hname := neutral_word name
  have hend : Balanced (plant [(.punctuation, [semicolon])]) := by decide
  rcases style with _ | _
  · have hcast : Balanced (plant [(.punctuation, [40]), (.keyword, utf8 "void"),
        (.punctuation, [41])]) := by decide
    refine ⟨(hcast.append hname.balanced).append hend, ?_⟩
    change Forest.braces (plant ([(.punctuation, [40]), (.keyword, utf8 "void"),
      (.punctuation, [41])] ++ [(Kind.ofWord name, name)] ++ [(.punctuation, [semicolon])])) = []
    rw [plant_append, braces_append, plant_append, braces_append, hname.braces]
    decide
  · have hcast : Balanced (plant [(.keyword, utf8 "static_cast"), (.punctuation, [60]),
        (.keyword, utf8 "void"), (.punctuation, [62])]) := by decide
    have hargument : Balanced (plant ([(.punctuation, [40])] ++ [(Kind.ofWord name, name)] ++
        [(.punctuation, [41])])) :=
      .wrap (by decide : _ = some Bracket.round) (by decide) hname.balanced
    refine ⟨(hcast.append hargument).append hend, ?_⟩
    change Forest.braces (plant ([(.keyword, utf8 "static_cast"), (.punctuation, [60]),
      (.keyword, utf8 "void"), (.punctuation, [62]), (.punctuation, [40])] ++
      [(Kind.ofWord name, name)] ++ [(.punctuation, [41]), (.punctuation, [semicolon])])) = []
    rw [plant_append, braces_append, plant_append, braces_append, hname.braces]
    decide

theorem balanced_flatMap_shapes (style : DiscardStyle) (names : List Bytes) :
    Balanced (plant (names.flatMap style.shapes)) ∧
      Forest.braces (plant (names.flatMap style.shapes)) = [] := by
  induction names with
  | nil => exact ⟨.nil, rfl⟩
  | cons name names ih =>
    obtain ⟨hbalanced, hbraces⟩ := balanced_shapes style name
    rw [List.flatMap_cons, plant_append, braces_append, hbraces, ih.2]
    exact ⟨hbalanced.append ih.1, rfl⟩

namespace Plan

theorem isBlank_of_mem_bodyIndent {o : Outline} {settings : Settings} {r : Region} {b : UInt8}
    (h : b ∈ bodyIndent o settings r) : Byte.isBlank b = true := by
  rw [bodyIndent] at h
  split_ifs at h
  · exact isBlank_of_mem_indent h
  · rcases List.mem_append.mp h with h | h
    · exact isBlank_of_mem_indent h
    · exact isBlank_of_mem_unit h

/-- Statements with a blank between them are read one after the other. -/
theorem chunk_joinWith (style : DiscardStyle) {names : List Bytes} (hne : names ≠ [])
    (h : ∀ name ∈ names, isWord name = true) :
    Chunk (joinWith [Byte.space] (names.map style.statement)) (names.flatMap style.shapes)
      false := by
  induction names with
  | nil => exact absurd rfl hne
  | cons name names ih =>
    have hname := chunk_statement style (h name (by simp))
    rw [List.flatMap_cons]
    rcases names with _ | ⟨next, names⟩
    · rw [List.flatMap_nil, List.append_nil, joinWith, List.map_singleton,
        List.intercalate_singleton]
      exact hname
    · rw [joinWith, List.map_cons, List.map_cons, List.intercalate_cons_cons]
      exact (hname.append_gap gap_space).append
        (ih (by simp) fun q hq => h q (List.mem_cons_of_mem name hq))

/-- **The discards of a function read as such**, name by name, and what follows them does not start
a line. -/
theorem chunk_discardText {o : Outline} {settings : Settings} {r : Region} {names : List Bytes}
    {style : DiscardStyle} (hne : names ≠ []) (h : ∀ name ∈ names, isWord name = true) :
    Chunk (discardText o settings r (names.map style.statement)) (names.flatMap style.shapes)
      false := by
  rw [discardText]
  split_ifs with hends
  · have hindent : Gap (newline o ++ bodyIndent o settings r) (true || false) :=
      (gap_newline_text o).append (gap_blanks fun b hb => isBlank_of_mem_bodyIndent hb)
    clear hends
    induction names with
    | nil => exact absurd rfl hne
    | cons name names ih =>
      have hname := (chunk_statement style (h name (by simp))).gap_append hindent
      rw [List.map_cons, List.flatMap_cons, List.flatMap_cons]
      rcases names with _ | ⟨next, names⟩
      · rw [List.map_nil, List.flatMap_nil, List.flatMap_nil, List.append_nil, List.append_nil]
        exact hname
      · exact hname.append (ih (by simp) fun q hq => h q (List.mem_cons_of_mem name hq))
  · dsimp only
    have hline := (chunk_joinWith style hne h).gap_append gap_space
    refine hline.append_gap (gap_blanks ?_)
    split_ifs
    · exact List.forall_mem_singleton.mpr rfl
    · exact fun b hb => absurd hb (List.not_mem_nil)

end Plan

/-! ## Comments -/

/-- An ASCII byte of an encoded text is the character. -/
theorem eq_ofNat_of_mem_utf8EncodeChar {c : Char} {b : UInt8} (hascii : b < 128)
    (hb : b ∈ String.utf8EncodeChar c) :
    c = Char.ofNat b.toNat ∧ String.utf8EncodeChar c = [b] := by
  rcases Nat.lt_or_ge c.val.toNat 128 with hlt | hge
  · have hc : String.utf8EncodeChar c = [UInt8.ofNat c.val.toNat] := by
      rw [String.utf8EncodeChar, if_pos (by omega)]
    rw [hc, List.mem_singleton] at hb
    subst hb
    refine ⟨?_, hc⟩
    rw [UInt8.toNat_ofNat', Nat.mod_eq_of_lt (by omega)]
    exact c.ofNat_toNat.symm
  · exact absurd (le_of_mem_utf8EncodeChar hge hb) (UInt8.not_le.mpr hascii)

/-- A text without stars holds no end of a comment. -/
theorem indexOf?_append_of_not_mem {w : Bytes} (h : Byte.star ∉ w) (rest : Bytes) :
    Bytes.indexOf? [Byte.star, Byte.slash] (w ++ rest) =
      (Bytes.indexOf? [Byte.star, Byte.slash] rest).map (· + w.length) := by
  induction w with
  | nil => simp
  | cons b w ih =>
    rw [List.mem_cons, not_or] at h
    have hb : (Byte.star == b) = false := beq_eq_false_iff_ne.mpr h.1
    rw [List.cons_append, Bytes.indexOf?, List.isPrefixOf, hb, Bool.false_and,
      if_neg Bool.false_ne_true, ih h.2, Option.map_map]
    rfl

/-- A comment without `*/` ends where it is closed. -/
theorem indexOf?_comment {text : List Char} (h : Settings.endsComment text = false) (v : Bytes) :
    Bytes.indexOf? [Byte.star, Byte.slash]
        (text.flatMap String.utf8EncodeChar ++ Byte.space :: Byte.star :: Byte.slash :: v) =
      some ((text.flatMap String.utf8EncodeChar).length + 1) := by
  induction text with
  | nil => rfl
  | cons c text ih =>
    have htext : Settings.endsComment text = false := by
      rw [Settings.endsComment.eq_def] at h
      split at h
      · cases h
      · rename_i _ _ _ heq
        cases heq
        exact h
      · rename_i heq
        cases heq
    rw [List.flatMap_cons, List.append_assoc]
    by_cases hstar : Byte.star ∈ String.utf8EncodeChar c
    · obtain ⟨rfl, hc⟩ := eq_ofNat_of_mem_utf8EncodeChar (by decide) hstar
      -- What follows the star is no slash, since the text has no `*/`.
      obtain ⟨e, rest, hrest, he⟩ : ∃ e rest, text.flatMap String.utf8EncodeChar ++
          Byte.space :: Byte.star :: Byte.slash :: v = e :: rest ∧ e ≠ Byte.slash := by
        rcases text with _ | ⟨d, text⟩
        · exact ⟨_, _, rfl, by decide⟩
        · obtain ⟨e, es, hd⟩ := List.exists_cons_of_ne_nil (@String.utf8EncodeChar_ne_nil d)
          refine ⟨e, _, by rw [List.flatMap_cons, hd]; rfl, ?_⟩
          rintro rfl
          obtain ⟨rfl, -⟩ := eq_ofNat_of_mem_utf8EncodeChar (by decide) (hd ▸ List.mem_cons_self)
          change Settings.endsComment ('*' :: '/' :: text) = false at h
          cases h
      have hprefix : ([Byte.slash].isPrefixOf (e :: rest)) = false := by
        rw [List.isPrefixOf, beq_eq_false_iff_ne.mpr he.symm, Bool.false_and]
      rw [hrest] at ih
      rw [hc, hrest, List.singleton_append, Bytes.indexOf?, List.isPrefixOf, hprefix,
        Bool.and_false, if_neg Bool.false_ne_true, ih htext, Option.map_some, List.length_append]
      congr 1
      rw [List.length_singleton]
      omega
    · rw [indexOf?_append_of_not_mem hstar, ih htext, Option.map_some, List.length_append]
      congr 1
      omega

/-- A comment is a chunk without code. -/
theorem chunk_comment {text : String} (h : Settings.endsComment text.toList = false) :
    Chunk (utf8 ("/* " ++ text ++ " */")) [] false := by
  intro start fresh v
  have hbytes : utf8 ("/* " ++ text ++ " */") =
      Byte.slash :: (Byte.star :: Byte.space :: (utf8 text ++ utf8 " */") ++ []) := by
    rw [utf8_append, utf8_append, List.append_nil]
    rfl
  have hscan : scan fresh Byte.slash
      (Byte.star :: Byte.space :: (utf8 text ++ utf8 " */") ++ ([] ++ v)) =
        .ok ⟨.comment, (Byte.star :: Byte.space :: (utf8 text ++ utf8 " */")).length⟩ := by
    have hindex : Bytes.indexOf? [Byte.star, Byte.slash]
        ([Byte.space] ++ (utf8 text ++ Byte.space :: Byte.star :: Byte.slash :: v)) =
          some ((utf8 text).length + 2) := by
      rw [indexOf?_append_of_not_mem (by decide), utf8, indexOf?_comment h]
      rfl
    have hcomment : commentExtent? (Byte.star :: ([Byte.space] ++
        (utf8 text ++ Byte.space :: Byte.star :: Byte.slash :: v))) =
          some (.ok ⟨.comment, (utf8 text).length + 5⟩) := by
      rw [commentExtent?_block, hindex]
    have hrest : Byte.star :: Byte.space :: (utf8 text ++ utf8 " */") ++ ([] ++ v) =
        Byte.star :: ([Byte.space] ++
          (utf8 text ++ Byte.space :: Byte.star :: Byte.slash :: v)) := by
      simp only [List.cons_append, List.nil_append, List.append_assoc]
      rfl
    rw [hrest, scan_plain (by rfl), hcomment]
    simp only [List.length_cons, List.length_append]
    rfl
  rw [hbytes]
  refine ⟨_, .token ?_ hscan .nil, rfl⟩
  exact gap_eq_zero_iff.mpr ⟨by decide, by decide, fun hb => absurd hb.1 (by decide)⟩

/-- A comment that the settings allow does not end itself and keeps to its line. -/
theorem Settings.comment_of_check {settings : Settings} (h : settings.check = .ok ())
    {text : String} (htext : settings.switches.comment = some text) :
    endsComment text.toList = false ∧ '\n' ∉ text.toList := by
  rw [check, htext] at h
  split_ifs at h
  dsimp only at h
  split_ifs at h with hrefused
  rw [Bool.or_eq_true, not_or, Bool.not_eq_true, List.contains_iff_mem] at hrefused
  exact hrefused

/-- **The comment of the settings is inert** after an inert text. -/
theorem Inert.append_commentMarker {settings : Settings} (h : settings.check = .ok ())
    {w : Bytes} (hw : Inert w false) : Inert (w ++ utf8 settings.commentMarker) false := by
  have hempty : Inert (w ++ utf8 "") false := by
    rw [show utf8 "" = [] from rfl, List.append_nil]
    exact hw
  rw [Settings.commentMarker]
  split
  · exact hempty
  · rename_i text htext
    split_ifs
    · exact hempty
    · have hmarker : utf8 (" /* " ++ text ++ " */") =
          [Byte.space] ++ utf8 ("/* " ++ text ++ " */") := by
        rw [utf8_append, utf8_append, utf8_append, utf8_append]
        rfl
      have hcomment := Inert.of_neutral (chunk_comment (settings.comment_of_check h htext).1)
        (by simp)
      rw [hmarker]
      exact hw.append (hcomment.gap_append gap_space)

/-! ## Labels -/

namespace Plan

theorem plain_of_isBlank {b : UInt8} (h : Byte.isBlank b = true) : plain b = true := by
  rw [Byte.isBlank, Bool.or_eq_true, beq_iff_eq, beq_iff_eq] at h
  rcases h with rfl | rfl <;> decide

theorem plain_newline (o : Outline) : ∀ b ∈ newline o, plain b = true := by
  rw [newline]
  rcases Line.ending o.source with _ | _ <;> exact forall_mem_of_all (by decide)

/-- Texts put together hold the bytes of the texts and of what stands between them. -/
theorem forall_mem_joinWith {p : UInt8 → Prop} {separator : Bytes} {texts : List Bytes}
    (hseparator : ∀ b ∈ separator, p b) (h : ∀ s ∈ texts, ∀ b ∈ s, p b) :
    ∀ b ∈ joinWith separator texts, p b := by
  induction texts with
  | nil =>
    intro b hb
    cases hb
  | cons s texts ih =>
    rcases texts with _ | ⟨t, texts⟩
    · rw [joinWith, List.intercalate_singleton]
      exact h s (by simp)
    · rw [joinWith, List.intercalate_cons_cons]
      intro b hb
      rcases List.mem_append.mp hb with hb | hb
      · rcases List.mem_append.mp hb with hb | hb
        · exact h s (by simp) b hb
        · exact hseparator b hb
      · exact ih (fun q hq => h q (by simp [hq])) b hb

/-- Labels spelled in plain bytes are plain texts. -/
theorem plain_labels {settings : Settings} {m : Omission}
    (h : ∀ e ∈ m.missing, Spelled (m.caseLabel e)) :
    ∀ s ∈ (labels settings m).1, ∀ b ∈ s, plain b = true := by
  rw [labels]
  split
  · exact List.forall_mem_singleton.mpr (forall_mem_of_all (by decide))
  · intro s hs
    obtain ⟨e, he, rfl⟩ := List.mem_map.mp hs
    have hcase : Spelled "case " := forall_mem_of_all (by decide)
    have hcolon : Spelled ":" := forall_mem_of_all (by decide)
    exact (hcase.append (h e he)).append hcolon

theorem isBlank_of_mem_labelIndent {o : Outline} {settings : Settings} {offset : Nat}
    {m : Omission} {b : UInt8}
    (h : b ∈ labelIndent o settings (Line.indent o.source offset) m) : Byte.isBlank b = true := by
  rw [labelIndent] at h
  split at h
  · exact isBlank_of_mem_indent h
  · rcases List.mem_append.mp h with h | h
    · exact isBlank_of_mem_indent h
    · exact isBlank_of_mem_unit h

theorem isBlank_of_mem_lead {brace indent unit : Bytes} {b : UInt8}
    (hindent : ∀ b ∈ indent, Byte.isBlank b = true) (hunit : ∀ b ∈ unit, Byte.isBlank b = true)
    (h : b ∈ lead brace indent unit) : Byte.isBlank b = true := by
  rw [lead] at h
  split_ifs at h
  · exact hindent b (List.mem_of_mem_drop h)
  · exact hunit b h

/-- Plain text up to the `break` of the labels. -/
theorem inert_break {u : Bytes} (hu : ∀ b ∈ u, plain b = true) :
    Inert (u ++ utf8 "break;") false := by
  have hbreak : u ++ utf8 "break;" = (u ++ utf8 "break") ++ [semicolon] := by
    rw [List.append_assoc]
    rfl
  rw [hbreak]
  exact inert_plain (List.forall_mem_append.mpr ⟨hu, forall_mem_of_all (by decide)⟩)

section

variable {o : Outline} {settings : Settings} {r : Region} {texts : List Bytes}

/-- **Labels on lines of their own are inert.** -/
theorem inert_labelLines (hcheck : settings.check = .ok ()) (m : Omission)
    (h : ∀ s ∈ texts, ∀ b ∈ s, plain b = true) : Inert (labelLines o settings r m texts) true := by
  have hindent : ∀ b ∈ labelIndent o settings (Line.indent o.source r.closeOffset) m,
      Byte.isBlank b = true := fun b hb => isBlank_of_mem_labelIndent hb
  have hplain : ∀ {g : Bytes}, (∀ b ∈ g, Byte.isBlank b = true) → ∀ b ∈ g, plain b = true :=
    fun hg b hb => plain_of_isBlank (hg b hb)
  have hunit : ∀ {reference : Bytes}, ∀ b ∈ unit settings reference, Byte.isBlank b = true :=
    fun b hb => isBlank_of_mem_unit hb
  have hjoin := forall_mem_joinWith
    (List.forall_mem_append.mpr ⟨plain_newline o, hplain hindent⟩) h
  rw [labelLines]
  refine .append_gap (.append_gap (.append_commentMarker hcheck (inert_break ?_))
    (gap_newline_text o)) (gap_blanks fun b hb => isBlank_of_mem_indent hb)
  simp only [List.forall_mem_append]
  exact ⟨⟨⟨⟨hplain fun b hb => isBlank_of_mem_lead hindent hunit hb, hjoin⟩, plain_newline o⟩,
    hplain hindent⟩, hplain hunit⟩

/-- **Labels on the line of the brace are inert.** -/
theorem inert_labelsInline (hcheck : settings.check = .ok ())
    (h : ∀ s ∈ texts, ∀ b ∈ s, plain b = true) : Inert (labelsInline o settings r texts) false := by
  have hspace : ∀ b ∈ [Byte.space], plain b = true := List.forall_mem_singleton.mpr rfl
  have hbreak := inert_break (List.forall_mem_append.mpr ⟨forall_mem_joinWith hspace h, hspace⟩)
  have hbody : Inert (joinWith [Byte.space] texts ++ utf8 " break;" ++
      utf8 settings.commentMarker) false := by
    refine Inert.append_commentMarker hcheck ?_
    rw [List.append_assoc] at hbreak
    exact hbreak
  rw [labelsInline]
  split_ifs
  · exact hbody.append_gap gap_space
  · exact hbody.gap_append gap_space

end

end Plan

end Quell
