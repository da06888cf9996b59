import Mathlib.Tactic.Common
import Quell.Proofs.Layout

/-!
# Proofs/Segments — qualified names, cut at their separators

The pieces of two texts with `::` between them are the pieces of the one and those of the other, if
the first does not end in a colon (`segments_append`).  A written name is a row of `Segment`s, each
an identifier with or without template arguments.  The name is cut as a flat text, so its qualifiers
come out as written exactly if no template argument holds a separator (`qualifier_eq_iff`).
-/

namespace Quell

namespace Text

/-! ## Pieces -/

/-- The text holds a `::`. -/
def HasSeparator (chars : List Char) : Prop := [':', ':'] <:+: chars

/-- What is held goes in front of the first piece. -/
theorem piecesFrom_append_held (held below chars : List Char) :
    piecesFrom (held ++ below) chars =
      (piecesFrom held chars).modifyHead (below.reverse ++ ·) := by
  fun_induction piecesFrom held chars with
  | case1 held => simp [piecesFrom]
  | case2 held rest _ => simp [piecesFrom]
  | case3 held c rest hcolons ih => rw [piecesFrom.eq_3 _ _ _ hcolons, ← List.cons_append, ih]

/-- Text without colons is held until the next piece begins. -/
theorem piecesFrom_append_of_not_mem {front : List Char} (h : ':' ∉ front) (rest : List Char) :
    piecesFrom [] (front ++ rest) = (piecesFrom [] rest).modifyHead (front ++ ·) := by
  have hheld : ∀ held,
      piecesFrom held (front ++ rest) = piecesFrom (front.reverse ++ held) rest := by
    induction front with
    | nil => simp
    | cons c front ih =>
      rw [List.mem_cons, not_or] at h
      intro held
      rw [List.cons_append, piecesFrom.eq_3 _ _ _ fun _ hc => absurd hc.symm h.1, ih h.2,
        List.reverse_cons, List.append_assoc, List.singleton_append]
  rw [hheld, List.append_nil, ← List.nil_append front.reverse, piecesFrom_append_held,
    List.reverse_reverse]

/-- A separator cuts, unless the colon before it takes its first colon away. -/
theorem piecesFrom_append_separator {front : List Char} (h : front.getLast? ≠ some ':')
    (held back : List Char) :
    piecesFrom held (front ++ ':' :: ':' :: back) =
      piecesFrom held front ++ piecesFrom [] back := by
  fun_induction piecesFrom held front with
  | case1 held => rfl
  | case2 held rest ih =>
    have hrest : rest.getLast? ≠ some ':' := by
      cases rest with
      | nil => exact absurd rfl h
      | cons c rest => simpa using h
    rw [List.cons_append, List.cons_append, piecesFrom, ih hrest, List.cons_append]
  | case3 held c rest hcolons ih =>
    cases rest with
    | nil =>
      have hc : c ≠ ':' := by simpa using h
      rw [List.singleton_append, piecesFrom.eq_3 _ _ _ fun _ heq => absurd heq hc]
      rfl
    | cons d rest =>
      rw [List.cons_append, piecesFrom.eq_3, ih (by simpa using h)]
      rintro tail rfl heq
      exact hcolons rest rfl (by simp only [List.cons_append, List.cons.injEq] at heq; rw [heq.1])

/-- A text without `::` is one segment. -/
theorem piecesFrom_of_not_hasSeparator {chars : List Char} (h : ¬HasSeparator chars)
    (held : List Char) : piecesFrom held chars = [held.reverse ++ chars] := by
  fun_induction piecesFrom held chars with
  | case1 held => simp
  | case2 held rest _ => exact absurd ⟨[], rest, rfl⟩ h
  | case3 held c rest _ ih =>
    rw [ih fun hrest => h (List.infix_cons hrest), List.reverse_cons, List.append_assoc,
      List.singleton_append]

/-- A text that does not end in a colon ends in a piece that is not empty; where it holds a
separator, that is not its first piece. -/
theorem exists_last_piece {chars : List Char} (hne : chars ≠ []) (hlast : chars.getLast? ≠ some ':')
    (held : List Char) : ∃ front last, piecesFrom held chars = front ++ [last] ∧ last ≠ [] ∧
      (HasSeparator chars → front ≠ []) := by
  fun_induction piecesFrom held chars with
  | case1 held => exact absurd rfl hne
  | case2 held rest ih =>
    cases rest with
    | nil => exact absurd rfl hlast
    | cons c rest =>
      obtain ⟨front, last, hpieces, hpiece, -⟩ :=
        ih (List.cons_ne_nil c rest) (by simpa using hlast)
      exact ⟨held.reverse :: front, last, by rw [hpieces, List.cons_append], hpiece,
        fun _ => List.cons_ne_nil _ _⟩
  | case3 held c rest hcolons ih =>
    cases rest with
    | nil =>
      refine ⟨[], (c :: held).reverse, rfl, by simp, fun hseparator => ?_⟩
      have := hseparator.length_le
      simp at this
    | cons d rest =>
      obtain ⟨front, last, hpieces, hpiece, hfront⟩ :=
        ih (List.cons_ne_nil d rest) (by simpa using hlast)
      refine ⟨front, last, hpieces, hpiece, fun hseparator => hfront ?_⟩
      rcases List.infix_cons_iff.mp hseparator with hprefix | hinfix
      · obtain ⟨tail, htail⟩ := hprefix
        simp only [List.cons_append, List.nil_append, List.cons.injEq] at htail
        exact absurd htail.2.1.symm fun hd => hcolons rest htail.1.symm (by rw [hd])
      · exact hinfix

/-- The pieces of a text that does not end in a colon: a later one that is not empty stands there
exactly if the text holds a separator. -/
theorem exists_pieces {chars : List Char} (hne : chars ≠ []) (hlast : chars.getLast? ≠ some ':') :
    ∃ first rest, piecesFrom [] chars = first :: rest ∧
      (HasSeparator chars ↔ ∃ piece ∈ rest, piece ≠ []) := by
  obtain ⟨front, last, hpieces, hpiece, hmany⟩ := exists_last_piece hne hlast []
  cases front with
  | nil => exact ⟨last, [], hpieces, fun h => absurd rfl (hmany h), by simp⟩
  | cons first front =>
    refine ⟨first, front ++ [last], hpieces, fun _ => ⟨last, by simp, hpiece⟩, fun _ => ?_⟩
    by_contra hseparator
    rw [piecesFrom_of_not_hasSeparator hseparator] at hpieces
    simp at hpieces

/-! ## Segments -/

/-- The segments of two names joined by `::` are those of each. -/
theorem segments_append {front back : String} (h : front.toList.getLast? ≠ some ':') :
    segments (front ++ "::" ++ back) = segments front ++ segments back := by
  have hpieces : pieces (front ++ "::" ++ back) = pieces front ++ pieces back := by
    rw [pieces, String.toList_append, String.toList_append, List.append_assoc,
      show "::".toList = [':', ':'] by decide, List.cons_append, List.cons_append, List.nil_append,
      piecesFrom_append_separator h, List.map_append]
    rfl
  rw [segments, hpieces, List.filter_append]
  rfl

/-- **The segments of texts joined by `::`** are those of each text. -/
theorem segments_qualified {texts : List String}
    (h : ∀ s ∈ texts, s.toList.getLast? ≠ some ':') :
    segments (qualified texts) = texts.flatMap segments := by
  induction texts with
  | nil => decide
  | cons s rest ih =>
    cases rest with
    | nil => rw [qualified, String.intercalate_singleton, List.flatMap_singleton]
    | cons t rest =>
      rw [qualified, String.intercalate_cons_cons, segments_append (h s List.mem_cons_self),
        List.flatMap_cons]
      exact congrArg _ (ih fun t ht => h t (List.mem_cons_of_mem s ht))

/-- A text that is not empty and holds no separator is its own segment. -/
theorem segments_eq_singleton {s : String} (hne : s ≠ "") (h : ¬HasSeparator s.toList) :
    segments s = [s] := by
  rw [segments, pieces, piecesFrom_of_not_hasSeparator h, List.reverse_nil, List.nil_append,
    List.map_singleton, String.ofList_toList, List.filter_eq_self]
  simp [hne]

/-- Joined segments are read back. -/
theorem segments_qualified_of_plain {names : List String}
    (h : ∀ s ∈ names, s ≠ "" ∧ ':' ∉ s.toList) : segments (qualified names) = names := by
  rw [segments_qualified fun s hs hcolon => (h s hs).2 (List.mem_of_getLast? hcolon)]
  induction names with
  | nil => rfl
  | cons s names ih =>
    obtain ⟨hne, hcolon⟩ := h s List.mem_cons_self
    rw [List.flatMap_cons, ih fun t ht => h t (List.mem_cons_of_mem s ht),
      segments_eq_singleton hne fun hseparator => hcolon (hseparator.subset (by simp)),
      List.singleton_append]

/-! ## Segments with template arguments -/

/-- One segment of a written name: an identifier and, perhaps, template arguments. -/
structure Segment where
  name : String
  /-- The template arguments with their brackets; empty if there are none. -/
  arguments : String
  name_ne : name ≠ ""
  plain : ∀ c ∈ name.toList, c ≠ ':' ∧ c ≠ '<'
  enclosed : arguments = "" ∨ ∃ inner, arguments = "<" ++ inner ++ ">"

/-- The segment as written. -/
def Segment.text (s : Segment) : String := s.name ++ s.arguments

/-- A name as written: its segments with `::` between them and, if it is rooted, in front. -/
def written (rooted : Bool) (row : List Segment) : String :=
  (if rooted then "::" else "") ++ qualified (row.map Segment.text)

/-- A text up to its first `<`. -/
def beforeArguments (s : String) : String := String.ofList (s.toList.takeWhile (· != '<'))

namespace Segment

variable (s : Segment)

theorem colon_not_mem_name : ':' ∉ s.name.toList := fun hmem => (s.plain ':' hmem).1 rfl

theorem getLast?_text : s.text.toList.getLast? ≠ some ':' := by
  rw [text, String.toList_append]
  rcases s.enclosed with harguments | ⟨inner, harguments⟩
  · rw [harguments]
    exact fun hlast => s.colon_not_mem_name (by simpa using List.mem_of_getLast? hlast)
  · rw [harguments, String.toList_append, ← List.append_assoc,
      show ">".toList = ['>'] from rfl, List.getLast?_concat]
    decide

/-- What template arguments hold is cut off. -/
theorem beforeArguments_append (more : List Char) (hmore : more.head?.all (· == '<')) :
    beforeArguments (String.ofList (s.name.toList ++ more)) = s.name := by
  have hnone : more.takeWhile (· != '<') = [] := by
    cases more with
    | nil => rfl
    | cons c more =>
      obtain rfl : c = '<' := by simpa using hmore
      rfl
  rw [beforeArguments, String.toList_ofList, List.takeWhile_append_of_pos fun c hc => by
    simpa using (s.plain c hc).2, hnone, List.append_nil, String.ofList_toList]

/-- The text of a segment is cut only inside its template arguments. -/
theorem exists_segments : ∃ more, (segments s.text).map beforeArguments = s.name :: more ∧
    (more = [] ↔ ¬HasSeparator s.arguments.toList) := by
  rcases s.enclosed with harguments | ⟨inner, harguments⟩
  · have hwhole : ¬HasSeparator s.name.toList := fun hseparator =>
      s.colon_not_mem_name (hseparator.subset (by simp))
    have hname := s.beforeArguments_append [] rfl
    rw [List.append_nil, String.ofList_toList] at hname
    refine ⟨[], ?_, by simp [harguments, HasSeparator]⟩
    rw [text, harguments, String.append_empty, segments_eq_singleton s.name_ne hwhole,
      List.map_singleton, hname]
  · obtain ⟨tail, htail, hne, hlast⟩ : ∃ tail, s.arguments.toList = '<' :: tail ∧ tail ≠ [] ∧
        tail.getLast? ≠ some ':' := ⟨inner.toList ++ ['>'], by simp [harguments], by simp, by simp⟩
    have hseparator : HasSeparator s.arguments.toList ↔ HasSeparator tail := by
      rw [htail, HasSeparator, List.infix_cons_iff]
      simp [HasSeparator]
    have hfront : ':' ∉ s.name.toList ++ ['<'] := by simpa using s.colon_not_mem_name
    obtain ⟨first, rest, hpieces, hmany⟩ := exists_pieces hne hlast
    have hsegments : segments s.text = String.ofList (s.name.toList ++ '<' :: first) ::
        (rest.map String.ofList).filter (!·.isEmpty) := by
      rw [segments, pieces, text, String.toList_append, htail, ← List.singleton_append,
        ← List.append_assoc, piecesFrom_append_of_not_mem hfront, hpieces, List.modifyHead_cons,
        List.map_cons, List.append_assoc, List.singleton_append, List.filter_cons_of_pos]
      simp
    refine ⟨_, by rw [hsegments, List.map_cons, s.beforeArguments_append _ rfl], ?_⟩
    rw [hseparator, hmany, List.map_eq_nil_iff, List.filter_eq_nil_iff]
    simp

end Segment

theorem segments_written (rooted : Bool) (row : List Segment) :
    segments (written rooted row) = row.flatMap fun s => segments s.text := by
  have hrow : segments (qualified (row.map Segment.text)) =
      row.flatMap fun s => segments s.text := by
    rw [segments_qualified (by simpa using fun s _ => s.getLast?_text), List.flatMap_map]
  cases rooted with
  | false => rw [written, if_neg Bool.false_ne_true, String.empty_append, hrow]
  | true =>
    have hroot := @segments_append "" (qualified (row.map Segment.text)) (by simp)
    rw [written, if_pos rfl, ← hrow, ← String.empty_append (s := "::"), hroot]
    rfl

end Text

open Text

theorem FunctionHead.qualifier_eq (h : FunctionHead) :
    h.qualifier = ((segments h.name).map beforeArguments).dropLast := rfl

/-- A row of cons cells is longer than the row by what they hold besides. -/
theorem length_flatMap_cons {α β : Type} (head : α → β) (more : α → List β) (row : List α) :
    (row.flatMap fun s => head s :: more s).length = row.length + (row.flatMap more).length := by
  induction row with
  | nil => rfl
  | cons s row ih =>
    simp only [List.flatMap_cons, List.length_append, List.length_cons, ih]
    omega

/-- **The qualifiers of a written name come out as written exactly if its template arguments hold no
`::`**: the name is cut at every separator, those of its arguments included. -/
theorem qualifier_eq_iff (rooted : Bool) (row : List Segment) (params : Group) (isTry : Bool) :
    (FunctionHead.mk (written rooted row) params isTry).qualifier =
        (row.map (·.name)).dropLast ↔
      ∀ s ∈ row, ¬HasSeparator s.arguments.toList := by
  choose more hmore hnil using Segment.exists_segments
  have hparts : ((segments (written rooted row)).map beforeArguments) =
      row.flatMap fun s => s.name :: more s := by
    rw [segments_written, List.map_flatMap]
    exact congrArg (row.flatMap ·) (funext hmore)
  rw [FunctionHead.qualifier_eq, hparts]
  constructor
  · -- Every part beyond the names makes the list longer.
    intro hsame s hs
    have hlengths := congrArg List.length hsame
    rw [List.length_dropLast, List.length_dropLast, length_flatMap_cons,
      List.length_map] at hlengths
    have hpos := List.length_pos_of_mem hs
    have hnone : row.flatMap more = [] := List.length_eq_zero_iff.mp (by omega)
    exact (hnil s).mp (List.flatMap_eq_nil_iff.mp hnone s hs)
  · intro hplain
    have hnames : (row.flatMap fun s => s.name :: more s) = row.flatMap fun s => [s.name] := by
      rw [List.flatMap_def, List.flatMap_def, List.map_congr_left]
      exact fun s hs => by rw [(hnil s).mpr (hplain s hs)]
    rw [hnames, ← List.map_eq_flatMap]

/-- A template argument that is qualified itself: the only qualifier is `Foo`, and the rest of its
argument comes out as another. -/
theorem qualifier_reads_arguments :
    ∃ o row, Outline.ofSource (utf8 "void Foo<std::string>::m() \x7b\x7d") = .ok o ∧
      o.functions.map (·.2.name) = [written false row] ∧
      (row.map (·.name)).dropLast = ["Foo"] ∧
      o.functions.map (·.2.qualifier) = [["Foo", "string>"]] := by
  obtain ⟨o, h, hheads⟩ := Outline.exists_ofSource (utf8 "void Foo<std::string>::m() \x7b\x7d")
    (fun o => (o.functions.map (·.2.name), o.functions.map (·.2.qualifier)))
    (a := (["Foo<std::string>::m"], [["Foo", "string>"]])) (by decide +kernel)
  obtain ⟨hname, hqualifier⟩ := Prod.mk.inj hheads
  refine ⟨o, [⟨"Foo", "<std::string>", by decide, by simp, .inr ⟨"std::string", by decide⟩⟩,
    ⟨"m", "", by decide, by simp, .inl rfl⟩], h, hname.trans ?_, rfl, hqualifier⟩
  decide +kernel

end Quell
