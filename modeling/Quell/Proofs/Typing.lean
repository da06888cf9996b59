import Quell.Declaration.Type
import Quell.Proofs.Pieces

/-!
# Proofs/Typing — the type that a written declaration names

A type is written as a run of arithmetic keywords or as a path of names, perhaps with template
arguments, between `const` and the marks of pointers and references.  The scan passes over template
arguments however they nest (`Arguments.scans`), so it is left with the last word of the type's name
and with whether a `*` follows (`WrittenType.scans`); from that word the path is read backwards to
where it begins (`NamePath.chainStart_eq`).  Together these give back the written type
(`typeOf_written`).
-/

namespace Quell.Declaration

/-! ## Written types -/

/-- A keyword that names an arithmetic type, or part of one. -/
def isArithmetic (t : Token) : Bool := isTypeWord t && !t.spells "auto" && !t.spells "decltype"

/-- A token of template arguments that is none of their brackets. -/
def isArgumentWord (t : Token) : Bool :=
  t.isName || t.kind == .keyword || t.kind == .literal || t.isMarkIn ["::", "*", "&", ","]

/-- A token that may stand between a type and the declared name. -/
def isModifier (t : Token) : Bool := t.isKeyword "const" || t.isMarkIn ["*", "&", "..."]

/-- Names joined by `::`. -/
inductive NamePath : List Token → Prop
  | name {t : Token} : t.isName = true → NamePath [t]
  | snoc {front : List Token} {sep t : Token} :
      NamePath front → sep.isMark "::" = true → t.isName = true → NamePath (front ++ [sep, t])

/-- What stands between template brackets, which may nest. -/
inductive Arguments : List Token → Prop
  | nil : Arguments []
  | word {t : Token} {rest : List Token} :
      isArgumentWord t = true → Arguments rest → Arguments (t :: rest)
  | nested {lt gt : Token} {inner rest : List Token} :
      lt.isMark "<" = true → Arguments inner → gt.isMark ">" = true → Arguments rest →
      Arguments (lt :: (inner ++ gt :: rest))

/-- Template arguments in their brackets, or nothing. -/
inductive ArgumentList : List Token → Prop
  | nil : ArgumentList []
  | cons {lt gt : Token} {inner : List Token} :
      lt.isMark "<" = true → Arguments inner → gt.isMark ">" = true →
      ArgumentList (lt :: (inner ++ [gt]))

/-- A list in its brackets could stand among template arguments itself. -/
theorem ArgumentList.arguments {tokens : List Token} (h : ArgumentList tokens) :
    Arguments tokens := by
  cases h with
  | nil => exact .nil
  | cons hlt hinner hgt => exact .nested hlt hinner hgt .nil

/-- **The name of a type**: arithmetic keywords, or a path with template arguments. -/
inductive TypeName where
  | builtin (words : List Token) (ne : words ≠ []) (arithmetic : ∀ t ∈ words, isArithmetic t = true)
  | named (path arguments : List Token) (isPath : NamePath path) (isList : ArgumentList arguments)

namespace TypeName

/-- The tokens that spell the name, without template arguments. -/
def spine : TypeName → List Token
  | builtin words _ _ => words
  | named path _ _ _ => path

/-- The template arguments. -/
def arguments : TypeName → List Token
  | builtin _ _ _ => []
  | named _ arguments _ _ => arguments

/-- What the name says of the type. -/
def declared : TypeName → DeclaredType
  | builtin _ _ _ => .builtin
  | named path _ _ _ => .named (String.join (path.map (·.name)))

end TypeName

/-- **A type as written** before a declared name. -/
structure WrittenType where
  const : Option Token
  name : TypeName
  modifiers : List Token
  isConst : ∀ t ∈ const, t.isKeyword "const" = true
  isModifiers : ∀ t ∈ modifiers, isModifier t = true

namespace WrittenType

/-- The tokens of the type. -/
def tokens (w : WrittenType) : List Token :=
  w.const.toList ++ (w.name.spine ++ (w.name.arguments ++ w.modifiers))

/-- What is written of the type: a pointer if a `*` follows its name. -/
def declared (w : WrittenType) : DeclaredType :=
  if w.modifiers.any (·.isMark "*") then .pointer else w.name.declared

end WrittenType

/-! ## The words of a type -/

/-- A word that can be the last one of a type's name. -/
def isTyping (t : Token) : Bool := t.isName || isTypeWord t

theorem isTyping_of_isArithmetic {t : Token} (h : isArithmetic t = true) : isTyping t = true := by
  simp only [isArithmetic, Bool.and_eq_true] at h
  rw [isTyping, h.1.1, Bool.or_true]

theorem kind_ne_of_isTyping {t : Token} (h : isTyping t = true) : t.kind ≠ .punctuation := by
  intro hkind
  simp [isTyping, Token.isName, isTypeWord, Token.isKeywordIn, hkind] at h

theorem isTyping_of_isMark {t : Token} {word : String} (h : t.isMark word = true) :
    isTyping t = false := by
  rw [← Bool.not_eq_true]
  exact fun htyping => kind_ne_of_isTyping htyping (Token.isMark_iff.mp h).1

theorem isTyping_of_const {t : Token} (h : t.isKeyword "const" = true) : isTyping t = false := by
  simp only [Token.isKeyword, Token.spells, Bool.and_eq_true, beq_iff_eq] at h
  simp only [isTyping, Token.isName, isTypeWord, Token.isKeywordIn, Token.spells, h.1, h.2]
  decide

theorem kind_ne_of_const {t : Token} (h : t.isKeyword "const" = true) : t.kind ≠ .punctuation := by
  rw [Token.isKeyword, Bool.and_eq_true, beq_iff_eq] at h
  rw [h.1]
  decide

/-- No token of template arguments but their own brackets is one. -/
theorem isMark_of_isArgumentWord {t : Token} (h : isArgumentWord t = true) {word : String}
    (hword : ∀ mark ∈ ["::", "*", "&", ","], utf8 mark ≠ utf8 word) : t.isMark word = false := by
  by_cases hkind : t.kind = .punctuation
  · have hmark : t.isMarkIn ["::", "*", "&", ","] = true := by
      simpa [isArgumentWord, Token.isName, hkind] using h
    obtain ⟨mark, hmem, hmark⟩ := Token.isMarkIn_iff.mp hmark
    exact Token.isMark_eq_false hmark (hword mark hmem)
  · exact Token.isMark_of_kind hkind word

namespace NamePath

variable {path : List Token}

/-- A path of names ends in a name. -/
theorem exists_last (h : NamePath path) : ∃ front t, path = front ++ [t] ∧ t.isName = true ∧
    ∀ u ∈ front, u.isName = true ∨ u.isMark "::" = true := by
  induction h with
  | @name t ht => exact ⟨[], t, rfl, ht, by simp⟩
  | @snoc front sep t _ hsep ht ih =>
    obtain ⟨before, last, rfl, hlast, hbefore⟩ := ih
    refine ⟨before ++ [last] ++ [sep], t, by simp, ht, fun u hu => ?_⟩
    simp only [List.mem_append, List.mem_singleton] at hu
    rcases hu with (hu | rfl) | rfl
    · exact hbefore u hu
    · exact .inl hlast
    · exact .inr hsep

/-- **The chain that ends with a path begins where the path does**, if the scan may not look
further. -/
theorem chainStart_eq (h : NamePath path) {code : Code} {floor i : Nat}
    (hholds : code.Holds i path) (hfloor : floor ≤ i) (hi : i ≤ floor + 1) :
    chainStart code floor (i + path.length - 1) = i := by
  induction h with
  | name _ =>
    rw [List.length_singleton, Nat.add_sub_cancel]
    match i, hi with
    | 0, _ | 1, _ => rfl
    | s + 2, hi => rw [chainStart, decide_eq_false (by omega), Bool.false_and, Bool.false_and,
        if_neg Bool.false_ne_true]
  | @snoc front sep t hfront hsep _ ih =>
    obtain ⟨before, last, rfl, hlast, -⟩ := hfront.exists_last
    have hsepAt : code[i + before.length + 1]? = some sep := by
      have := hholds.right.head
      rwa [List.length_append, List.length_singleton, ← Nat.add_assoc] at this
    have hlastAt : code[i + before.length]? = some last := hholds.left.right.head
    have hprev := ih hholds.left
    rw [List.length_append, List.length_singleton, ← Nat.add_assoc, Nat.add_sub_cancel] at hprev
    rw [show i + (before ++ [last] ++ [sep, t]).length - 1 = i + before.length + 2 by simp; omega,
      chainStart, Code.mark, Code.nameAt, Code.has, Code.has, hsepAt, hlastAt, Option.any_some,
      Option.any_some, hsep, hlast, hprev, if_pos (by simp; omega)]

end NamePath

/-! ## The scan -/

namespace TypeScan

variable {s next last : TypeScan} {i : Nat} {t : Token} {u w : List Token}

/-- The scan takes the tokens that stand from index `i` on from one state to the next. -/
def Scans (s : TypeScan) (i : Nat) (tokens : List Token) (next : TypeScan) : Prop :=
  ∀ code : Code, code.Holds i tokens →
    (List.range' i tokens.length).foldl (TypeScan.step code) s = next

theorem Scans.nil : s.Scans i [] s := fun _ _ => rfl

theorem Scans.append (hu : s.Scans i u next) (hw : next.Scans (i + u.length) w last) :
    s.Scans i (u ++ w) last := by
  intro code hholds
  rw [List.length_append, ← List.range'_append_1, List.foldl_append, hu code hholds.left,
    hw code hholds.right]

theorem Scans.cons (ht : s.Scans i [t] next) (hw : next.Scans (i + 1) w last) :
    s.Scans i (t :: w) last := ht.append hw

/-- One token, whatever code it stands in. -/
theorem scans_token (h : (if 0 < s.angle then
      if t.isMark "<" then { s with angle := s.angle + 1 }
      else if t.isMark ">" then { s with angle := s.angle - 1 }
      else s
    else if t.isMark "<" then { s with angle := 1 }
    else if isTyping t then { s with last := some i, pointer := false }
    else if t.isMark "*" && s.last.isSome then { s with pointer := true }
    else s) = next) : s.Scans i [t] next := by
  intro code hholds
  rw [List.length_singleton, List.range'_one, List.foldl_cons, List.foldl_nil, step, Code.mark,
    Code.mark, Code.mark, Code.has, Code.has, Code.has, Code.has, hholds.head]
  exact h

/-- Inside template arguments the scan notes nothing. -/
theorem scans_inside (hangle : 0 < s.angle) (hlt : t.isMark "<" = false)
    (hgt : t.isMark ">" = false) : s.Scans i [t] s := scans_token (by simp [hangle, hlt, hgt])

/-- Outside them, a word that may end the name of a type is noted. -/
theorem scans_typing (hangle : s.angle = 0) (h : isTyping t = true) :
    s.Scans i [t] { s with last := some i, pointer := false } :=
  scans_token (by simp [hangle, h, Token.isMark_of_kind (kind_ne_of_isTyping h)])

/-- Outside template arguments only a `*` counts besides words, and only after one. -/
theorem scans_other (hangle : s.angle = 0) (hstar : t.isMark "*" = true → s.last.isSome = true)
    (hlt : t.isMark "<" = false) (h : isTyping t = false) :
    s.Scans i [t] { s with pointer := s.pointer || t.isMark "*" } := by
  refine scans_token ?_
  cases hmark : t.isMark "*" with
  | true => simp [hangle, hstar hmark, hlt, h]
  | false =>
    obtain ⟨angle, last, pointer⟩ := s
    cases hangle
    simp [hlt, h]

/-- Template brackets are passed over if what they hold is. -/
theorem scans_group {lt gt : Token} (hlt : lt.isMark "<" = true) (hgt : gt.isMark ">" = true)
    (hinner : Scans { s with angle := s.angle + 1 } (i + 1) u { s with angle := s.angle + 1 }) :
    s.Scans i (lt :: (u ++ [gt])) s := by
  have hopen : s.Scans i [lt] { s with angle := s.angle + 1 } := by
    refine scans_token ?_
    rw [hlt, if_pos rfl, if_pos rfl]
    rcases Nat.eq_zero_or_pos s.angle with hzero | hpos
    · rw [if_neg (by omega), hzero]
    · rw [if_pos hpos]
  have hclose : Scans { s with angle := s.angle + 1 } (i + 1 + u.length) [gt] s :=
    scans_token (by simp [hgt, Token.isMark_eq_false hgt (show utf8 ">" ≠ utf8 "<" by decide)])
  exact hopen.cons (hinner.append hclose)

end TypeScan

open TypeScan

/-- **Template arguments leave the scan as it is.** -/
theorem Arguments.scans {tokens : List Token} (h : Arguments tokens) {s : TypeScan} {i : Nat}
    (hangle : 0 < s.angle) : s.Scans i tokens s := by
  induction h generalizing s i with
  | nil => exact .nil
  | word ht _ ih =>
    exact (scans_inside hangle (isMark_of_isArgumentWord ht (by decide))
      (isMark_of_isArgumentWord ht (by decide))).cons (ih hangle)
  | nested hlt _ hgt _ ihinner ihrest =>
    simpa using (scans_group hlt hgt (ihinner (Nat.succ_pos _))).append (ihrest hangle)

/-- Template arguments are passed over. -/
theorem ArgumentList.scans {tokens : List Token} (h : ArgumentList tokens) {s : TypeScan}
    {i : Nat} : s.Scans i tokens s := by
  cases h with
  | nil => exact .nil
  | cons hlt hinner hgt => exact scans_group hlt hgt (hinner.scans (Nat.succ_pos _))

/-! ## The scan of a written type -/

/-- The name of a type is a path to a word that may end it. -/
theorem TypeName.exists_last (name : TypeName) : ∃ front t, name.spine = front ++ [t] ∧
    isTyping t = true ∧ ∀ u ∈ front, isTyping u = true ∨ u.isMark "::" = true := by
  cases name with
  | builtin words hne harithmetic =>
    refine ⟨words.dropLast, words.getLast hne, (List.dropLast_append_getLast hne).symm,
      isTyping_of_isArithmetic (harithmetic _ (List.getLast_mem hne)), fun u hu => .inl ?_⟩
    exact isTyping_of_isArithmetic (harithmetic u (List.dropLast_subset words hu))
  | named path _ hpath _ =>
    obtain ⟨front, t, hsplit, ht, hfront⟩ := hpath.exists_last
    have htyping {u : Token} (hu : u.isName = true) : isTyping u = true := by
      rw [isTyping, hu, Bool.true_or]
    exact ⟨front, t, hsplit, htyping ht, fun u hu => (hfront u hu).imp_left htyping⟩

theorem TypeName.isList (name : TypeName) : ArgumentList name.arguments := by
  cases name with
  | builtin _ _ _ => exact .nil
  | named _ _ _ hlist => exact hlist

/-- Words and `::` change at most the last word and whether a `*` followed it. -/
theorem exists_scans_front {front : List Token}
    (h : ∀ u ∈ front, isTyping u = true ∨ u.isMark "::" = true) {s : TypeScan} {i : Nat}
    (hangle : s.angle = 0) : ∃ last pointer, s.Scans i front { s with last, pointer } := by
  induction front generalizing s i with
  | nil => exact ⟨s.last, s.pointer, .nil⟩
  | cons t front ih =>
    obtain ⟨ht, hfront⟩ := List.forall_mem_cons.mp h
    obtain ⟨last, pointer, hstep⟩ : ∃ last pointer, s.Scans i [t] { s with last, pointer } := by
      rcases ht with ht | ht
      · exact ⟨_, _, scans_typing hangle ht⟩
      · have hstar := Token.isMark_eq_false ht (show utf8 "::" ≠ utf8 "*" by decide)
        exact ⟨s.last, _, scans_other hangle (by simp [hstar])
          (Token.isMark_eq_false ht (by decide)) (isTyping_of_isMark ht)⟩
    obtain ⟨last', pointer', hrest⟩ := ih hfront (s := { s with last, pointer }) (i := i + 1) hangle
    exact ⟨last', pointer', hstep.cons hrest⟩

/-- **The scan of a type's name notes its last token.** -/
theorem TypeName.scans (name : TypeName) {s : TypeScan} {i : Nat} (hangle : s.angle = 0) :
    s.Scans i name.spine { s with last := some (i + name.spine.length - 1), pointer := false } := by
  obtain ⟨front, t, hspine, ht, hfront⟩ := name.exists_last
  obtain ⟨last, pointer, hscans⟩ := exists_scans_front hfront (i := i) hangle
  rw [hspine, List.length_append, List.length_singleton, ← Nat.add_assoc, Nat.add_sub_cancel]
  exact hscans.append (scans_typing hangle ht)

theorem isTyping_of_isModifier {t : Token} (h : isModifier t = true) : isTyping t = false := by
  rw [isModifier, Bool.or_eq_true, Token.isMarkIn_iff] at h
  obtain hconst | ⟨mark, -, hmark⟩ := h
  · exact isTyping_of_const hconst
  · exact isTyping_of_isMark hmark

theorem isMark_of_isModifier {t : Token} (h : isModifier t = true) {word : String}
    (hword : ∀ mark ∈ ["*", "&", "..."], utf8 mark ≠ utf8 word) : t.isMark word = false := by
  rw [isModifier, Bool.or_eq_true, Token.isMarkIn_iff] at h
  obtain hconst | ⟨mark, hmem, hmark⟩ := h
  · exact Token.isMark_of_kind (kind_ne_of_const hconst) word
  · exact Token.isMark_eq_false hmark (hword mark hmem)

/-- Of modifiers the scan notes whether there is a `*`. -/
theorem scans_modifiers {modifiers : List Token} (h : ∀ t ∈ modifiers, isModifier t = true)
    {s : TypeScan} {i : Nat} (hangle : s.angle = 0) (hlast : s.last.isSome = true) :
    s.Scans i modifiers { s with pointer := s.pointer || modifiers.any (·.isMark "*") } := by
  induction modifiers generalizing s i with
  | nil =>
    rw [List.any_nil, Bool.or_false]
    exact .nil
  | cons t modifiers ih =>
    obtain ⟨ht, hrest⟩ := List.forall_mem_cons.mp h
    have hstep := scans_other (i := i) hangle (fun _ => hlast) (isMark_of_isModifier ht (by decide))
      (isTyping_of_isModifier ht)
    rw [List.any_cons, ← Bool.or_assoc]
    exact hstep.cons (ih hrest (s := { s with pointer := s.pointer || t.isMark "*" }) hangle hlast)

/-- **The scan of a written type** ends with the last word of its name. -/
theorem WrittenType.scans (w : WrittenType) (i : Nat) :
    ({} : TypeScan).Scans i w.tokens
      { last := some (i + w.const.toList.length + w.name.spine.length - 1)
        pointer := w.modifiers.any (·.isMark "*") } := by
  have hconst : ({} : TypeScan).Scans i w.const.toList {} := by
    cases hconst : w.const with
    | none => exact .nil
    | some t =>
      have ht := w.isConst t hconst
      have hmark := Token.isMark_of_kind (kind_ne_of_const ht)
      have hstep := scans_other (s := {}) (i := i) rfl (by simp [hmark]) (hmark "<")
        (isTyping_of_const ht)
      rw [hmark, Bool.or_false] at hstep
      exact hstep
  refine hconst.append ((w.name.scans rfl).append (w.name.isList.scans.append ?_))
  exact scans_modifiers w.isModifiers rfl rfl

theorem isArithmetic_iff {t : Token} : isArithmetic t = true ↔
    isTypeWord t = true ∧ t.spells "auto" = false ∧ t.spells "decltype" = false := by
  simp [isArithmetic, and_assoc]

/-- What the code asks of the last word of a type's name gives what the name says. -/
theorem TypeName.declared_eq (name : TypeName) {code : Code} {floor i : Nat}
    (hholds : code.Holds i name.spine) (hfloor : floor ≤ i) (hi : i ≤ floor + 1)
    (hbefore : floor < i → code.markBefore i "::" = false) :
    (if code.has (i + name.spine.length - 1) (·.kind == .keyword) then
      if code.has (i + name.spine.length - 1) (·.spells "auto") then .auto
      else if code.has (i + name.spine.length - 1) (·.spells "decltype") then .unknown
      else .builtin
    else .named (code.joined (chain code floor (i + name.spine.length - 1)))) = name.declared := by
  have hlast {front : List Token} {t : Token} (hspine : name.spine = front ++ [t]) :
      code[i + name.spine.length - 1]? = some t := by
    rw [hspine] at hholds ⊢
    rw [List.length_append, List.length_singleton, ← Nat.add_assoc, Nat.add_sub_cancel]
    exact hholds.right.head
  cases name with
  | builtin words hne harithmetic =>
    obtain ⟨hword, hauto, hdecltype⟩ := isArithmetic_iff.mp (harithmetic _ (List.getLast_mem hne))
    rw [isTypeWord, Token.isKeywordIn, Bool.and_eq_true] at hword
    simp only [Code.has, hlast (List.dropLast_append_getLast hne).symm, Option.any_some, hword.1,
      hauto, hdecltype]
    rfl
  | named path _ hpath _ =>
    obtain ⟨front, t, hsplit, ht, -⟩ := hpath.exists_last
    have hpathAt : code.Holds i path := hholds
    have hkind : (t.kind == .keyword) = false := by
      rw [beq_iff_eq.mp ht]
      rfl
    have hstart : ¬(floor < i && code.markBefore i "::") = true := by
      simpa using hbefore
    have hchain : chain code floor (i + path.length - 1) = ⟨i, i + path.length⟩ := by
      rw [chain, hpath.chainStart_eq hpathAt hfloor hi, if_neg hstart]
      congr 1
      rw [hsplit, List.length_append, List.length_singleton]
      omega
    rw [Code.has, hlast hsplit, Option.any_some, hkind, if_neg Bool.false_ne_true, spine, hchain,
      Code.joined, hpathAt.slice_eq]
    rfl

/-- **A written type reads back.** -/
theorem typeOf_written {code : Code} {i : Nat} (w : WrittenType) (hholds : code.Holds i w.tokens) :
    typeOf code ⟨i, i + w.tokens.length⟩ = w.declared := by
  rw [typeOf, Slice.indices, Slice.size, Nat.add_sub_cancel_left, w.scans i code hholds]
  dsimp only
  rw [WrittenType.declared, w.name.declared_eq hholds.right.left (Nat.le_add_right _ _)]
  · cases w.const <;> simp
  · intro hlt
    cases hconst : w.const with
    | none => simp [hconst] at hlt
    | some t =>
      have ht : code[i]? = some t := by
        have := hholds.left
        rw [hconst] at this
        exact this.head
      rw [Option.toList_some, List.length_singleton, Code.markBefore, Code.hasBefore, Code.has, ht,
        Option.any_some, Token.isMark_of_kind (kind_ne_of_const (w.isConst t hconst))]

end Quell.Declaration
