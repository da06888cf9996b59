import Quell.Parameter
import Quell.Proofs.Layout
import Quell.Proofs.Typing

/-!
# Proofs/Signature — a written parameter list, read back

A parameter is written as a type, perhaps a name, array bounds and a default.  The cut counts
brackets and, up to the default, template brackets; the search for the default counts both alike.  A
run is `Seamless` if it moves neither counter, and everything before the default is.  So the list is
cut into its parameters, each loses its default and then its bounds (`parameter_eq`), and what is
left ends with the name if there is one: a type written without a name never ends like one with a
name (`WrittenType.exists_last`).
-/

namespace Quell

open Declaration

namespace Declaration

/-! ## Written parameters -/

/-- Array bounds, each of them one literal. -/
inductive Bounds : List Token → Prop
  | nil : Bounds []
  | snoc {front : List Token} {opener size closer : Token} :
      Bounds front → opener.isMark "[" = true → size.kind = .literal → closer.isMark "]" = true →
      Bounds (front ++ [opener, size, closer])

/-- **A parameter as written**: a type, and perhaps a name, array bounds and a default. -/
structure WrittenParameter where
  type : WrittenType
  name : Option Token
  bounds : List Token
  value : List Token
  isName : ∀ t ∈ name, t.isName = true
  isBounds : Bounds bounds
  initializer : Initializer value

namespace WrittenParameter

/-- The tokens of the parameter. -/
def tokens (w : WrittenParameter) : List Token :=
  (w.type.tokens ++ w.name.toList) ++ (w.bounds ++ w.value)

end WrittenParameter

/-! ## Tokens that cut nothing -/

/-- The marks that move a counter, and the one that begins a default. -/
def counted : List String := ["(", ")", "[", "]", "\x7b", "\x7d", "<", ">", "="]

/-- **The token is none of the marks that matter to a cut.** -/
def Quiet (t : Token) : Prop := ∀ word ∈ "," :: counted, t.isMark word = false

theorem Quiet.of_kind {t : Token} (h : t.kind ≠ .punctuation) : Quiet t :=
  fun word _ => Token.isMark_of_kind h word

theorem Quiet.of_isMark {t : Token} {mark : String} (h : t.isMark mark = true)
    (hmark : ∀ word ∈ "," :: counted, utf8 mark ≠ utf8 word) : Quiet t :=
  fun word hword => Token.isMark_eq_false h (hmark word hword)

/-- A token that is none of the marks counted is no bracket. -/
theorem half?_eq_none_of_counted {t : Token} (h : ∀ word ∈ counted, t.isMark word = false) :
    t.half? = none :=
  have hmem : ∀ bracket ∈ ["(", ")", "[", "]", "\x7b", "\x7d"], bracket ∈ counted := by decide
  Token.half?_eq_none_of_marks fun bracket hbracket => h bracket (hmem bracket hbracket)

theorem Quiet.counted {t : Token} (h : Quiet t) : ∀ word ∈ counted, t.isMark word = false :=
  fun word hword => h word (List.mem_cons_of_mem _ hword)

theorem isMark_counted {t : Token} (h : isArgumentWord t = true) :
    ∀ word ∈ counted, t.isMark word = false := by
  have hne : ∀ word ∈ counted, ∀ mark ∈ ["::", "*", "&", ","], utf8 mark ≠ utf8 word := by decide
  exact fun word hword => isMark_of_isArgumentWord h (hne word hword)

/-- The search for the default passes over the tokens, at any depth. -/
def Skips (tokens : List Token) : Prop :=
  ∀ stop depth i rest, defaultFrom stop depth i (tokens ++ rest) =
    defaultFrom stop depth (i + tokens.length) rest

namespace Skips

variable {u w : List Token} {t : Token}

theorem nil : Skips [] := fun _ _ _ _ => rfl

theorem append (hu : Skips u) (hw : Skips w) : Skips (u ++ w) := by
  intro stop depth i rest
  rw [List.append_assoc, hu, hw, List.length_append, Nat.add_assoc]

/-- The search for a default passes over a token that moves no counter. -/
theorem token (h : ∀ word ∈ counted, t.isMark word = false) : Skips [t] := by
  have hopen : ∀ word ∈ ["(", "[", "\x7b", "<"], word ∈ counted := by decide
  have hclose : ∀ word ∈ [")", "]", "\x7d", ">"], word ∈ counted := by decide
  intro stop depth i rest
  rw [List.singleton_append, defaultFrom,
    Token.isMarkIn_eq_false fun word hword => h word (hopen word hword),
    Token.isMarkIn_eq_false fun word hword => h word (hclose word hword), h "=" (by decide),
    Bool.and_false, if_neg Bool.false_ne_true, if_neg Bool.false_ne_true,
    if_neg Bool.false_ne_true]
  rfl

/-- What a bracket adds to the depth, its partner takes away. -/
theorem wrap {opener closer : Token} {a b : String} (ha : a ∈ ["(", "[", "\x7b", "<"])
    (hopener : opener.isMark a = true) (hu : Skips u) (hb : b ∈ [")", "]", "\x7d", ">"])
    (hcloser : closer.isMark b = true) : Skips (opener :: (u ++ [closer])) := by
  have hne : ∀ b ∈ [")", "]", "\x7d", ">"], ∀ a ∈ ["(", "[", "\x7b", "<"], utf8 b ≠ utf8 a := by
    decide
  intro stop depth i rest
  rw [List.cons_append, List.append_assoc, List.singleton_append, defaultFrom,
    if_pos (Token.isMarkIn_iff.mpr ⟨a, ha, hopener⟩), hu, defaultFrom,
    Token.isMarkIn_eq_false fun a ha => Token.isMark_eq_false hcloser (hne b hb a ha),
    if_neg Bool.false_ne_true, if_pos (Token.isMarkIn_iff.mpr ⟨b, hb, hcloser⟩),
    Int.add_sub_cancel, List.length_cons, List.length_append, List.length_singleton]
  congr 1
  omega

end Skips

/-! ## Runs that move no counter -/

/-- **Neither counter is moved by the run**, and it holds no bracket. -/
structure Seamless (tokens : List Token) : Prop where
  passes : ∀ c : Cut, c.depth = 0 → c.angle = 0 → c.inDefault = false → c.Passes true tokens c
  skips : Skips tokens
  plain : ∀ t ∈ tokens, t.half? = none

namespace Cut

variable {c : Cut} {t : Token}

/-- A token that is none of the marks of a cut leaves it as it is. -/
theorem passes_quiet (h : Quiet t) : c.Passes true [t] c := by
  intro stop i rest
  rw [List.singleton_append, piecesFrom_plain (half?_eq_none_of_counted h.counted),
    h "<" (by decide), h ">" (by decide), h "=" (by decide), h "," (by decide)]
  simp

/-- Inside template brackets a comma ends no piece. -/
theorem passes_argument (h : isArgumentWord t = true) (hangle : 0 < c.angle) :
    c.Passes true [t] c := by
  intro stop i rest
  have hmark := isMark_counted h
  have hzero : decide (c.angle = 0) = false := decide_eq_false (by omega)
  rw [List.singleton_append, piecesFrom_plain (half?_eq_none_of_counted hmark),
    hmark "<" (by decide), hmark ">" (by decide), hzero]
  simp

/-- A `<` at the top opens template arguments. -/
theorem passes_lt (h : t.isMark "<" = true) (hdepth : c.depth = 0)
    (hdefault : c.inDefault = false) : c.Passes true [t] { c with angle := c.angle + 1 } := by
  intro stop i rest
  rw [List.singleton_append, piecesFrom_plain (Token.half?_eq_none_of_isMark h (by decide)), h,
    hdefault, if_neg (by simp [hdepth]), if_pos (by simp)]
  rfl

theorem passes_gt (h : t.isMark ">" = true) (hdepth : c.depth = 0) (hdefault : c.inDefault = false)
    (hangle : 0 < c.angle) : c.Passes true [t] { c with angle := c.angle - 1 } := by
  intro stop i rest
  rw [List.singleton_append, piecesFrom_plain (Token.half?_eq_none_of_isMark h (by decide)), h,
    Token.isMark_eq_false h (show utf8 ">" ≠ utf8 "<" by decide), hdefault,
    if_neg (by simp [hdepth]), if_neg (by simp), if_pos (by simp [hangle])]
  rfl

/-- An `=` at the top starts the default. -/
theorem passes_equals (h : t.isMark "=" = true) (hdepth : c.depth = 0) (hangle : c.angle = 0) :
    c.Passes true [t] { c with inDefault := true } := by
  intro stop i rest
  rw [List.singleton_append, piecesFrom_plain (Token.half?_eq_none_of_isMark h (by decide)), h,
    Token.isMark_eq_false h (show utf8 "=" ≠ utf8 "<" by decide),
    Token.isMark_eq_false h (show utf8 "=" ≠ utf8 ">" by decide),
    if_neg (by simp [hdepth]), if_neg (by simp), if_neg (by simp), if_pos (by simp [hangle])]
  rfl

/-- Template brackets close what they open. -/
theorem passes_group {lt gt : Token} {inner : List Token} (hlt : lt.isMark "<" = true)
    (hgt : gt.isMark ">" = true) (hdepth : c.depth = 0) (hdefault : c.inDefault = false)
    (hinner : Passes true { c with angle := c.angle + 1 } inner { c with angle := c.angle + 1 }) :
    c.Passes true (lt :: (inner ++ [gt])) c :=
  (passes_lt hlt hdepth hdefault).cons
    (hinner.append (passes_gt hgt hdepth hdefault (Nat.succ_pos _)))

end Cut

/-- Between template brackets the cut goes on as it is. -/
theorem Arguments.passes {tokens : List Token} (h : Arguments tokens) {c : Cut}
    (hdepth : c.depth = 0) (hangle : 0 < c.angle) (hdefault : c.inDefault = false) :
    c.Passes true tokens c := by
  induction h generalizing c with
  | nil => exact .nil
  | word ht _ ih => exact (Cut.passes_argument ht hangle).cons (ih hdepth hangle hdefault)
  | @nested lt gt inner rest hlt _ hgt _ ihinner ihrest =>
    have hgroup := Cut.passes_group hlt hgt hdepth hdefault
      (ihinner hdepth (Nat.succ_pos _) hdefault)
    simpa using hgroup.append (ihrest hdepth hangle hdefault)

/-- The search for a default passes over template arguments. -/
theorem Arguments.skips {tokens : List Token} (h : Arguments tokens) : Skips tokens := by
  induction h with
  | nil => exact .nil
  | @word t rest ht _ ih => exact (Skips.token (isMark_counted ht)).append ih
  | @nested lt gt inner rest hlt _ hgt _ ihinner ihrest =>
    have hgroup := Skips.wrap (by decide) hlt ihinner (by decide) hgt
    simpa using hgroup.append ihrest

theorem Arguments.plain {tokens : List Token} (h : Arguments tokens) :
    ∀ t ∈ tokens, t.half? = none := by
  induction h with
  | nil => simp
  | word ht _ ih =>
    exact List.forall_mem_cons.mpr ⟨half?_eq_none_of_counted (isMark_counted ht), ih⟩
  | nested hlt _ hgt _ ihinner ihrest =>
    exact List.forall_mem_cons.mpr ⟨Token.half?_eq_none_of_isMark hlt (by decide),
      List.forall_mem_append.mpr ⟨ihinner,
        List.forall_mem_cons.mpr ⟨Token.half?_eq_none_of_isMark hgt (by decide), ihrest⟩⟩⟩

namespace Seamless

variable {u w : List Token}

theorem nil : Seamless [] := ⟨fun _ _ _ _ => .nil, .nil, by simp⟩

/-- Two runs that move no counter make one. -/
theorem append (hu : Seamless u) (hw : Seamless w) : Seamless (u ++ w) :=
  ⟨fun c hdepth hangle hdefault =>
      (hu.passes c hdepth hangle hdefault).append (hw.passes c hdepth hangle hdefault),
    hu.skips.append hw.skips, List.forall_mem_append.mpr ⟨hu.plain, hw.plain⟩⟩

theorem of_quiet (h : ∀ t ∈ u, Quiet t) : Seamless u := by
  induction u with
  | nil => exact .nil
  | cons t u ih =>
    obtain ⟨ht, hu⟩ := List.forall_mem_cons.mp h
    have htoken : Seamless [t] := ⟨fun _ _ _ _ => Cut.passes_quiet ht, .token ht.counted,
      by simpa using half?_eq_none_of_counted ht.counted⟩
    exact htoken.append (ih hu)

/-- A list of template arguments moves no counter. -/
theorem of_argumentList (h : ArgumentList u) : Seamless u := by
  refine ⟨fun c hdepth _ hdefault => ?_, h.arguments.skips, h.arguments.plain⟩
  cases h with
  | nil => exact .nil
  | cons hlt hinner hgt =>
    exact Cut.passes_group hlt hgt hdepth hdefault
      (hinner.passes hdepth (Nat.succ_pos _) hdefault)

end Seamless

/-- **A written type moves no counter.** -/
theorem WrittenType.seamless (w : WrittenType) : Seamless w.tokens := by
  obtain ⟨front, t, hspine, ht, hfront⟩ := w.name.exists_last
  have hword {u : Token} (hu : isTyping u = true) : Quiet u := .of_kind (kind_ne_of_isTyping hu)
  have hname : ∀ u ∈ w.name.spine, Quiet u := by
    rw [hspine, List.forall_mem_append]
    refine ⟨fun u hu => ?_, by simpa using hword ht⟩
    exact (hfront u hu).elim hword fun hmark => .of_isMark hmark (by decide)
  have hmodifiers : ∀ u ∈ w.modifiers, Quiet u := by
    have hne : ∀ word ∈ "," :: counted, ∀ mark ∈ ["*", "&", "..."], utf8 mark ≠ utf8 word := by
      decide
    exact fun u hu word hword => isMark_of_isModifier (w.isModifiers u hu) (hne word hword)
  have hconst : ∀ u ∈ w.const.toList, Quiet u := fun u hu =>
    .of_kind (kind_ne_of_const (w.isConst u (by simpa using hu)))
  exact (Seamless.of_quiet hconst).append ((Seamless.of_quiet hname).append
    ((Seamless.of_argumentList w.name.isList).append (.of_quiet hmodifiers)))

/-! ## Bounds and defaults -/

namespace Bounds

variable {bounds : List Token}

/-- The bounds of an array leave the cut as it is. -/
theorem passes (h : Bounds bounds) (c : Cut) : c.Passes true bounds c := by
  induction h with
  | nil => exact .nil
  | @snoc front opener size closer _ hopener hsize hcloser ih =>
    have hopen : c.Passes true [opener] { c with depth := c.depth + 1 } :=
      Cut.passes_opening (Token.opening?_square hopener)
    have hinside : Cut.Passes true { c with depth := c.depth + 1 } [size] _ :=
      Cut.passes_quiet (.of_kind (by rw [hsize]; decide))
    have hclose : Cut.Passes true { c with depth := c.depth + 1 } [closer]
        { c with depth := c.depth + 1 - 1 } :=
      Cut.passes_closing (Token.closing?_square hcloser)
    rw [Int.add_sub_cancel] at hclose
    exact ih.append (hopen.cons (hinside.cons hclose))

theorem skips (h : Bounds bounds) : Skips bounds := by
  induction h with
  | nil => exact .nil
  | @snoc front opener size closer _ hopener hsize hcloser ih =>
    have hquiet : Quiet size := .of_kind (by rw [hsize]; decide)
    exact ih.append (.wrap (by decide) hopener (.token hquiet.counted) (by decide) hcloser)

/-- **All bounds are dropped**, and nothing else. -/
theorem drop_eq (h : Bounds bounds) {code : Code} {pairing : Pairing}
    (hpaired : Pairing.ofCode code = .ok pairing) {a i fuel : Nat}
    (hholds : code.Holds i bounds) (hi : a < i) (hfuel : bounds.length ≤ fuel)
    (hbefore : code.markBefore i "]" = false) :
    dropBounds code pairing a fuel (i + bounds.length) = i := by
  induction h generalizing fuel with
  | nil =>
    cases fuel with
    | zero => rfl
    | succ fuel =>
      change dropBounds code pairing a (fuel + 1) i = i
      rw [dropBounds, hbefore, Bool.and_false, if_neg Bool.false_ne_true]
  | @snoc front opener size closer _ hopener hsize hcloser ih =>
    rw [List.length_append] at hfuel ⊢
    simp only [List.length_cons, List.length_nil] at hfuel ⊢
    obtain ⟨fuel, rfl⟩ : ∃ n, fuel = n + 1 := ⟨fuel - 1, by omega⟩
    have hplain := Token.half?_eq_none_iff.mp
      (Token.half?_eq_none_of_kind (by rw [hsize]; decide : size.kind ≠ .punctuation))
    have hpartner := (Pairing.partners_of_holds hpaired (Token.opening?_square hopener)
      (Token.closing?_square hcloser) (.neutral hplain.1 hplain.2) hholds.right).2
    rw [List.length_singleton] at hpartner
    have hclose : code.markBefore (i + (front.length + 3)) "]" = true := by
      rw [show i + (front.length + 3) = i + front.length + 2 + 1 by omega, Code.markBefore,
        Code.hasBefore, Code.has, hholds.right.tail.tail.head, Option.any_some, hcloser]
    rw [dropBounds, hclose, Bool.and_true, if_pos (decide_eq_true (by omega)),
      show i + (front.length + 3) - 1 = i + front.length + 1 + 1 by omega, hpartner]
    dsimp only
    rw [if_pos (by omega), ih hholds.left (by omega)]

end Bounds

namespace Initializer

variable {value : List Token}

/-- A default value leaves the cut at the top. -/
theorem exists_passes (h : Initializer value) {c : Cut} (hdepth : c.depth = 0)
    (hangle : c.angle = 0) : ∃ inDefault, c.Passes true value { c with inDefault } := by
  cases h with
  | nil => exact ⟨c.inDefault, .nil⟩
  | @cons equals value hequals hvalue =>
    obtain ⟨inDefault, hpasses⟩ := hvalue.exists_passes (c := { c with inDefault := true })
      hdepth hangle (.inr rfl)
    exact ⟨inDefault, (Cut.passes_equals hequals hdepth hangle).cons hpasses⟩

/-- The default begins where it is written, or at the end if there is none. -/
theorem defaultFrom_eq (h : Initializer value) (i : Nat) :
    defaultFrom (i + value.length) 0 i value = i := by
  cases h with
  | nil => rfl
  | @cons equals value hequals _ =>
    have hmark {word : String} (hne : utf8 "=" ≠ utf8 word) : equals.isMark word = false :=
      Token.isMark_eq_false hequals hne
    have hopen : ∀ word ∈ ["(", "[", "\x7b", "<"], utf8 "=" ≠ utf8 word := by decide
    have hclose : ∀ word ∈ [")", "]", "\x7d", ">"], utf8 "=" ≠ utf8 word := by decide
    rw [defaultFrom, Token.isMarkIn_eq_false fun word hword => hmark (hopen word hword),
      Token.isMarkIn_eq_false fun word hword => hmark (hclose word hword), hequals]
    rfl

end Initializer

/-! ## Where a name stands -/

theorem isName_of_isTyping {t : Token} (h : isTyping t = false) : t.isName = false :=
  (Bool.or_eq_false_iff.mp h).1

/-- If the name of a type ends with an identifier, this is all of it or stands after `::`. -/
theorem TypeName.exists_end (name : TypeName) : ∃ front t,
    name.spine ++ name.arguments = front ++ [t] ∧ t.isMark "::" = false ∧
      (t.isName = true → front = [] ∨ ∃ before sep, front = before ++ [sep] ∧
        sep.isMark "::" = true) := by
  cases name with
  | builtin words hne harithmetic =>
    obtain ⟨hword, -⟩ := isArithmetic_iff.mp (harithmetic _ (List.getLast_mem hne))
    rw [isTypeWord, Token.isKeywordIn, Bool.and_eq_true, beq_iff_eq] at hword
    refine ⟨words.dropLast, words.getLast hne, ?_, ?_, fun hname => ?_⟩
    · rw [spine, arguments, List.append_nil, List.dropLast_append_getLast]
    · exact Token.isMark_of_kind (by rw [hword.1]; decide) "::"
    · rw [Token.isName, hword.1] at hname
      exact absurd hname (by decide)
  | named path list hpath hlist =>
    cases hlist with
    | nil =>
      rw [spine, arguments, List.append_nil]
      cases hpath with
      | @name t ht =>
        exact ⟨[], t, rfl, Token.isMark_of_kind (Token.kind_ne_of_isName ht) "::",
          fun _ => .inl rfl⟩
      | @snoc front sep t _ hsep ht =>
        exact ⟨front ++ [sep], t, by simp, Token.isMark_of_kind (Token.kind_ne_of_isName ht) "::",
          fun _ => .inr ⟨front, sep, rfl, hsep⟩⟩
    | @cons lt gt inner _ _ hgt =>
      refine ⟨path ++ lt :: inner, gt, by simp [spine, arguments],
        Token.isMark_eq_false hgt (by decide), fun hname => ?_⟩
      rw [isName_of_isTyping (isTyping_of_isMark hgt)] at hname
      exact absurd hname Bool.false_ne_true

theorem bearsType_of_const {t : Token} (h : t.isKeyword "const" = true) : bearsType t = false := by
  rw [bearsType, show (t.isName || isTypeWord t) = false from isTyping_of_const h, Bool.false_or,
    Token.isMark_of_kind (kind_ne_of_const h)]

/-- **A type never ends like a declaration**: if its last token is an identifier, then nothing
before it bears a type, or it is joined to what stands before. -/
theorem WrittenType.exists_last (w : WrittenType) : ∃ front t, w.tokens = front ++ [t] ∧
    t.isMark "::" = false ∧ (t.isName && front.any bearsType &&
      !front.getLast?.any (·.isMark "::")) = false := by
  rcases w.modifiers.eq_nil_or_concat' with hmodifiers | ⟨modifiers, t, hmodifiers⟩
  · obtain ⟨front, t, hend, hmark, hname⟩ := w.name.exists_end
    refine ⟨w.const.toList ++ front, t, ?_, hmark, ?_⟩
    · rw [tokens, hmodifiers, List.append_nil, hend, List.append_assoc]
    · cases htest : t.isName with
      | false => rfl
      | true =>
        rcases hname htest with rfl | ⟨before, sep, rfl, hsep⟩
        · have hconst : w.const.toList.any bearsType = false := by
            rw [List.any_eq_false]
            intro u hu
            rw [bearsType_of_const (w.isConst u (by simpa using hu))]
            exact Bool.false_ne_true
          rw [List.append_nil, hconst, Bool.and_false, Bool.false_and]
        · rw [← List.append_assoc, List.getLast?_concat, Option.any_some, hsep, Bool.not_true,
            Bool.and_false]
  · have ht : isModifier t = true := w.isModifiers t (by rw [hmodifiers]; simp)
    refine ⟨w.const.toList ++ (w.name.spine ++ (w.name.arguments ++ modifiers)), t, ?_,
      isMark_of_isModifier ht (by decide), ?_⟩
    · rw [tokens, hmodifiers]
      simp
    · rw [isName_of_isTyping (isTyping_of_isModifier ht), Bool.false_and, Bool.false_and]

/-- A written type holds a token that bears a type. -/
theorem WrittenType.any_bearsType (w : WrittenType) : w.tokens.any bearsType = true := by
  obtain ⟨front, t, hspine, ht, -⟩ := w.name.exists_last
  have hbears : bearsType t = true := by
    rw [bearsType, show (t.isName || isTypeWord t) = true from ht, Bool.true_or]
  simp [WrittenType.tokens, hspine, hbears]

/-! ## Taking a parameter apart -/

/-- The test for a name, as a question about the tokens before it. -/
theorem nameTest_eq {code : Code} {i : Nat} {front : List Token} {t : Token}
    (hholds : code.Holds i (front ++ [t])) :
    (code.nameAt (i + front.length) && decide (2 ≤ front.length + 1) &&
      !code.markBefore (i + front.length) "::" &&
      (code.slice ⟨i, i + front.length⟩).any bearsType) =
    (t.isName && front.any bearsType && !front.getLast?.any (·.isMark "::")) := by
  have hname : code.nameAt (i + front.length) = t.isName := by
    rw [Code.nameAt, Code.has, hholds.right.head, Option.any_some]
  rw [hname, hholds.left.slice_eq]
  rcases front.eq_nil_or_concat' with rfl | ⟨before, u, rfl⟩
  · simp
  · have hbefore : code.markBefore (i + (before ++ [u]).length) "::" = u.isMark "::" := by
      rw [List.length_append, List.length_singleton, ← Nat.add_assoc, Code.markBefore,
        Code.hasBefore, Code.has, hholds.left.right.head, Option.any_some]
    rw [hbefore, List.getLast?_concat, Option.any_some, decide_eq_true (by simp), Bool.and_true,
      Bool.and_right_comm]

/-- The default of a written parameter begins after its bounds. -/
theorem defaultFrom_written {code : Code} {s : Slice} {u bounds value : List Token}
    (hu : Skips u) (hbounds : Bounds bounds) (hvalue : Initializer value)
    (hreads : code.Reads s (u ++ (bounds ++ value))) :
    defaultFrom s.stop 0 s.start (code.slice s) = s.start + u.length + bounds.length := by
  have hend : s.stop = s.start + u.length + bounds.length + value.length := by
    have := hreads.1
    simp only [List.length_append] at this
    omega
  rw [hreads.slice_eq, hu, hbounds.skips, hend, hvalue.defaultFrom_eq]

/-- Nothing is pointed to in parentheses where there are none. -/
theorem find?_pointed {code : Code} {i : Nat} {u : List Token} (hholds : code.Holds i u)
    (hplain : ∀ t ∈ u, t.half? = none) :
    (Slice.mk i (i + u.length)).indices.find? (fun k =>
      code.mark k "(" && code.has (k + 1) (·.isMarkIn ["*", "&", "^"])) = none := by
  rw [List.find?_eq_none]
  intro k hk
  obtain ⟨hle, hlt⟩ := Slice.mem_indices.mp hk
  have hround : code.mark k "(" = false := (hholds.mark_eq_false hplain hle hlt .round).1
  rw [hround, Bool.false_and]
  exact Bool.false_ne_true

/-- **A parameter without its bounds and its default** ends with its name, if it has the shape of
one that is named. -/
theorem parameter_eq {code : Code} {pairing : Pairing} (hpaired : Pairing.ofCode code = .ok pairing)
    {front bounds value : List Token} {t : Token} {s : Slice} (hseamless : Seamless (front ++ [t]))
    (hbounds : Bounds bounds) (hvalue : Initializer value)
    (hreads : code.Reads s ((front ++ [t]) ++ (bounds ++ value))) :
    parameter code pairing s =
      if t.isName && front.any bearsType && !front.getLast?.any (·.isMark "::") then
        { name := some (s.start + front.length)
          decl := ⟨s.start, s.start + (front ++ [t]).length + bounds.length⟩
          type := typeOf code ⟨s.start, s.start + front.length⟩
          maybeUnused := marksUnused (code.slice s) }
      else
        { name := none
          decl := ⟨s.start, s.start + (front ++ [t]).length + bounds.length⟩
          type := typeOf code ⟨s.start, s.start + (front ++ [t]).length + bounds.length⟩
          maybeUnused := marksUnused (code.slice s) } := by
  have hdefault := defaultFrom_written hseamless.skips hbounds hvalue hreads
  obtain ⟨hstop, hholds⟩ := hreads
  have hsize := hholds.length_le
  have hdeclared := hholds.left
  have hpointed := find?_pointed hdeclared hseamless.plain
  have hlength : (front ++ [t]).length = front.length + 1 := by
    rw [List.length_append, List.length_singleton]
  simp only [List.length_append, List.length_singleton] at hstop hsize
  have hskip : skipAttributes code pairing s.stop code.size s.start = s.start := by
    refine Attributes.nil.skip_eq hpaired (by simp [Code.Holds]) ?_ (Nat.zero_le _) ?_
    · rw [List.length_nil]
      omega
    · exact (hdeclared.mark_eq_false hseamless.plain (Nat.le_refl _) (by omega) .square).1
  have hdrop : dropBounds code pairing s.start code.size
      (s.start + (front ++ [t]).length + bounds.length) = s.start + (front ++ [t]).length := by
    refine hbounds.drop_eq hpaired hholds.right.left (by omega) (by omega) ?_
    rw [hlength]
    exact (hdeclared.mark_eq_false (k := s.start + front.length) hseamless.plain (by omega)
      (by omega) .square).2
  rw [parameter]
  dsimp only
  rw [hskip, hdefault, if_neg (by omega), hdrop, hpointed]
  dsimp only
  rw [hlength, show s.start + (front.length + 1) - 1 = s.start + front.length by omega,
    show s.start + (front.length + 1) - s.start = front.length + 1 by omega,
    nameTest_eq hdeclared]

namespace WrittenParameter

/-- **A type with its name moves no counter.** -/
theorem seamless (w : WrittenParameter) : Seamless (w.type.tokens ++ w.name.toList) := by
  refine w.type.seamless.append (.of_quiet fun t ht => ?_)
  exact .of_kind (Token.kind_ne_of_isName (w.isName t (by simpa using ht)))

/-- The cut passes over a parameter, whatever its default holds. -/
theorem whole (w : WrittenParameter) : Whole true w.tokens := by
  intro start
  obtain ⟨inDefault, hvalue⟩ := w.initializer.exists_passes (c := { start }) rfl rfl
  exact ⟨inDefault, (w.seamless.passes { start } rfl rfl rfl).append
    ((w.isBounds.passes { start }).append hvalue)⟩

/-- **A written parameter is taken apart** into its name and its type. -/
theorem parameter_name (w : WrittenParameter) {code : Code} {pairing : Pairing}
    (hpaired : Pairing.ofCode code = .ok pairing) {s : Slice} (hreads : code.Reads s w.tokens) :
    (parameter code pairing s).name = w.name.map (fun _ => s.start + w.type.tokens.length) ∧
      (w.name.isSome = true → (parameter code pairing s).type = w.type.declared) := by
  have hseamless := w.seamless
  rw [tokens] at hreads
  obtain ⟨front, last, hlast, hmark, hunnamed⟩ := w.type.exists_last
  cases hname : w.name with
  | none =>
    rw [hname, Option.toList_none, List.append_nil, hlast] at hseamless hreads
    rw [parameter_eq hpaired hseamless w.isBounds w.initializer hreads, hunnamed,
      if_neg Bool.false_ne_true]
    exact ⟨rfl, nofun⟩
  | some t =>
    rw [hname, Option.toList_some] at hseamless hreads
    have htest : (t.isName && w.type.tokens.any bearsType &&
        !w.type.tokens.getLast?.any (·.isMark "::")) = true := by
      rw [w.isName t hname, w.type.any_bearsType, hlast, List.getLast?_concat, Option.any_some,
        hmark]
      rfl
    rw [parameter_eq hpaired hseamless w.isBounds w.initializer hreads, if_pos htest]
    exact ⟨rfl, fun _ => typeOf_written w.type hreads.2.left.left⟩

end WrittenParameter

end Declaration

/-! ## Parameters read back -/

/-- **The parameter is the one written from token `i` on**: it has its name, where that stands, and
its type if it is named. -/
structure Parameter.Restores (p : Parameter) (i : Nat) (w : WrittenParameter) : Prop where
  name_eq : p.name = w.name.map (·.name)
  token_eq : p.token = w.name.map fun _ => i + w.type.tokens.length
  type_eq : w.name.isSome = true → p.type = w.type.declared

/-- The parameters are those written from token `i` on, with one comma between them. -/
inductive Parameter.Restored : (i : Nat) → List Parameter → List WrittenParameter → Prop
  | nil {i : Nat} : Restored i [] []
  | cons {i : Nat} {p : Parameter} {ps : List Parameter} {w : WrittenParameter}
      {ws : List WrittenParameter} :
      p.Restores i w → Restored (i + w.tokens.length + 1) ps ws → Restored i (p :: ps) (w :: ws)

namespace Parameter

/-- What one piece declares is what is written in it. -/
theorem restores_ofPiece {o : Outline} (h : o.Valid) {w : WrittenParameter} {s : Slice}
    (hreads : o.code.Reads s w.tokens) : (ofPiece o s).Restores s.start w := by
  obtain ⟨hname, htype⟩ := w.parameter_name h.paired hreads
  refine ⟨?_, hname, htype⟩
  have hat : ∀ t ∈ w.name, o.code.name (s.start + w.type.tokens.length) = t.name := by
    intro t ht
    have hholds := hreads.2.left.right
    rw [Option.mem_def.mp ht] at hholds
    rw [Code.name, hholds.head]
    rfl
  rw [ofPiece, hname]
  dsimp only
  rw [Option.map_map]
  cases ht : w.name with
  | none => rfl
  | some t => exact congrArg some (hat t ht)

/-- Names stand in the order of the parameters. -/
theorem Restored.pairwise {i : Nat} {ps : List Parameter} {ws : List WrittenParameter}
    (h : Restored i ps ws) :
    (ps.filterMap (·.token)).Pairwise (· < ·) ∧ ∀ k ∈ ps.filterMap (·.token), i ≤ k := by
  induction h with
  | nil => exact ⟨.nil, by simp⟩
  | @cons i p ps w ws hp _ ih =>
    obtain ⟨hordered, hbound⟩ := ih
    have hlength : w.type.tokens.length ≤ w.tokens.length := by
      simp [WrittenParameter.tokens]
    have hbound' : ∀ k ∈ ps.filterMap (·.token), i + w.type.tokens.length < k := fun k hk => by
      have := hbound k hk
      omega
    cases hname : w.name with
    | none =>
      have htoken : p.token = none := by rw [hp.token_eq, hname]; rfl
      rw [List.filterMap_cons_none htoken]
      exact ⟨hordered, fun k hk => by have := hbound' k hk; omega⟩
    | some t =>
      have htoken : p.token = some (i + w.type.tokens.length) := by rw [hp.token_eq, hname]; rfl
      rw [List.filterMap_cons_some htoken]
      refine ⟨.cons hbound' hordered, List.forall_mem_cons.mpr ⟨Nat.le_add_right _ _, ?_⟩⟩
      exact fun k hk => by have := hbound' k hk; omega

end Parameter

/-- **A written parameter list reads back**: there is one parameter for each that is written, in
order, with its name, where that stands, and its type if it is named; and the names stand in
order. -/
theorem parameters_read_back {source : Bytes} {o : Outline} (h : Outline.ofSource source = .ok o)
    (head : FunctionHead) {row : List WrittenParameter} {tokens : List Token}
    (hlisted : Listed (row.map (·.tokens)) tokens)
    (hparams : o.code.Reads head.params.inner tokens) :
    Parameter.Restored head.params.inner.start (o.parameters head) row ∧
      ((o.parameters head).filterMap (·.token)).Pairwise (· < ·) := by
  have hvalid := (Outline.ofSource_eq_ok_iff_valid.mp h).2
  have hrestored : Parameter.Restored head.params.inner.start (o.parameters head) row := by
    have hruns := hlisted.forall₂_reads hparams.2
    rw [Outline.parameters, pieces_listed hlisted hparams
      (List.forall_mem_map.mpr fun w _ => w.whole)]
    generalize head.params.inner.start = i at hruns
    clear hlisted hparams
    induction row generalizing i with
    | nil => exact .nil
    | cons w row ih =>
      obtain ⟨hw, hrow⟩ := List.forall₂_cons.mp hruns
      exact .cons (Parameter.restores_ofPiece hvalid hw) (ih _ hrow)
  exact ⟨hrestored, hrestored.pairwise.1⟩

/-- Commas in template arguments, a default with a lone `<`, and parameters without a name. -/
theorem parameters_read_back_mixed :
    ∃ (o : Outline) (r : Region) (head : FunctionHead) (row : List WrittenParameter)
        (tokens : List Token),
      Outline.ofSource (utf8 ("void f(const std::map<int, T*> &m, unsigned int, "
        ++ "char *p[3] = a < b, N::C) \x7b\x7d")) = .ok o ∧
      r ∈ o.forest.toList ∧ r.kind = .functionBody head ∧
      row.map (fun w => w.name.map (·.name)) = [some "m", none, some "p", none] ∧
      row.map (·.type.declared) = [.named "std::map", .builtin, .pointer, .named "N::C"] ∧
      Listed (row.map (·.tokens)) tokens ∧ o.code.Reads head.params.inner tokens ∧
      Parameter.Restored 3 (o.parameters head) row ∧
      ((o.parameters head).filterMap (·.token)).Pairwise (· < ·) := by
  let head : FunctionHead := ⟨"f", ⟨2, 33⟩, false⟩
  let r : Region := ⟨0, .functionBody head, 34, 35, 75, 77, none⟩
  let mark (word : String) (start : Nat) : Token := ⟨.punctuation, utf8 word, start⟩
  let name (word : String) (start : Nat) : Token := ⟨.identifier, utf8 word, start⟩
  let keyword (word : String) (start : Nat) : Token := ⟨.keyword, utf8 word, start⟩
  let map : TypeName := .named [name "std" 13, mark "::" 16, name "map" 18]
    [mark "<" 21, keyword "int" 22, mark "," 25, name "T" 27, mark "*" 28, mark ">" 29]
    (@NamePath.snoc [_] _ _ (.name rfl) rfl rfl)
    (@ArgumentList.cons _ _ [keyword "int" 22, mark "," 25, name "T" 27, mark "*" 28] rfl
      (.word rfl (.word rfl (.word rfl (.word rfl .nil)))) rfl)
  let path : NamePath [name "N" 69, mark "::" 70, name "C" 72] :=
    @NamePath.snoc [_] _ _ (.name rfl) rfl rfl
  let unnamed (type : WrittenType) : WrittenParameter :=
    ⟨type, none, [], [], by decide, .nil, .nil⟩
  let first : WrittenParameter :=
    { type := ⟨some (keyword "const" 7), map, [mark "&" 31], by decide, by decide⟩
      name := some (name "m" 32)
      bounds := []
      value := []
      isName := by decide
      isBounds := .nil
      initializer := .nil }
  let second : WrittenParameter := unnamed
    ⟨none, .builtin [keyword "unsigned" 35, keyword "int" 44] (by decide) (by decide), [],
      by decide, by decide⟩
  let third : WrittenParameter :=
    { type := ⟨none, .builtin [keyword "char" 49] (by decide) (by decide), [mark "*" 54],
        by decide, by decide⟩
      name := some (name "p" 55)
      bounds := [mark "[" 56, ⟨.literal, utf8 "3", 57⟩, mark "]" 58]
      value := [mark "=" 60, name "a" 62, mark "<" 64, name "b" 66]
      isName := by decide
      isBounds := @Bounds.snoc [] _ _ _ .nil rfl rfl rfl
      initializer := .cons rfl (by decide) }
  let fourth : WrittenParameter := unnamed ⟨none, .named _ [] path .nil, [], by decide, by decide⟩
  let tokens : List Token := first.tokens ++ mark "," 33 :: (second.tokens ++ mark "," 47 ::
    (third.tokens ++ mark "," 67 :: fourth.tokens))
  have hlisted : Listed ([first, second, third, fourth].map (·.tokens)) tokens :=
    .cons rfl (.cons rfl (.cons rfl (.last (by decide))))
  obtain ⟨o, h, hdata⟩ := Outline.exists_ofSource
    (utf8 ("void f(const std::map<int, T*> &m, unsigned int, "
      ++ "char *p[3] = a < b, N::C) \x7b\x7d"))
    (fun o => decide (r ∈ o.forest.toList ∧ o.code.slice head.params.inner = tokens ∧
      head.params.inner.stop ≤ o.code.size)) (a := true) (by decide +kernel)
  obtain ⟨hr, hslice, hstop⟩ := of_decide_eq_true hdata
  have hreads := Code.reads_of_slice hslice (by decide) hstop
  exact ⟨o, r, head, _, tokens, h, hr, rfl, by decide, by decide, hlisted, hreads,
    parameters_read_back h head hlisted hreads⟩

end Quell
