import Mathlib.Algebra.Group.Nat.Defs
import Mathlib.Tactic.Common
import Quell.Edit.Plan
import Quell.Proofs.Bracket
import Quell.Proofs.Chunk

/-!
# Proofs/Spelling — names, types and labels are spelled in plain bytes

What a label is made of comes from the names of tokens: the enumerators, and the type as it is
written.  The legible form of a plain text is plain (`spelled_legible`), since well-formed
characters outside ASCII have no ASCII bytes, and the escape of an ill-formed byte is a backslash
and a word.
-/

namespace Quell

open Lexer

/-- The text has only plain bytes. -/
def Spelled (s : String) : Prop := ∀ b ∈ utf8 s, plain b = true

/-! ## Characters -/

/-- The character has only plain bytes. -/
def PlainChar (c : Char) : Prop := ∀ b ∈ String.utf8EncodeChar c, plain b = true

/-- A text is spelled in plain bytes exactly if its characters are plain. -/
theorem spelled_iff {s : String} : Spelled s ↔ ∀ c ∈ s.toList, PlainChar c := by
  simp only [Spelled, PlainChar, utf8, List.mem_flatMap]
  exact ⟨fun h c hc b hb => h b ⟨c, hc, hb⟩, fun h b ⟨c, hc, hb⟩ => h c hc b hb⟩

/-- The bytes of two texts joined are those of each. -/
theorem utf8_append (s t : String) : utf8 (s ++ t) = utf8 s ++ utf8 t := by
  rw [utf8, String.toList_append, List.flatMap_append]
  rfl

theorem Spelled.append {s t : String} (hs : Spelled s) (ht : Spelled t) : Spelled (s ++ t) := by
  intro b hb
  rw [utf8_append, List.mem_append] at hb
  exact hb.elim (hs b) (ht b)

theorem spelled_join {texts : List String} (h : ∀ s ∈ texts, Spelled s) :
    Spelled (String.join texts) := by
  rw [spelled_iff]
  intro c hc
  rw [String.toList_join, List.mem_flatMap] at hc
  obtain ⟨s, hs, hc⟩ := hc
  exact spelled_iff.mp (h s hs) c hc

/-- Every byte outside ASCII is plain. -/
theorem plain_of_le {b : UInt8} (h : 128 ≤ b) : plain b = true := by
  simp [plain, Byte.continuesName, Byte.opensName, h]

/-- The bytes of a character outside ASCII lie outside ASCII. -/
theorem le_of_mem_utf8EncodeChar {c : Char} (h : 128 ≤ c.val.toNat) {b : UInt8}
    (hb : b ∈ String.utf8EncodeChar c) : 128 ≤ b := by
  have key : ∀ n, 128 ≤ n % 256 → 128 ≤ UInt8.ofNat n := by
    intro n hn
    rw [UInt8.le_iff_toNat_le, UInt8.toNat_ofNat']
    exact hn
  rw [String.utf8EncodeChar, if_neg (by omega)] at hb
  split_ifs at hb <;> simp only [List.mem_cons, List.not_mem_nil, or_false] at hb
  · rcases hb with rfl | rfl <;> exact key _ (by omega)
  · rcases hb with rfl | rfl | rfl <;> exact key _ (by omega)
  · rcases hb with rfl | rfl | rfl | rfl <;> exact key _ (by omega)

theorem plainChar_of_le {c : Char} (h : 128 ≤ c.val.toNat) : PlainChar c :=
  fun _ hb => plain_of_le (le_of_mem_utf8EncodeChar h hb)

/-! ## Decoding -/

namespace Utf8

/-- The code point of a character with `due + 1` bytes to go lies between those of the first and
the last character in range. -/
theorem readRest_char {due code width : Nat} {lo hi : UInt8} {bytes : Bytes} {c : Char}
    {w : Nat} (hlo : 128 ≤ lo.toNat)
    (h : readRest code width (due + 1) lo hi bytes = .char c w) :
    ∃ n, c = Char.ofNat n ∧ (code * 64 + (lo.toNat - 128)) * 64 ^ due ≤ n ∧
      n < (code * 64 + (hi.toNat - 128) + 1) * 64 ^ due := by
  induction due generalizing code width lo hi bytes with
  | zero =>
    rcases bytes with _ | ⟨b, rest⟩
    · cases h
    · rw [readRest] at h
      split_ifs at h with hb
      rw [readRest, Step.char.injEq] at h
      obtain ⟨rfl, -⟩ := h
      simp only [Bool.and_eq_true, decide_eq_true_eq, UInt8.le_iff_toNat_le] at hb
      exact ⟨_, rfl, by omega, by omega⟩
  | succ due ih =>
    rcases bytes with _ | ⟨b, rest⟩
    · cases h
    · rw [readRest] at h
      split_ifs at h with hb
      obtain ⟨n, rfl, hle, hlt⟩ := ih (by decide) h
      simp only [Bool.and_eq_true, decide_eq_true_eq, UInt8.le_iff_toNat_le] at hb
      refine ⟨n, rfl, Nat.le_trans ?_ hle, Nat.lt_of_lt_of_le hlt ?_⟩
      · rw [Nat.pow_succ, ← Nat.mul_assoc, Nat.mul_right_comm]
        exact Nat.mul_le_mul_right _ (by simp; omega)
      · rw [Nat.pow_succ, ← Nat.mul_assoc, Nat.mul_right_comm _ (64 ^ due)]
        exact Nat.mul_le_mul_right _ (by simp; omega)

theorem plainChar_ofNat {n : Nat} (hlow : 128 ≤ n)
    (hvalid : n < 0xD800 ∨ 0xDFFF < n ∧ n < 0x110000) : PlainChar (Char.ofNat n) := by
  have hchar : n.isValidChar := hvalid
  refine plainChar_of_le ?_
  rw [Char.ofNat, dif_pos hchar]
  exact hlow

/-- The character that a plain byte starts is plain. -/
theorem plainChar_of_step {b : UInt8} {rest : Bytes} {c : Char} {width : Nat}
    (hb : plain b = true) (h : step b rest = .char c width) : PlainChar c := by
  rw [step] at h
  split_ifs at h with hascii
  · rw [Step.char.injEq] at h
    obtain ⟨rfl, -⟩ := h
    have := @forall_byte (fun b => decide (128 ≤ b) || !plain b ||
      (String.utf8EncodeChar (Char.ofNat b.toNat)).all plain) (by decide +kernel) b
    have hlow : decide (128 ≤ b) = false := by
      rw [decide_eq_false_iff_not, UInt8.not_le]
      exact hascii
    simp only [hlow, hb, Bool.false_or, Bool.not_true, List.all_eq_true] at this
    exact this
  · rw [follow?] at h
    -- The ranges leave out overlong forms, surrogates and what lies past the last code point.
    simp only [beq_iff_eq, Bool.and_eq_true, decide_eq_true_eq, UInt8.le_iff_toNat_le,
      ← UInt8.toNat_inj] at h
    split_ifs at h with h1 h2 h3 h4 h5 h6 h7
    all_goals
      dsimp only at h
      obtain ⟨n, rfl, hle, hlt⟩ := readRest_char (by decide) h
      rw [payload, Nat.pow_eq] at hle hlt
      simp only [UInt8.reduceToNat] at *
      exact plainChar_ofNat (by omega) (by omega)

/-- The escape of a byte is plain. -/
theorem plainChar_of_escape {b : UInt8} {c : Char} (h : c ∈ escape b) : PlainChar c := by
  have := @forall_byte (fun b => (escape b).all fun c => (String.utf8EncodeChar c).all plain)
    (by decide +kernel) b
  exact List.all_eq_true.mp (List.all_eq_true.mp this c h)

theorem plainChar_of_spellFrom {text : Bytes} (htext : ∀ b ∈ text, plain b = true) (skip : Nat)
    {c : Char} (hc : c ∈ spellFrom skip text) : PlainChar c := by
  induction text generalizing skip with
  | nil => simp [spellFrom] at hc
  | cons b rest ih =>
    have hrest := fun skip => ih (fun d hd => htext d (List.mem_cons_of_mem b hd)) skip
    rcases skip with _ | skip
    · rw [spellFrom] at hc
      split at hc
      · rename_i d width hstep
        rcases List.mem_cons.mp hc with rfl | hc
        · exact plainChar_of_step (htext b (by simp)) hstep
        · exact hrest _ hc
      · rcases List.mem_append.mp hc with hc | hc
        · obtain ⟨d, -, hd⟩ := List.mem_flatMap.mp hc
          exact plainChar_of_escape hd
        · exact hrest _ hc
    · exact hrest skip hc

/-- **The legible form of a plain text is plain.** -/
theorem spelled_legible {text : Bytes} (h : ∀ b ∈ text, plain b = true) :
    Spelled (legible text) := by
  rw [spelled_iff, legible, String.toList_ofList]
  exact fun c hc => plainChar_of_spellFrom h 0 hc

end Utf8

/-! ## Names of tokens -/

/-- A word or the mark `::`. -/
def Token.isPath (t : Token) : Bool := t.isName || t.isMark "::"

/-- Every name among the tokens is a word. -/
def NamesAreWords (code : Code) : Prop :=
  ∀ (i : Nat) (t : Token), code[i]? = some t → t.isName = true → isWord t.text = true

theorem continuesName_of_isWord {w : Bytes} (h : isWord w = true) :
    ∀ b ∈ w, Byte.continuesName b = true := by
  rcases w with _ | ⟨c, w⟩
  · cases h
  · rw [isWord, Bool.and_eq_true, List.all_eq_true] at h
    intro b hb
    rcases List.mem_cons.mp hb with rfl | hb
    · rw [Byte.continuesName, h.1]
      rfl
    · exact h.2 b hb

theorem plain_of_isWord {w : Bytes} (h : isWord w = true) : ∀ b ∈ w, plain b = true := by
  intro b hb
  rw [plain, continuesName_of_isWord h b hb]
  rfl

/-- The tokens of a slice are those at its places. -/
theorem mem_slice_iff {code : Code} {s : Slice} {t : Token} :
    t ∈ code.slice s ↔ ∃ k, s.start ≤ k ∧ k < s.stop ∧ code[k]? = some t := by
  rw [Code.slice, Array.toList_extract, List.extract_eq_take_drop, List.mem_iff_getElem?]
  constructor
  · rintro ⟨i, hi⟩
    rw [List.getElem?_take] at hi
    split_ifs at hi with hlt
    rw [List.getElem?_drop, Array.getElem?_toList] at hi
    exact ⟨s.start + i, by omega, by omega, hi⟩
  · rintro ⟨k, hle, hlt, hk⟩
    refine ⟨k - s.start, ?_⟩
    rw [List.getElem?_take, if_pos (by omega), List.getElem?_drop, Array.getElem?_toList,
      show s.start + (k - s.start) = k by omega, hk]

/-- A chain of names is made of names and `::`. -/
theorem isPath_of_chainStart {code : Code} {floor last : Nat} (h : code.nameAt last = true)
    {k : Nat} (hle : Declaration.chainStart code floor last ≤ k) (hk : k ≤ last) :
    code.has k Token.isPath = true := by
  have hname : ∀ {i : Nat}, code.nameAt i = true → code.has i Token.isPath = true := by
    intro i hi
    rw [Code.nameAt, Code.has, Option.any_eq_true] at hi
    obtain ⟨t, ht, hname⟩ := hi
    rw [Code.has, ht, Option.any_some, Token.isPath, hname]
    rfl
  have hmark : ∀ {i : Nat}, code.mark i "::" = true → code.has i Token.isPath = true := by
    intro i hi
    rw [Code.mark, Code.has, Option.any_eq_true] at hi
    obtain ⟨t, ht, hmark⟩ := hi
    rw [Code.has, ht, Option.any_some, Token.isPath, hmark, Bool.or_true]
  fun_induction Declaration.chainStart code floor last with
  | case1 s hchain ih =>
    simp only [Bool.and_eq_true] at hchain
    rcases Nat.lt_or_ge s k with hlt | hge
    · rcases Nat.lt_or_ge (s + 1) k with hlt' | hge'
      · obtain rfl : k = s + 2 := by omega
        exact hname h
      · obtain rfl : k = s + 1 := by omega
        exact hmark hchain.1.2
    · exact ih hchain.2 hle hge
  | case2 s _ =>
    obtain rfl : k = s + 2 := by omega
    exact hname h
  | case3 s _ =>
    obtain rfl : k = s := by omega
    exact hname h

section

variable {code : Code} (hcode : NamesAreWords code)

include hcode

/-- A name or `::` is spelled in plain bytes. -/
theorem spelled_of_isPath {i : Nat} {t : Token} (ht : code[i]? = some t)
    (hpath : t.isPath = true) : Spelled t.name := by
  rw [Token.isPath, Bool.or_eq_true] at hpath
  rcases hpath with hname | hmark
  · exact Utf8.spelled_legible (plain_of_isWord (hcode i t ht hname))
  · rw [Token.name, (Token.isMark_iff.mp hmark).2]
    exact Utf8.spelled_legible (forall_mem_of_all (by decide))

theorem spelled_name {i : Nat} (h : code.nameAt i = true) : Spelled (code.name i) := by
  rw [Code.nameAt, Code.has, Option.any_eq_true] at h
  obtain ⟨t, ht, hname⟩ := h
  rw [Code.name, ht]
  exact spelled_of_isPath hcode ht (by rw [Token.isPath, hname]; rfl)

theorem spelled_joined {s : Slice}
    (h : ∀ k, s.start ≤ k → k < s.stop → code.has k Token.isPath = true) :
    Spelled (code.joined s) := by
  refine spelled_join fun text htext => ?_
  obtain ⟨t, ht, rfl⟩ := List.mem_map.mp htext
  obtain ⟨k, hle, hlt, hk⟩ := mem_slice_iff.mp ht
  have hpath := h k hle hlt
  rw [Code.has, hk] at hpath
  exact spelled_of_isPath hcode hk hpath

/-! ## Written types -/

/-- So is a chain of names. -/
theorem spelled_chain {floor last : Nat} (h : code.nameAt last = true) :
    Spelled (code.joined (Declaration.chain code floor last)) := by
  refine spelled_joined hcode fun k hle hlt => ?_
  rw [Declaration.chain] at hle hlt
  dsimp only at hle hlt
  split_ifs at hle with hroot
  · rcases Nat.lt_or_ge k (Declaration.chainStart code floor last) with hbefore | hge
    · -- The token before the chain is its leading `::`.
      simp only [Bool.and_eq_true, decide_eq_true_eq] at hroot
      have hmark := hroot.2
      rw [Code.markBefore, Code.hasBefore.eq_def] at hmark
      split at hmark
      · cases hmark
      · rename_i i hstart
        obtain rfl : k = i := by omega
        rw [Code.has, Option.any_eq_true] at hmark
        obtain ⟨t, ht, hmark⟩ := hmark
        rw [Code.has, ht, Option.any_some, Token.isPath, hmark, Bool.or_true]
    · exact isPath_of_chainStart h hge (by omega)
  · exact isPath_of_chainStart h hle (by omega)

/-- The type has no name, or a name of plain bytes. -/
def SpelledType (type : DeclaredType) : Prop := ∀ name, type = .named name → Spelled name

/-- The type has no name, or the name of a chain among the tokens. -/
def ChainedType (code : Code) (type : DeclaredType) : Prop :=
  ∀ name, type = .named name → ∃ floor last, code.nameAt last = true ∧
    name = code.joined (Declaration.chain code floor last)

/-- A type written as a chain of names is spelled in plain bytes. -/
theorem ChainedType.spelled {type : DeclaredType} (h : ChainedType code type) :
    SpelledType type := by
  rintro name hname
  obtain ⟨floor, last, hlast, rfl⟩ := h name hname
  exact spelled_chain hcode hlast

omit hcode

/-- The scan for a type stops at names and type keywords only. -/
theorem last_typeScan {indices : List Nat} {scan : Declaration.TypeScan}
    (hscan : ∀ i, scan.last = some i →
      code.has i (fun t => t.isName || Declaration.isTypeWord t) = true) :
    ∀ i, (indices.foldl (Declaration.TypeScan.step code) scan).last = some i →
      code.has i (fun t => t.isName || Declaration.isTypeWord t) = true := by
  induction indices generalizing scan with
  | nil => exact hscan
  | cons k indices ih =>
    refine ih fun i hi => ?_
    rw [Declaration.TypeScan.step] at hi
    split_ifs at hi with _ _ _ _ hword
    · exact hscan i hi
    · exact hscan i hi
    · exact hscan i hi
    · exact hscan i hi
    · cases hi
      exact hword
    · exact hscan i hi
    · exact hscan i hi

/-- **The type that a slice names is a chain of names.** -/
theorem chained_typeOf (s : Slice) : ChainedType code (Declaration.typeOf code s) := by
  intro name hname
  rw [Declaration.typeOf] at hname
  split at hname
  · cases hname
  · rename_i i hlast
    have hword := last_typeScan (fun i hi => by cases hi) i hlast
    split_ifs at hname with _ hkeyword
    cases hname
    refine ⟨s.start, i, ?_, rfl⟩
    rw [Code.has, Option.any_eq_true] at hword
    obtain ⟨t, ht, hword⟩ := hword
    rw [Code.has, ht, Option.any_some, beq_iff_eq] at hkeyword
    rw [Code.nameAt, Code.has, ht, Option.any_some]
    rw [Bool.or_eq_true] at hword
    refine hword.resolve_right fun htype => hkeyword ?_
    rw [Declaration.isTypeWord, Token.isKeywordIn, Bool.and_eq_true, beq_iff_eq] at htype
    exact htype.1

/-- The type of a later declarator is a chain of names. -/
theorem chained_laterDeclarator {pairing : Pairing} {floor name : Nat} {d : LocalDecl}
    (h : Declaration.laterDeclarator? code pairing floor name = some d) :
    ChainedType code d.type := by
  rw [Declaration.laterDeclarator?] at h
  dsimp only at h
  split at h
  · cases h
  · obtain ⟨start, -, h⟩ := Option.bind_eq_some_iff.mp h
    obtain ⟨first, -, rfl⟩ := Option.map_eq_some_iff.mp h
    dsimp only
    split
    · rintro name ⟨⟩
    · split
      · rintro name ⟨⟩
      · exact chained_typeOf _

theorem chained_declarationAt {pairing : Pairing} {name floor : Nat} {site : Site}
    {d : LocalDecl} (h : Declaration.declarationAt? code pairing name floor site = some d) :
    ChainedType code d.type := by
  rw [Declaration.declarationAt?] at h
  split at h
  · cases h
  split at h
  · cases h
  split at h
  · cases h
  split at h
  · cases h
  split at h
  · cases h
    exact chained_typeOf _
  split at h
  · exact chained_laterDeclarator h
  · cases h

theorem chained_parameter (pairing : Pairing) (s : Slice) :
    ChainedType code (Declaration.parameter code pairing s).type := by
  rw [Declaration.parameter]
  split
  · exact chained_typeOf _
  dsimp only
  split
  · rintro name ⟨⟩
  split
  · exact chained_typeOf _
  · exact chained_typeOf _

end

/-! ## The type of an operand -/

namespace Operand

variable {o : Outline}

theorem chained_declaredFrom {floor : Nat} {name : String} {depth : Int} {indices : List Nat}
    {type : DeclaredType} (h : type ∈ declaredFrom o floor name depth indices) :
    ChainedType o.code type := by
  fun_induction declaredFrom o floor name depth indices with
  | case1 => cases h
  | case2 _ _ _ _ ih => exact ih h
  | case3 _ _ _ _ _ ih => exact ih h
  | case4 _ _ _ _ _ _ d hd ih =>
    rcases List.mem_cons.mp h with rfl | h
    · exact chained_declarationAt hd
    · exact ih h
  | case5 _ _ _ _ _ _ _ ih => exact ih h
  | case6 _ _ _ _ _ _ ih => exact ih h

theorem chained_lastBefore {scope : Option Nat} {name : String} {limit : Nat}
    {type : DeclaredType} (h : lastBefore? o scope name limit = some type) :
    ChainedType o.code type :=
  chained_declaredFrom (List.mem_of_getLast? h)

theorem chained_memberOf {cls : Nat} {name : String} {type : DeclaredType}
    (h : memberOf? o cls name = some type) : ChainedType o.code type :=
  chained_declaredFrom (List.mem_of_head? h)

theorem chained_inClasses {cls name : String} {type : DeclaredType}
    (h : inClasses? o cls name = some type) : ChainedType o.code type := by
  obtain ⟨r, -, hr⟩ := List.exists_of_findSome?_eq_some h
  exact chained_memberOf hr

theorem chained_inRegion {name : String} {limit : Nat} {r : Region} {type : DeclaredType}
    (h : inRegion? o name limit r = some type) : ChainedType o.code type := by
  rw [inRegion?] at h
  split at h
  · exact chained_memberOf h
  · cases h
  · exact chained_lastBefore h

theorem chained_inHead {name : String} {r : Region} {type : DeclaredType}
    (h : inHead? o name r = some type) : ChainedType o.code type := by
  rw [inHead?] at h
  split_ifs at h
  obtain ⟨opening, -, h⟩ := Option.bind_eq_some_iff.mp h
  obtain ⟨site, -, h⟩ := Option.bind_eq_some_iff.mp h
  obtain ⟨closing, -, h⟩ := Option.bind_eq_some_iff.mp h
  obtain ⟨i, -, h⟩ := List.exists_of_findSome?_eq_some h
  obtain ⟨d, hd, rfl⟩ := Option.map_eq_some_iff.mp h
  exact chained_declarationAt hd

theorem chained_inFunction {name : String} {r : Region} {type : DeclaredType}
    (h : inFunction? o name r = some type) : ChainedType o.code type := by
  rw [inFunction?] at h
  split at h
  · rw [Option.orElse_eq_orElse, Option.orElse_eq_or, Option.or_eq_some_iff] at h
    rcases h with h | ⟨-, h⟩
    · obtain ⟨p, hp, rfl⟩ := Option.map_eq_some_iff.mp h
      obtain ⟨piece, -, rfl⟩ := List.mem_map.mp (List.mem_of_find?_eq_some hp)
      exact chained_parameter _ _
    · obtain ⟨cls, -, h⟩ := Option.bind_eq_some_iff.mp h
      exact chained_inClasses h
  · cases h

/-- The type of a variable, looked up from the inside out, is a chain of names. -/
theorem chained_lookUp {name : String} {limit : Nat} {regions : List Region}
    {type : DeclaredType} (h : lookUp? o name limit regions = some type) :
    ChainedType o.code type := by
  induction regions generalizing limit with
  | nil => exact chained_lastBefore h
  | cons r outer ih =>
    rw [lookUp?] at h
    simp only [Option.orElse_eq_orElse, Option.orElse_eq_or, Option.or_eq_some_iff] at h
    rcases h with h | ⟨-, h | ⟨-, h | ⟨-, h⟩⟩⟩
    · exact chained_inRegion h
    · exact chained_inHead h
    · exact chained_inFunction h
    · exact ih h

theorem chained_lookUpMember {name : String} {regions : List Region} {type : DeclaredType}
    (h : lookUpMember? o name regions = some type) : ChainedType o.code type := by
  induction regions with
  | nil => cases h
  | cons r outer ih =>
    rw [lookUpMember?] at h
    split at h
    · exact chained_memberOf h
    · split at h
      · exact chained_inClasses h
      · exact ih h
    · exact ih h

theorem chained_staticCast {s : Slice} {type : DeclaredType}
    (h : staticCast? o s = some type) : ChainedType o.code type := by
  rw [staticCast?] at h
  split_ifs at h
  obtain ⟨gt, -, h⟩ := Option.bind_eq_some_iff.mp h
  split_ifs at h
  cases h
  exact chained_typeOf _

theorem chained_plainCast {s : Slice} {type : DeclaredType}
    (h : plainCast? o s = some type) : ChainedType o.code type := by
  rw [plainCast?] at h
  split_ifs at h
  obtain ⟨closing, -, h⟩ := Option.bind_eq_some_iff.mp h
  dsimp only at h
  split_ifs at h
  cases h
  exact chained_typeOf _

/-- **The type of an operand is written out in the code**, as a chain of names. -/
theorem chained_operand {condition : Group} {type : DeclaredType}
    (h : typeOf o condition = .ok type) : ChainedType o.code type := by
  rw [typeOf] at h
  split_ifs at h
  · split at h
    · rename_i found htype
      cases h
      exact chained_lookUp htype
    · cases h
  · split at h
    · rename_i found htype
      cases h
      exact chained_lookUpMember htype
    · cases h
  · split at h
    · rename_i found htype
      cases h
      rw [Option.orElse_eq_orElse, Option.orElse_eq_or, Option.or_eq_some_iff] at htype
      rcases htype with htype | ⟨-, htype⟩
      · exact chained_staticCast htype
      · exact chained_plainCast htype
    · cases h

/-- The type of an operand is spelled in plain bytes. -/
theorem spelledType_operand (hcode : NamesAreWords o.code) {condition : Group}
    {type : DeclaredType} (h : typeOf o condition = .ok type) : SpelledType type :=
  (chained_operand h).spelled hcode

end Operand

/-! ## Names of parameters -/

/-- What a parameter declares is a name. -/
theorem nameAt_parameter {code : Code} {pairing : Pairing} {s : Slice} {i : Nat}
    (h : (Declaration.parameter code pairing s).name = some i) : code.nameAt i = true := by
  rw [Declaration.parameter] at h
  split at h
  · cases h
  dsimp only at h
  split at h
  · have := List.find?_some h
    rw [Bool.and_eq_true] at this
    exact this.1
  split at h
  · rename_i hlast
    cases h
    simp only [Bool.and_eq_true] at hlast
    exact hlast.1.1.1
  · cases h

/-- A parameter listed as unused was listed before or is one of those added. -/
theorem mem_of_mem_foldl_add {found listed : List (String × Nat)} {p : String × Nat}
    (h : p ∈ found.foldl UnusedParams.add listed) : p ∈ listed ∨ p ∈ found := by
  induction found generalizing listed with
  | nil => exact .inl h
  | cons q found ih =>
    rcases ih h with h | h
    · rw [UnusedParams.add] at h
      split_ifs at h
      · exact .inl h
      · rcases List.mem_append.mp h with h | h
        · exact .inl h
        · exact .inr (List.mem_singleton.mp h ▸ List.mem_cons_self)
    · exact .inr (List.mem_cons_of_mem q h)

/-- **An unused parameter is reported with the token of its name.** -/
theorem nameAt_unused {o : Outline} {body : Region} {head : FunctionHead} {u : UnusedParams}
    (h : UnusedParams.ofFunction? o body head = some u) {p : String × Nat} (hp : p ∈ u.params) :
    o.code.nameAt p.2 = true ∧ p.1 = o.code.name p.2 := by
  rw [UnusedParams.ofFunction?] at h
  split at h
  · cases h
  · rename_i _ hfound
    cases h
    rcases mem_of_mem_foldl_add hp with hp | hp
    · cases hp
    · obtain ⟨q, hq, hcandidate⟩ := List.mem_filterMap.mp (List.mem_filter.mp hp).1
      obtain ⟨piece, -, rfl⟩ := List.mem_map.mp hq
      split at hcandidate
      · rename_i name token hname htoken
        split_ifs at hcandidate
        cases hcandidate
        obtain ⟨i, hi, hname⟩ := Option.map_eq_some_iff.mp hname
        obtain rfl : i = token := Option.some.inj (hi.symm.trans htoken)
        exact ⟨nameAt_parameter htoken, hname.symm⟩
      · cases hcandidate

/-! ## Labels -/

theorem Text.mem_of_splitLastFrom {text front back : List Char}
    (h : splitLastFrom text = some (front, back)) : ∀ c ∈ front, c ∈ text := by
  induction text generalizing front back with
  | nil => cases h
  | cons d rest ih =>
    rw [splitLastFrom.eq_def] at h
    dsimp only at h
    split at h
    · rename_i before after hrest
      cases h
      intro c hc
      rcases List.mem_cons.mp hc with rfl | hc
      · exact List.mem_cons_self
      · exact List.mem_cons_of_mem d (ih hrest c hc)
    · split at h
      · cases h
        intro c hc
        cases hc
      · cases h

/-- **A label is spelled in plain bytes** if the type and the enumerator are. -/
theorem Omission.spelled_spelling {written enumerator : String} (hwritten : Spelled written)
    (henumerator : Spelled enumerator) (isScoped : Bool) :
    Spelled (spelling written isScoped enumerator) := by
  have hsep : Spelled "::" := forall_mem_of_all (by decide)
  rw [spelling]
  split_ifs
  · exact (hwritten.append hsep).append henumerator
  · split
    · rename_i qualifier last hsplit
      obtain ⟨⟨front, back⟩, hfront, hpair⟩ := Option.map_eq_some_iff.mp hsplit
      cases hpair
      have hqualifier : Spelled (String.ofList front) := by
        rw [spelled_iff, String.toList_ofList]
        exact fun c hc => spelled_iff.mp hwritten c (Text.mem_of_splitLastFrom hfront c hc)
      exact (hqualifier.append hsep).append henumerator
    · exact henumerator

theorem Registry.mem_of_resolve {enums : List Enumeration} {written : String}
    {useScope : List String} {e : Enumeration} (h : resolve enums written useScope = .found e) :
    e ∈ enums := by
  have hagreed : ∀ {several : List Enumeration}, agreed? several = some e → e ∈ several := by
    intro several h
    rcases several with _ | ⟨first, rest⟩
    · cases h
    · rw [agreed?] at h
      split_ifs at h
      cases h
      exact List.mem_cons_self
  have hrepeated : ∀ {several : List Enumeration}, repeated? several = some e → e ∈ several := by
    intro several h
    rcases several with _ | ⟨first, rest⟩
    · cases h
    · rw [repeated?] at h
      split_ifs at h
      cases h
      exact List.mem_cons_self
  have hinnermost : ∀ {several : List Enumeration} {segments : List String},
      e ∈ innermost several segments useScope → e ∈ several := by
    intro several segments h
    rw [innermost] at h
    rcases hfind : List.find? (fun group : List Enumeration => !group.isEmpty) _ with
      _ | group
    · rw [hfind] at h
      cases h
    · rw [hfind, Option.getD_some] at h
      obtain ⟨depth, -, rfl⟩ := List.mem_map.mp (List.mem_of_find?_eq_some hfind)
      exact (List.mem_filter.mp h).1
  have hcandidates : ∀ {rooted : Bool} {segments : List String},
      e ∈ candidates enums rooted segments → e ∈ enums :=
    fun h => (List.mem_filter.mp h).1
  rw [resolve] at h
  split at h
  · cases h
  · rename_i only honly
    cases h
    exact hcandidates (honly ▸ List.mem_singleton_self e)
  · split at h
    · rename_i found hfound
      cases h
      rw [Option.orElse_eq_orElse, Option.orElse_eq_or, Option.or_eq_some_iff] at hfound
      rcases hfound with hfound | ⟨-, hfound⟩
      · exact hcandidates (hinnermost (hagreed hfound))
      · exact hcandidates (hrepeated hfound)
    · cases h

/-- An enumerator is a name of the code. -/
theorem nameAt_enumerator {o : Outline} {e : Enumeration} (he : e ∈ o.enumerations) {name : String}
    (hname : name ∈ e.enumerators) : ∃ i, o.code.nameAt i = true ∧ name = o.code.name i := by
  obtain ⟨r, -, hr⟩ := List.mem_filterMap.mp he
  rw [Enumeration.ofRegion?] at hr
  split at hr
  · cases hr
    obtain ⟨piece, -, hpiece⟩ := List.mem_filterMap.mp (List.mem_eraseDups.mp hname)
    rw [Enumeration.enumerator?] at hpiece
    split_ifs at hpiece with hat
    cases hpiece
    rw [Bool.and_eq_true] at hat
    exact ⟨_, hat.2, rfl⟩
  · cases hr

/-- Where an omission comes from: the type of an operand, and enumerators of the code. -/
theorem written_of_omission {o : Outline} {m : Omission}
    (hm : m ∈ (o.coverage o.enumerations).omissions) :
    (∃ condition, Operand.typeOf o condition = .ok (.named m.written)) ∧
      ∀ e ∈ m.missing, ∃ i, o.code.nameAt i = true ∧ e = o.code.name i := by
  obtain ⟨⟨s, v⟩, hsv, hv⟩ := List.mem_filterMap.mp hm
  obtain ⟨s, -, hpair⟩ := List.mem_map.mp hsv
  cases hpair
  dsimp only at hv
  rw [Coverage.omission?.eq_def] at hv
  split at hv
  · rename_i written enum missing hjudge
    split_ifs at hv
    cases hv
    rw [Coverage.judge] at hjudge
    split_ifs at hjudge
    split at hjudge
    · rename_i found htype
      rw [Coverage.overNamed] at hjudge
      split at hjudge
      · rename_i enum' hresolve
        rw [Verdict.over.injEq] at hjudge
        obtain ⟨rfl, rfl, rfl⟩ := hjudge
        exact ⟨⟨_, htype⟩, fun e he =>
          nameAt_enumerator (Registry.mem_of_resolve hresolve) (List.mem_filter.mp he).1⟩
      · cases hjudge
      · cases hjudge
    all_goals cases hjudge
  · cases hv

/-- **The label of an enumerator that a switch leaves out has only plain bytes.** -/
theorem spelled_caseLabel {o : Outline} (hcode : NamesAreWords o.code) {m : Omission}
    (hm : m ∈ (o.coverage o.enumerations).omissions) {e : String} (he : e ∈ m.missing) :
    Spelled (m.caseLabel e) := by
  obtain ⟨⟨condition, htype⟩, hmissing⟩ := written_of_omission hm
  obtain ⟨i, hi, rfl⟩ := hmissing e he
  exact Omission.spelled_spelling (Operand.spelledType_operand hcode htype _ rfl)
    (spelled_name hcode hi) _

end Quell
