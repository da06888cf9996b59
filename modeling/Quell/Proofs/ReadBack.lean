import Quell.Proofs.Heading
import Quell.Proofs.Legible
import Quell.Proofs.Weave

/-!
# Proofs/ReadBack — a written label is read as the enumerator it names

The label of a missing enumerator is a `Path`: names of the code with `::` between them, the
enumerator last (`exists_path`).  Names are written in legible form, so a path without a backslash
is written in the very bytes of its tokens, and lexing gives these back (`Path.lexes`).  A text that
has nothing but such a path between `case` and `:` holds one label, for the last name of the path.
-/

namespace Quell

open Lexer

/-! ## Paths -/

/-- An identifier token as the lexer makes them: a word that is not reserved. -/
structure Token.IsFree (t : Token) : Prop where
  kind_eq : t.kind = .identifier
  isWord : isWord t.text = true
  ofWord : Kind.ofWord t.text = .identifier

/-- **The tokens of a qualified name, from its last name back**: names with `::` between them, and
perhaps before the first. -/
inductive Path : List Token → Prop
  | nil : Path []
  | name {t : Token} : t.IsFree → Path [t]
  | cons {t sep : Token} {back : List Token} :
      t.IsFree → sep.isMark "::" = true → Path back → Path (t :: sep :: back)

namespace Path

variable {back : List Token}

theorem readsBack (h : Path back) : Label.readsBack back = true := by
  induction h with
  | nil => rfl
  | name ht => rw [Label.readsBack, Token.isName, ht.kind_eq]; rfl
  | cons ht hsep _ ih => rw [Label.readsBack, Token.isName, ht.kind_eq, hsep, ih]; rfl

/-- A path is made of names without colons and `::`. -/
theorem free_or_colons (h : Path back) : ∀ t ∈ back, t.IsFree ∨ t.isMark "::" = true := by
  induction h with
  | nil => simp
  | name ht => simpa using .inl ht
  | cons ht hsep _ ih =>
    intro u hu
    rcases List.mem_cons.mp hu with rfl | hu
    · exact .inl ht
    rcases List.mem_cons.mp hu with rfl | hu
    · exact .inr hsep
    · exact ih u hu

/-- Where the tokens stand is no part of a path. -/
theorem congr (h : Path back) {other : List Token}
    (hshape : other.map Token.shape = back.map Token.shape) : Path other := by
  have hfree {t u : Token} (htu : u.shape = t.shape) (ht : t.IsFree) : u.IsFree := by
    obtain ⟨hkind, htext⟩ := Prod.mk.inj htu
    exact ⟨hkind.trans ht.kind_eq, htext ▸ ht.isWord, htext ▸ ht.ofWord⟩
  induction h generalizing other with
  | nil => rw [List.map_eq_nil_iff.mp hshape]; exact .nil
  | name ht =>
    obtain ⟨u, rest, rfl, hu, hrest⟩ := List.map_eq_cons_iff.mp hshape
    rw [List.map_eq_nil_iff.mp hrest]
    exact .name (hfree hu ht)
  | cons ht hsep _ ih =>
    obtain ⟨u, rest, rfl, hu, hrest⟩ := List.map_eq_cons_iff.mp hshape
    obtain ⟨mid, rest, rfl, hmid, hrest⟩ := List.map_eq_cons_iff.mp hrest
    obtain ⟨hkind, htext⟩ := Prod.mk.inj hmid
    refine .cons (hfree hu ht) ?_ (ih hrest)
    rw [Token.isMark_iff] at hsep ⊢
    exact ⟨hkind.trans hsep.1, htext.trans hsep.2⟩

end Path

/-! ## Lexing a path -/

/-- A `::` is a token whatever follows. -/
theorem lexes_colons (start : Nat) (fresh : Bool) (v : Bytes) :
    Lexes start fresh (utf8 "::") v [⟨.punctuation, utf8 "::", start⟩] false := by
  have htext : utf8 "::" = [58, 58] := by decide
  have hscan : scan fresh 58 (58 :: v) = .ok ⟨.punctuation, 1⟩ := by
    rw [scan_plain rfl]
    rfl
  rw [htext]
  refine .token (x := [58]) (w := []) (gap_eq_zero_iff.mpr ⟨by decide, by decide, ?_⟩) hscan .nil
  exact fun hb => absurd hb.1 (by decide)

/-- **A path reads as its own tokens** before anything that does not continue its last name. -/
theorem Path.lexes {back : List Token} (h : Path back) {v : Bytes}
    (hname : v.head?.any Byte.continuesName = false) (hquote : v.head?.any isQuote = false)
    (start : Nat) (fresh : Bool) :
    ∃ tokens fresh', Lexes start fresh (back.reverse.flatMap (·.text)) v tokens fresh' ∧
      tokens.map Token.shape = back.reverse.map Token.shape := by
  induction h generalizing v with
  | nil => exact ⟨[], fresh, .nil, rfl⟩
  | @name t ht =>
    refine ⟨_, _, by simpa using lexes_word ht.isWord hname hquote start fresh, ?_⟩
    rw [List.map_singleton, List.reverse_singleton, List.map_singleton, Token.shape, Token.shape,
      ht.ofWord, ht.kind_eq]
  | @cons t sep back ht hsep _ ih =>
    obtain ⟨hkind, htext⟩ := Token.isMark_iff.mp hsep
    obtain ⟨tokens, mid, hlexes, hshape⟩ := ih (v := utf8 "::" ++ (t.text ++ v)) rfl rfl
    have hcolons := lexes_colons (start + (back.reverse.flatMap (·.text)).length) mid (t.text ++ v)
    have hword := lexes_word ht.isWord hname hquote
      (start + (back.reverse.flatMap (·.text)).length + (utf8 "::").length) false
    have hlast := hcolons.append hword
    rw [← List.append_assoc] at hlexes
    refine ⟨_, _, by simpa [htext, List.append_assoc] using hlexes.append hlast, ?_⟩
    simp [hshape, Token.shape, ht.ofWord, ht.kind_eq, hkind, htext]

/-- A path between `case` and `:`. -/
theorem Path.tokenize_eq {back : List Token} (h : Path back) :
    ∃ path n, tokenize (utf8 "case " ++ (back.reverse.flatMap (·.text) ++ [58])) =
        .ok (⟨.keyword, utf8 "case", 0⟩ :: (path ++ [⟨.punctuation, [58], n⟩])) ∧
      path.map Token.shape = back.reverse.map Token.shape := by
  obtain ⟨path, mid, hpath, hshape⟩ := h.lexes (v := [58]) rfl rfl 5 false
  have hcolon (n : Nat) : Lexes n mid [58] [] [⟨.punctuation, [58], n⟩] false :=
    .token (x := []) (w := []) rfl (by cases mid <;> rfl) .nil
  have hrest : Lexes 4 false ([Byte.space] ++ (back.reverse.flatMap (·.text) ++ [58])) [] _ false :=
    .gap gap_space (Lexes.append (w := [58]) (v := []) hpath (hcolon _))
  have hcase := lexes_word (w := utf8 "case")
    (v := [Byte.space] ++ (back.reverse.flatMap (·.text) ++ [58]) ++ []) rfl rfl rfl 0 true
  rw [show utf8 "case " = utf8 "case" ++ [Byte.space] by decide, List.append_assoc]
  exact ⟨path, _, tokenize_eq_ok_iff.mpr ⟨false, hcase.append hrest⟩, hshape⟩

/-! ## Reading a label -/

/-- **The labels that a text holds by itself**, if it has an outline. -/
def Label.ofText (text : Bytes) : Option (List Label) :=
  (Outline.ofSource text).toOption.map fun o =>
    collect o (o.code.size + 1) (o.forest.childrenOf none) o.code.size 0

/-- Tokens without brackets, comments and directives make an outline without regions. -/
theorem Outline.exists_of_neutral {text : Bytes} {tokens : List Token}
    (h : tokenize text = .ok tokens)
    (hneutral : ∀ t ∈ tokens, t.isTrivia = false ∧ Neutral t.shape) :
    ∃ o, ofSource text = .ok o ∧ o.code = tokens.toArray ∧ o.forest.toList = [] := by
  have hcode : Code.ofTokens tokens = tokens.toArray := by
    rw [Code.ofTokens, List.filter_eq_self.mpr fun t ht => by rw [(hneutral t ht).1]; rfl]
  have hshapes : ∀ s ∈ tokens.map Token.shape, Neutral s := by
    simpa using fun t ht => (hneutral t ht).2
  obtain ⟨hbalanced, hbraces⟩ := balanced_of_neutral hshapes
  rw [Balanced, settle_plant] at hbalanced
  rw [braces_plant] at hbraces
  obtain ⟨pairing, hpairing⟩ : ∃ p, Pairing.ofCode tokens.toArray = .ok p :=
    Pairing.exists_ofCode_iff.mpr hbalanced
  have hopenings := Forest.map_opening_regions tokens.toArray pairing
  have hnone : Forest.openingsFrom 0 tokens = [] := by
    rw [← List.length_eq_zero_iff, Forest.length_openingsFrom, hbraces]
    rfl
  refine ⟨⟨text, tokens, tokens.toArray, pairing, Forest.ofCode tokens.toArray pairing⟩, ?_, rfl,
    List.map_eq_nil_iff.mp (hopenings.trans hnone)⟩
  exact ofSource_eq_ok_iff_valid.mpr ⟨rfl, h, hcode.symm, hpairing, rfl⟩

/-- A token of a path is no other mark than `::`. -/
theorem Token.isMark_eq_false_of_isPath {t : Token} (h : t.isPath = true) {word : String}
    (hword : utf8 "::" ≠ utf8 word) : t.isMark word = false := by
  rw [isPath, Bool.or_eq_true] at h
  rcases h with hname | hcolons
  · rw [isName, beq_iff_eq] at hname
    rw [isMark, hname]
    rfl
  · exact isMark_eq_false hcolons hword

theorem Token.opening?_eq_none_of_isMark {t : Token}
    (h : ∀ shape : Bracket, t.isMark shape.opener = false) : t.opening? = none := by
  rcases hopen : t.opening? with _ | shape
  · rfl
  · have hmark := opening?_eq_some_iff.mp hopen
    rw [h shape] at hmark
    cases hmark

namespace Label

variable {code : Code} {pairing : Pairing}

/-- The `:` after a path is found. -/
theorem colonFrom?_path {limit fuel i j : Nat} (hij : i ≤ j) (hfuel : j - i < fuel)
    (hlimit : j < limit) (hpath : ∀ k, i ≤ k → k < j → code.has k Token.isPath = true)
    (hcolon : code.mark j ":" = true) : colonFrom? code pairing limit fuel i 0 = some j := by
  induction fuel generalizing i with
  | zero => omega
  | succ fuel ih =>
    rw [colonFrom?, if_neg (by omega)]
    rcases Nat.eq_or_lt_of_le hij with rfl | hlt
    · have hopen : code.has i (·.opening?.isSome) = false := by
        obtain ⟨t, ht, hmark⟩ := (Option.any_eq_true _ _).mp hcolon
        have hnone : t.opening? = none := Token.opening?_eq_none_of_isMark fun shape =>
          Token.isMark_eq_false hmark (by cases shape <;> decide)
        rw [Code.has, ht, Option.any_some, hnone, Option.isSome_none]
      rw [hopen, if_neg Bool.false_ne_true, Code.mark_eq_false hcolon (by decide),
        if_neg Bool.false_ne_true, hcolon, if_pos rfl, if_pos rfl]
    · obtain ⟨t, ht, htoken⟩ := (Option.any_eq_true _ _).mp (hpath i (Nat.le_refl i) hlt)
      have hmark {word : String} (hword : utf8 "::" ≠ utf8 word) : code.mark i word = false := by
        rw [Code.mark, Code.has, ht, Option.any_some, Token.isMark_eq_false_of_isPath htoken hword]
      have hnone : t.opening? = none := Token.opening?_eq_none_of_isMark fun shape =>
        Token.isMark_eq_false_of_isPath htoken (by cases shape <;> decide)
      rw [Code.has, ht, Option.any_some, hnone, Option.isSome_none, if_neg Bool.false_ne_true,
        hmark (by decide), if_neg Bool.false_ne_true, hmark (by decide), if_neg Bool.false_ne_true,
        hmark (by decide), if_neg Bool.false_ne_true]
      exact ih hlt (by omega) fun k hk => hpath k (Nat.le_of_succ_le hk)

/-- Where no parenthesis opens, none is stripped. -/
theorem stripParens_of_not_mark {fuel : Nat} {s : Slice} (h : code.mark s.start "(" = false) :
    stripParens code pairing fuel s = s := by
  cases fuel with
  | zero => rfl
  | succ fuel => rw [stripParens, h, Bool.and_false, Bool.false_and, if_neg Bool.false_ne_true]

end Label

theorem Token.IsFree.isPath {t : Token} (h : t.IsFree) : t.isPath = true := by
  rw [Token.isPath, Token.isName, h.kind_eq]
  rfl

namespace Path

variable {back : List Token} {t : Token}

/-- What stands in a path is a name or `::`. -/
theorem isPath (h : Path back) (ht : t ∈ back) : t.isPath = true := by
  rcases h.free_or_colons t ht with hfree | hcolons
  · exact hfree.isPath
  · rw [Token.isPath, hcolons, Bool.or_true]

theorem neutral (h : Path back) (ht : t ∈ back) : t.isTrivia = false ∧ Neutral t.shape := by
  rcases h.free_or_colons t ht with hfree | hcolons
  · exact ⟨by rw [Token.isTrivia, hfree.kind_eq]; rfl, neutral_plain (plain_of_isWord hfree.isWord)⟩
  · obtain ⟨hkind, htext⟩ := Token.isMark_iff.mp hcolons
    refine ⟨by rw [Token.isTrivia, hkind]; rfl, ?_⟩
    rw [Token.shape, hkind, htext]
    decide

/-- A run of tokens that is a path names its last name. -/
theorem name?_eq {code : Code} {pairing : Pairing} {s : Slice} {last : Token}
    (h : Path (last :: back)) (hslice : code.slice s = (last :: back).reverse) :
    Label.name? code pairing s = some last.name := by
  have hparen : code.mark s.start "(" = false := by
    rw [← Bool.not_eq_true]
    intro hmark
    obtain ⟨t, ht, hmark⟩ := (Option.any_eq_true _ _).mp hmark
    have hlast : last ∈ code.slice s := by
      rw [hslice]
      simp
    obtain ⟨k, hstart, hstop, -⟩ := mem_slice_iff.mp hlast
    have hmem : t ∈ last :: back := by
      rw [← List.mem_reverse, ← hslice]
      exact mem_slice_iff.mpr ⟨s.start, Nat.le_refl _, by omega, ht⟩
    rw [Token.isMark_eq_false_of_isPath (h.isPath hmem) (by decide)] at hmark
    cases hmark
  rw [Label.name?, Label.stripParens_of_not_mark hparen, hslice, List.reverse_reverse]
  dsimp only
  rw [h.readsBack, if_pos rfl]

end Path

/-- A file that has a path between `case` and `:` has one label. -/
theorem Label.collect_path {o : Outline} {n : Nat} (hsize : o.code.size = n + 2)
    (hcase : o.code.has 0 (·.isKeyword "case") = true)
    (hpath : ∀ k, 1 ≤ k → k < n + 1 → o.code.has k Token.isPath = true)
    (hcolon : o.code.mark (n + 1) ":" = true) :
    collect o (o.code.size + 1) [] o.code.size 0 =
      [.case (name? o.code o.pairing ⟨1, n + 1⟩) 0 (n + 1)] := by
  have hfound : colon? o.code o.pairing 0 (n + 2) = some (n + 1) :=
    colonFrom?_path (by omega) (by omega) (by omega) hpath hcolon
  rw [hsize, collect, if_neg (by omega), List.head?_nil, Option.filter_none]
  dsimp only
  rw [hcase, if_pos rfl, hfound]
  dsimp only
  rw [collect, if_pos (Nat.le_refl _)]

/-- **A path between `case` and `:` is one label**, for its last name. -/
theorem Path.ofText_eq {back : List Token} {last : Token} (h : Path (last :: back)) :
    ∃ colon, Label.ofText (utf8 "case " ++ ((last :: back).reverse.flatMap (·.text) ++ [58])) =
      some [.case (some last.name) 0 colon] := by
  obtain ⟨path, n, htokenize, hshape⟩ := h.tokenize_eq
  have hrev : path.reverse.map Token.shape = (last :: back).map Token.shape := by
    rw [List.map_reverse, hshape, ← List.map_reverse, List.reverse_reverse]
  have hpath : Path path.reverse := h.congr hrev
  obtain ⟨o, hsource, hcode, hforest⟩ := Outline.exists_of_neutral htokenize fun t ht => by
    rcases List.mem_cons.mp ht with rfl | ht
    · exact ⟨rfl, by decide⟩
    rcases List.mem_append.mp ht with ht | ht
    · exact hpath.neutral (List.mem_reverse.mpr ht)
    · rw [List.mem_singleton.mp ht]
      exact ⟨rfl, show Neutral (.punctuation, [58]) by decide⟩
  have hslice : o.code.slice ⟨1, path.length + 1⟩ = path := by
    rw [Code.slice, hcode, Array.toList_extract, List.extract_eq_take_drop]
    exact List.take_left
  obtain ⟨last', rest, hback, hlast, -⟩ := List.map_eq_cons_iff.mp hrev
  have hname : Label.name? o.code o.pairing ⟨1, path.length + 1⟩ = some last'.name :=
    (hback ▸ hpath).name?_eq (by rw [hslice, ← hback, List.reverse_reverse])
  have hsize : o.code.size = path.length + 2 := by
    rw [hcode]
    simp
  have hinside : ∀ k, 1 ≤ k → k < path.length + 1 → o.code.has k Token.isPath = true := by
    intro k hk hlt
    have hget : o.code[k]? = some o.code[k] := Array.getElem?_eq_getElem (by omega)
    have hmem : o.code[k] ∈ o.code.slice ⟨1, path.length + 1⟩ :=
      mem_slice_iff.mpr ⟨k, hk, hlt, hget⟩
    rw [hslice] at hmem
    rw [Code.has, hget, Option.any_some, hpath.isPath (List.mem_reverse.mpr hmem)]
  have hcolon : o.code.mark (path.length + 1) ":" = true := by
    rw [hcode, Code.mark, Code.has, List.getElem?_toArray, List.getElem?_cons_succ,
      List.getElem?_concat_length]
    rfl
  have hlabels := Label.collect_path hsize (by rw [hcode]; rfl) hinside hcolon
  refine ⟨path.length + 1, ?_⟩
  rw [Label.ofText, hsource, Except.toOption, Option.map_some, Forest.childrenOf, hforest,
    List.filter_nil, hlabels, hname, Token.name, (Prod.mk.inj hlast).2]
  rfl

/-! ## Chains of the code are paths -/

/-- A slice with one more token at its end. -/
theorem Code.slice_succ {code : Code} {a b : Nat} {t : Token} (hab : a ≤ b)
    (ht : code[b]? = some t) : code.slice ⟨a, b + 1⟩ = code.slice ⟨a, b⟩ ++ [t] := by
  have hget : (code.toList.drop a)[b - a]? = some t := by
    rw [List.getElem?_drop, Array.getElem?_toList, Nat.add_sub_cancel' hab, ht]
  simp only [Code.slice, Array.toList_extract, List.extract_eq_take_drop]
  rw [Nat.succ_sub hab, List.take_add_one, hget, Option.toList_some]

theorem Code.slice_cons {code : Code} {a b : Nat} {t : Token} (hab : a < b)
    (ht : code[a]? = some t) : code.slice ⟨a, b⟩ = t :: code.slice ⟨a + 1, b⟩ := by
  have hget : code.toList.drop a = t :: code.toList.drop (a + 1) := by
    rw [← Array.getElem?_toList] at ht
    obtain ⟨hlt, rfl⟩ := List.getElem?_eq_some_iff.mp ht
    exact List.drop_eq_getElem_cons hlt
  simp only [Code.slice, Array.toList_extract, List.extract_eq_take_drop]
  rw [hget, show b - a = b - (a + 1) + 1 by omega, List.take_succ_cons]

@[simp] theorem Code.slice_self (code : Code) (a : Nat) : code.slice ⟨a, a⟩ = [] := by
  rw [Code.slice, Array.toList_extract, List.extract_eq_take_drop, Nat.sub_self, List.take_zero]

namespace Outline.Valid

variable {o : Outline} (h : o.Valid)

include h

/-- The names of a valid outline are words that are not reserved. -/
theorem exists_isFree {i : Nat} (hi : o.code.nameAt i = true) :
    ∃ t, o.code[i]? = some t ∧ t.IsFree := by
  obtain ⟨t, ht, hname⟩ := (Option.any_eq_true _ _).mp hi
  exact ⟨t, ht, beq_iff_eq.mp hname, (h.word_of_isName ht hname).1, (h.word_of_isName ht hname).2⟩

/-- A chain and what stands before it: nothing, or the `::` of a rooted name. -/
theorem path_chainStart {floor last : Nat} (hlast : o.code.nameAt last = true)
    {lead : List Token} (hlead : lead = [] ∨ ∃ sep, sep.isMark "::" = true ∧ lead = [sep]) :
    Path ((o.code.slice ⟨Declaration.chainStart o.code floor last, last + 1⟩).reverse ++ lead) := by
  have hone {s : Nat} (hs : o.code.nameAt s = true) :
      Path ((o.code.slice ⟨s, s + 1⟩).reverse ++ lead) := by
    obtain ⟨t, ht, hfree⟩ := h.exists_isFree hs
    rw [Code.slice_succ (Nat.le_refl s) ht, Code.slice_self]
    rcases hlead with rfl | ⟨sep, hsep, rfl⟩
    · exact .name hfree
    · exact .cons hfree hsep .nil
  fun_induction Declaration.chainStart o.code floor last with
  | case1 s hchain ih =>
    simp only [Bool.and_eq_true] at hchain
    have hle := Declaration.chainStart_le o.code floor s
    obtain ⟨t, ht, hfree⟩ := h.exists_isFree hlast
    obtain ⟨sep, hsep, hmark⟩ := (Option.any_eq_true _ _).mp hchain.1.2
    rw [Code.slice_succ (by omega) ht, Code.slice_succ (by omega) hsep]
    simpa using Path.cons hfree hmark (ih hchain.2)
  | case2 s _ => exact hone hlast
  | case3 s _ => exact hone hlast

/-- **The name of a type is a path**: the chain that ends at a name, rooted or not. -/
theorem path_chain {floor last : Nat} (hlast : o.code.nameAt last = true) :
    Path (o.code.slice (Declaration.chain o.code floor last)).reverse := by
  rw [Declaration.chain]
  split_ifs with hroot
  · rw [Bool.and_eq_true, decide_eq_true_eq] at hroot
    obtain ⟨hpos, hmark⟩ := Code.hasBefore_iff.mp hroot.2
    obtain ⟨sep, hsep, hmark⟩ := (Option.any_eq_true _ _).mp hmark
    have hle := Declaration.chainStart_le o.code floor last
    rw [Code.slice_cons (by omega) hsep, Nat.sub_add_cancel hpos, List.reverse_cons]
    exact h.path_chainStart hlast (.inr ⟨sep, hmark, rfl⟩)
  · simpa using h.path_chainStart hlast (.inl rfl)

end Outline.Valid

/-! ## The label of a missing enumerator -/

namespace Text

theorem splitLastFrom_eq_none {chars : List Char} (h : ':' ∉ chars) :
    splitLastFrom chars = none := by
  induction chars with
  | nil => rfl
  | cons c rest ih =>
    rw [List.mem_cons, not_or] at h
    rw [splitLastFrom.eq_def]
    dsimp only
    rw [ih h.2]
    dsimp only
    split
    · exact absurd rfl h.1
    · rfl

/-- A text is cut at its last `::`. -/
theorem splitLastFrom_append {front back : List Char} (h : ':' ∉ back) :
    splitLastFrom (front ++ ':' :: ':' :: back) = some (front, back) := by
  induction front with
  | nil =>
    have hcolon : splitLastFrom (':' :: back) = none := by
      rw [splitLastFrom.eq_def]
      dsimp only
      rw [splitLastFrom_eq_none h]
      dsimp only
      split
      · rename_i after _ hback
        exact absurd (List.mem_cons_self) (hback ▸ h)
      · rfl
    rw [List.nil_append, splitLastFrom, hcolon]
  | cons c rest ih =>
    rw [List.cons_append, splitLastFrom.eq_def]
    dsimp only
    rw [ih]

/-- The last separator of a text is the one before a part without colons. -/
theorem splitLast_append {front back : String} (h : ':' ∉ back.toList) :
    splitLast (front ++ "::" ++ back) = some (front, back) := by
  rw [splitLast, String.toList_append, String.toList_append, List.append_assoc,
    show "::".toList = [':', ':'] by decide, List.cons_append, List.cons_append, List.nil_append,
    splitLastFrom_append h, Option.map_some]
  dsimp only
  rw [String.ofList_toList, String.ofList_toList]

theorem splitLast_eq_none {text : String} (h : ':' ∉ text.toList) : splitLast text = none := by
  rw [splitLast, splitLastFrom_eq_none h, Option.map_none]

end Text

/-- The text of a path as names are joined: the qualification, and the last name. -/
theorem String.join_reverse_cons_cons (t sep : Token) (back : List Token)
    (hsep : sep.isMark "::" = true) :
    String.join ((t :: sep :: back).reverse.map Token.name) =
      String.join (back.reverse.map Token.name) ++ "::" ++ t.name := by
  have hname : sep.name = "::" := by
    rw [Token.name, (Token.isMark_iff.mp hsep).2, Utf8.legible_utf8]
  simp [hname, String.append_assoc]

theorem Token.IsFree.colon_not_mem {t : Token} (h : t.IsFree) : ':' ∉ t.name.toList :=
  Utf8.colon_not_mem_legible fun hcolon =>
    absurd (continuesName_of_isWord h.isWord 58 hcolon) (by decide)

/-- An enumerator is spelled as a path if the written type is one. -/
theorem Path.spelling_eq {t : Token} (ht : t.IsFree) {back : List Token} (h : Path back)
    (isScoped : Bool) : ∃ tail, Path (t :: tail) ∧
      Omission.spelling (String.join (back.reverse.map Token.name)) isScoped t.name =
        String.join ((t :: tail).reverse.map Token.name) := by
  have hcolons : Token.isMark ⟨.punctuation, utf8 "::", 0⟩ "::" = true := by decide
  rw [Omission.spelling]
  split_ifs
  · exact ⟨_, .cons ht hcolons h, (String.join_reverse_cons_cons _ _ _ hcolons).symm⟩
  · induction h with
    | nil => exact ⟨[], .name ht, by simp [Text.splitLast_eq_none]⟩
    | @name last hlast =>
      refine ⟨[], .name ht, ?_⟩
      simp [Text.splitLast_eq_none hlast.colon_not_mem]
    | @cons last sep back hlast hsep hback _ =>
      refine ⟨sep :: back, .cons ht hsep hback, ?_⟩
      rw [String.join_reverse_cons_cons _ _ _ hsep, String.join_reverse_cons_cons _ _ _ hsep,
        Text.splitLast_append hlast.colon_not_mem]

/-- **The label of a missing enumerator is a path** that ends at the enumerator. -/
theorem Outline.Valid.exists_path {o : Outline} (h : o.Valid) {m : Omission}
    (hm : m ∈ (o.coverage o.enumerations).omissions) {e : String} (he : e ∈ m.missing) :
    ∃ last back, Path (last :: back) ∧ last.name = e ∧
      m.caseLabel e = String.join ((last :: back).reverse.map Token.name) := by
  obtain ⟨⟨condition, htype⟩, hmissing⟩ := written_of_omission hm
  obtain ⟨i, hi, rfl⟩ := hmissing e he
  obtain ⟨t, ht, hfree⟩ := h.exists_isFree hi
  obtain ⟨floor, last, hlast, hwritten⟩ := Operand.chained_operand htype _ rfl
  obtain ⟨tail, hpath, hspelling⟩ := (@path_chain o h floor last hlast).spelling_eq hfree m.isScoped
  have hname : t.name = o.code.name i := by rw [Code.name, ht]; rfl
  refine ⟨t, tail, hpath, hname, ?_⟩
  rw [← hspelling, List.reverse_reverse, Omission.caseLabel, hname, hwritten]
  rfl

/-- **A written label reads back as the one enumerator it was written for**, if its names show no
escape. -/
theorem labels_read_back {source : Bytes} {o : Outline} (h : Outline.ofSource source = .ok o) :
    ∀ m ∈ (o.coverage o.enumerations).omissions, ∀ e ∈ m.missing,
      '\\' ∉ (m.caseLabel e).toList →
      ∃ colon, Label.ofText (utf8 ("case " ++ m.caseLabel e ++ ":")) =
        some [.case (some e) 0 colon] := by
  intro m hm e he hescape
  obtain ⟨last, back, hpath, rfl, hlabel⟩ :=
    (Outline.ofSource_eq_ok_iff_valid.mp h).2.exists_path hm he
  rw [hlabel] at hescape
  obtain ⟨colon, hcolon⟩ := hpath.ofText_eq
  refine ⟨colon, ?_⟩
  rw [hlabel, utf8_append, utf8_append, Utf8.utf8_join_name hescape, List.append_assoc]
  exact hcolon

/-- The label of a scoped enum whose type is written from the global scope, with an enumerator
outside ASCII. -/
theorem labels_read_back_rooted :
    ∃ o, Outline.ofSource (utf8 ("namespace a \x7benum class E \x7bA, é\x7d;\x7d void f() "
        ++ "\x7b::a::E e; switch (e) \x7bcase ::a::E::A: ;\x7d\x7d")) = .ok o ∧
      (o.coverage o.enumerations).omissions.map (fun m => m.missing.map m.caseLabel) =
        [["::a::E::é"]] ∧
      ∀ m ∈ (o.coverage o.enumerations).omissions, ∀ e ∈ m.missing, ∃ colon,
        Label.ofText (utf8 ("case " ++ m.caseLabel e ++ ":")) = some [.case (some e) 0 colon] := by
  obtain ⟨o, h, hlabels⟩ := Outline.exists_ofSource
    (utf8 ("namespace a \x7benum class E \x7bA, é\x7d;\x7d void f() "
        ++ "\x7b::a::E e; switch (e) \x7bcase ::a::E::A: ;\x7d\x7d"))
    (fun o => (o.coverage o.enumerations).omissions.map fun m => m.missing.map m.caseLabel)
    (a := [["::a::E::é"]]) (by decide +kernel)
  refine ⟨o, h, hlabels, fun m hm e he => labels_read_back h m hm e he ?_⟩
  have hmem := List.mem_map_of_mem (f := fun m => m.missing.map m.caseLabel) hm
  rw [hlabels, List.mem_singleton] at hmem
  have hlabel := List.mem_map_of_mem (f := m.caseLabel) he
  rw [hmem, List.mem_singleton] at hlabel
  rw [hlabel]
  decide

/-- The label of an ill-formed name is its escape, which names no enumerator. -/
theorem label_not_read_back :
    ∃ o, Outline.ofSource (utf8 "enum E \x7b" ++ 255 :: utf8 (", B\x7d; void f(E e) "
        ++ "\x7bswitch (e) \x7bcase B:;\x7d\x7d")) = .ok o ∧
      ∃ m ∈ (o.coverage o.enumerations).omissions, "\\xff" ∈ m.missing ∧
        m.caseLabel "\\xff" = "\\xff" ∧
        Label.ofText (utf8 ("case " ++ m.caseLabel "\\xff" ++ ":")) = some [.case none 0 3] := by
  obtain ⟨o, h, hlabels⟩ := Outline.exists_ofSource
    (utf8 "enum E \x7b" ++ 255 :: utf8 (", B\x7d; void f(E e) "
        ++ "\x7bswitch (e) \x7bcase B:;\x7d\x7d"))
    (fun o => (o.coverage o.enumerations).omissions)
    (a := [⟨2, "E", "E", false, ["\\xff"], some 20⟩]) (by decide +kernel)
  refine ⟨o, h, _, hlabels ▸ List.mem_singleton_self _, List.mem_singleton_self _, ?_, ?_⟩
  · decide
  · decide +kernel

end Quell
