import Quell.Proofs.Legible
import Quell.Proofs.Lossless

/-!
# Proofs/Names — names are as different as their bytes

Names are compared in their legible form.  Where the bytes hold no backslash, one in the legible
form opens an escape, which stands for a single byte, and any other character stands for its own
encoding; so the bytes can be read back (`unspell_spellFrom`), however well-formed and ill-formed
stretches are mixed.  A word holds no backslash, and every identifier that the lexer gives is a
word.
-/

namespace Quell

namespace Utf8

/-! ## Reading the bytes back -/

/-- The value of a hexadecimal digit in lower case. -/
def hexValue (c : Char) : Nat := if c.toNat < 97 then c.toNat - 48 else c.toNat - 87

/-- **The bytes that a spelling stands for**: of an escape the byte it names, of any other character
its encoding. -/
def unspell : List Char → Bytes
  | '\\' :: 'x' :: high :: low :: rest =>
    UInt8.ofNat (hexValue high * 16 + hexValue low) :: unspell rest
  | c :: rest => String.utf8EncodeChar c ++ unspell rest
  | [] => []

theorem hexValue_hexDigit : ∀ n < 16, hexValue (hexDigit n) = n := by decide

/-- The escape of a byte is read as that byte. -/
theorem unspell_escape (b : UInt8) (rest : List Char) :
    unspell (escape b ++ rest) = b :: unspell rest := by
  have hb := b.toNat_lt
  rw [escape, List.cons_append, List.cons_append, List.cons_append, List.cons_append,
    List.nil_append, unspell, hexValue_hexDigit _ (by omega), hexValue_hexDigit _ (by omega),
    Nat.div_add_mod', UInt8.ofNat_toNat]

theorem unspell_flatMap_escape (bytes : Bytes) (rest : List Char) :
    unspell (bytes.flatMap escape ++ rest) = bytes ++ unspell rest := by
  induction bytes with
  | nil => rfl
  | cons b bytes ih =>
    rw [List.flatMap_cons, List.append_assoc, unspell_escape, ih, List.cons_append]

/-- Any other character is read as its encoding. -/
theorem unspell_cons {c : Char} (h : c ≠ '\\') (rest : List Char) :
    unspell (c :: rest) = String.utf8EncodeChar c ++ unspell rest :=
  unspell.eq_2 c rest fun _ _ _ hc => absurd hc h

/-- Bytes that are spelled already are passed over. -/
theorem spellFrom_eq_drop (skip : Nat) (text : Bytes) :
    spellFrom skip text = spellFrom 0 (text.drop skip) := by
  induction skip generalizing text with
  | zero => rfl
  | succ skip ih =>
    rcases text with _ | ⟨b, text⟩
    · rfl
    · rw [spellFrom, ih, List.drop_succ_cons]

/-- **The spelling of a text without a backslash stands for its bytes.** -/
theorem unspell_spellFrom {text : Bytes} (h : Byte.backslash ∉ text) :
    unspell (spellFrom 0 text) = text := by
  induction hn : text.length using Nat.strongRecOn generalizing text with
  | _ n ih =>
  subst hn
  rcases text with _ | ⟨b, rest⟩
  · rfl
  · cases hstep : step b rest with
    | char c width =>
      obtain ⟨more, rest, rfl, hencode, rfl⟩ := encode_of_step hstep
      have hc : c ≠ '\\' := by
        rintro rfl
        obtain ⟨rfl, -⟩ := List.cons.inj hencode
        exact h List.mem_cons_self
      have hshort : rest.length < (b :: (more ++ rest)).length := by
        rw [List.length_cons, List.length_append]
        omega
      have hrest : Byte.backslash ∉ rest :=
        fun hmem => h (List.mem_cons_of_mem b (List.mem_append_right more hmem))
      rw [← List.cons_append, ← hencode, spellFrom_utf8EncodeChar, unspell_cons hc,
        ih _ hshort hrest rfl]
    | broken width =>
      obtain ⟨w, rfl⟩ := Nat.exists_eq_succ_of_ne_zero (Nat.ne_of_gt (pos_of_step_broken hstep))
      have hrest : Byte.backslash ∉ rest.drop w :=
        fun hmem => h (List.mem_cons_of_mem b (List.mem_of_mem_drop hmem))
      rw [spellFrom, hstep]
      dsimp only
      rw [Nat.succ_sub_one, unspell_flatMap_escape, spellFrom_eq_drop,
        ih _ (by rw [List.length_drop, List.length_cons]; omega) hrest rfl, List.take_succ_cons,
        List.cons_append, List.take_append_drop]

/-- **Texts without a backslash are as different as their legible forms.** -/
theorem legible_inj {s t : Bytes} (hs : Byte.backslash ∉ s) (ht : Byte.backslash ∉ t) :
    legible s = legible t ↔ s = t := by
  constructor
  · intro h
    have hchars := congrArg String.toList h
    rw [legible, legible, String.toList_ofList, String.toList_ofList] at hchars
    rw [← unspell_spellFrom hs, hchars, unspell_spellFrom ht]
  · exact congrArg legible

end Utf8

/-! ## Identifiers are words -/

namespace Lexer

theorem backslash_not_mem_of_isWord {w : Bytes} (h : isWord w = true) : Byte.backslash ∉ w :=
  fun hmem => absurd (continuesName_of_isWord h _ hmem) (by decide)

/-- A call that gives an identifier reads a word. -/
theorem Cursor.Calls.isWord {c c' : Cursor} {t : Token} (h : c.Calls (some (.ok t)) c')
    (hname : t.isName = true) : isWord t.text = true := by
  cases h with
  | @token _ kind _ _ _ _ _ _ _ hscan _ _ =>
    obtain rfl : kind = .identifier := beq_iff_eq.mp hname
    exact (isWord_of_scan hscan).1

/-- **Every identifier among the tokens is a word**, with or without a fault after it. -/
theorem Cursor.Yields.isWord {c : Cursor} {tokens : List Token} {fault : Option LexFault}
    (h : c.Yields tokens fault) {t : Token} (ht : t ∈ tokens) (hname : t.isName = true) :
    isWord t.text = true := by
  induction h with
  | done _ => cases ht
  | fault _ => cases ht
  | token hnext _ ih =>
    rcases List.mem_cons.mp ht with rfl | ht
    · exact (calls_of_next hnext).isWord hname
    · exact ih ht

/-- No name holds a backslash. -/
theorem backslash_not_mem_of_lex {source : Bytes} {t : Token} (ht : t ∈ (lex source).tokens)
    (hname : t.isName = true) : Byte.backslash ∉ t.text := by
  have hyields : (Cursor.ofSource source).Yields (lex source).tokens (lex source).fault :=
    Cursor.yields_lexAt rfl
  exact backslash_not_mem_of_isWord (hyields.isWord ht hname)

end Lexer

/-- **Names of identifiers are equal exactly when their bytes are**, whatever buffers they come
from, and whether their bytes are well-formed or not. -/
theorem names_eq_iff_texts_eq {source other : Bytes} {t u : Token} (ht : t ∈ (lex source).tokens)
    (hu : u ∈ (lex other).tokens) (htname : t.isName = true) (huname : u.isName = true) :
    t.name = u.name ↔ t.text = u.text :=
  Utf8.legible_inj (Lexer.backslash_not_mem_of_lex ht htname)
    (Lexer.backslash_not_mem_of_lex hu huname)

/-- The same two bytes of a character cut short, before a whole character and before the first byte
of one, in a buffer that ends in a fault. -/
theorem names_of_characters_cut_short :
    ∃ t ∈ (lex ([226, 130] ++ utf8 "é;")).tokens,
      ∃ u ∈ (lex ([226, 130, 195] ++ utf8 " \"")).tokens,
        (t.isName = true ∧ u.isName = true) ∧
          (t.name = "\\xe2\\x82é" ∧ u.name = "\\xe2\\x82\\xc3") ∧
            (t.name = u.name ↔ t.text = u.text) := by
  have ht : ⟨.identifier, [226, 130] ++ utf8 "é", 0⟩ ∈ (lex ([226, 130] ++ utf8 "é;")).tokens := by
    decide +kernel
  have hu : ⟨.identifier, [226, 130, 195], 0⟩ ∈ (lex ([226, 130, 195] ++ utf8 " \"")).tokens := by
    decide +kernel
  exact ⟨_, ht, _, hu, ⟨rfl, rfl⟩, by decide +kernel, names_eq_iff_texts_eq ht hu rfl rfl⟩

end Quell
