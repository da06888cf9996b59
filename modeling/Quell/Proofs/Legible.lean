import Quell.Proofs.Spelling

/-!
# Proofs/Legible — the legible form and the bytes it stands for

Decoding reads back what `utf8` has written (`step_encode`), so a text is the legible form of its
own bytes (`legible_utf8`).  The other way round only an escape can come between: every byte of an
ill-formed sequence leaves a backslash, so a legible form without one encodes to the very bytes it
was read from (`utf8_legible`).
-/

namespace Quell.Utf8

/-! ## Decoding what was encoded -/

theorem lt_128_iff {n : Nat} (h : n < 256) : UInt8.ofNat n < 0x80 ↔ n < 128 := by
  rw [UInt8.lt_iff_toNat_lt, UInt8.toNat_ofNat_of_lt' h]
  exact Iff.rfl

/-- A continuation byte in range is taken. -/
theorem readRest_continue {code width due n : Nat} {lo hi : UInt8} (rest : Bytes) (hn : n < 64)
    (hlo : lo.toNat ≤ n + 128) (hhi : n + 128 ≤ hi.toNat) :
    readRest code width (due + 1) lo hi (UInt8.ofNat (n + 128) :: rest) =
      readRest (code * 64 + n) (width + 1) due 0x80 0xBF rest := by
  have hbyte : (UInt8.ofNat (n + 128)).toNat = n + 128 :=
    UInt8.toNat_ofNat_of_lt' (show n + 128 < 256 by omega)
  have hrange : lo ≤ UInt8.ofNat (n + 128) ∧ UInt8.ofNat (n + 128) ≤ hi := by
    rw [UInt8.le_iff_toNat_le, UInt8.le_iff_toNat_le, hbyte]
    exact ⟨hlo, hhi⟩
  rw [readRest, if_pos (by simpa only [Bool.and_eq_true, decide_eq_true_eq] using hrange), hbyte,
    Nat.add_sub_cancel]

/-- The lead byte of a character outside ASCII says what is due. -/
theorem step_lead {lead due : Nat} {lo hi : UInt8} (rest : Bytes) (hlow : 128 ≤ lead)
    (hhigh : lead < 256) (hfollow : follow? (UInt8.ofNat lead) = some (due, lo, hi)) :
    step (UInt8.ofNat lead) rest = readRest (lead % 2 ^ (6 - due)) 1 due lo hi rest := by
  rw [step, if_neg (by rw [lt_128_iff hhigh]; omega), hfollow]
  dsimp only
  rw [payload, UInt8.toNat_ofNat_of_lt' hhigh]
  rfl

/-- What follows a lead byte, as a table over the lead's code. -/
theorem follow?_ofNat {lead : Nat} (h : lead < 256) : follow? (UInt8.ofNat lead) =
    if 0xC2 ≤ lead ∧ lead ≤ 0xDF then some (1, 0x80, 0xBF)
    else if lead = 0xE0 then some (2, 0xA0, 0xBF)
    else if lead = 0xED then some (2, 0x80, 0x9F)
    else if 0xE1 ≤ lead ∧ lead ≤ 0xEF then some (2, 0x80, 0xBF)
    else if lead = 0xF0 then some (3, 0x90, 0xBF)
    else if lead = 0xF4 then some (3, 0x80, 0x8F)
    else if 0xF1 ≤ lead ∧ lead ≤ 0xF3 then some (3, 0x80, 0xBF)
    else none := by
  simp only [follow?, beq_iff_eq, Bool.and_eq_true, decide_eq_true_eq, UInt8.le_iff_toNat_le,
    ← UInt8.toNat_inj, UInt8.toNat_ofNat_of_lt' h, UInt8.reduceToNat]

/-- Two bytes with the marks of two are a character. -/
theorem step_two {v : Nat} (hlow : 128 ≤ v) (hhigh : v ≤ 2047) (rest : Bytes) :
    step (UInt8.ofNat (v / 64 % 32 + 192)) (UInt8.ofNat (v % 64 + 128) :: rest) =
      .char (Char.ofNat v) 2 := by
  have hfollow : follow? (UInt8.ofNat (v / 64 % 32 + 192)) = some (1, 0x80, 0xBF) := by
    rw [follow?_ofNat (by omega), if_pos (by omega)]
  rw [step_lead _ (by omega) (by omega) hfollow,
    readRest_continue _ (by omega) (by simp) (by simp; omega), readRest]
  exact congrArg (Step.char · 2) (congrArg Char.ofNat (by omega))

theorem step_three {v : Nat} (hlow : 2048 ≤ v) (hhigh : v ≤ 65535)
    (hvalid : v < 0xD800 ∨ 0xDFFF < v) (rest : Bytes) :
    step (UInt8.ofNat (v / 4096 % 16 + 224))
      (UInt8.ofNat (v / 64 % 64 + 128) :: UInt8.ofNat (v % 64 + 128) :: rest) =
      .char (Char.ofNat v) 3 := by
  obtain ⟨lo, hi, hfollow, hlo, hhi⟩ : ∃ lo hi : UInt8,
      follow? (UInt8.ofNat (v / 4096 % 16 + 224)) = some (2, lo, hi) ∧
      lo.toNat ≤ v / 64 % 64 + 128 ∧ v / 64 % 64 + 128 ≤ hi.toNat := by
    rw [follow?_ofNat (by omega), if_neg (by omega)]
    split_ifs
    · exact ⟨_, _, rfl, by simp; omega, by simp; omega⟩
    · exact ⟨_, _, rfl, by simp, by simp; omega⟩
    · exact ⟨_, _, rfl, by simp, by simp; omega⟩
    all_goals omega
  rw [step_lead _ (by omega) (by omega) hfollow, readRest_continue _ (by omega) hlo hhi,
    readRest_continue _ (by omega) (by simp) (by simp; omega), readRest]
  exact congrArg (Step.char · 3) (congrArg Char.ofNat (by omega))

theorem step_four {v : Nat} (hlow : 65536 ≤ v) (hhigh : v < 0x110000) (rest : Bytes) :
    step (UInt8.ofNat (v / 262144 % 8 + 240))
      (UInt8.ofNat (v / 4096 % 64 + 128) :: UInt8.ofNat (v / 64 % 64 + 128) ::
        UInt8.ofNat (v % 64 + 128) :: rest) = .char (Char.ofNat v) 4 := by
  obtain ⟨lo, hi, hfollow, hlo, hhi⟩ : ∃ lo hi : UInt8,
      follow? (UInt8.ofNat (v / 262144 % 8 + 240)) = some (3, lo, hi) ∧
      lo.toNat ≤ v / 4096 % 64 + 128 ∧ v / 4096 % 64 + 128 ≤ hi.toNat := by
    rw [follow?_ofNat (by omega), if_neg (by omega), if_neg (by omega), if_neg (by omega),
      if_neg (by omega)]
    split_ifs
    · exact ⟨_, _, rfl, by simp; omega, by simp; omega⟩
    · exact ⟨_, _, rfl, by simp, by simp; omega⟩
    · exact ⟨_, _, rfl, by simp, by simp; omega⟩
    · omega
  rw [step_lead _ (by omega) (by omega) hfollow, readRest_continue _ (by omega) hlo hhi,
    readRest_continue _ (by omega) (by simp) (by simp; omega),
    readRest_continue _ (by omega) (by simp) (by simp; omega), readRest]
  exact congrArg (Step.char · 4) (congrArg Char.ofNat (by omega))

/-- **A character is read back from its bytes**, whatever follows. -/
theorem step_encode (c : Char) (rest : Bytes) : ∃ b more, String.utf8EncodeChar c = b :: more ∧
    step b (more ++ rest) = .char c (more.length + 1) := by
  have hvalid : c.val.toNat < 0xD800 ∨ 0xDFFF < c.val.toNat ∧ c.val.toNat < 0x110000 := c.valid
  have hchar : Char.ofNat c.val.toNat = c := Char.ofNat_toNat c
  rw [String.utf8EncodeChar]
  generalize c.val.toNat = v at hvalid hchar
  subst hchar
  split_ifs with h1 h2 h3
  · refine ⟨_, _, rfl, ?_⟩
    rw [step, if_pos ((lt_128_iff (by omega)).mpr (by omega)),
      UInt8.toNat_ofNat_of_lt' (show v < 256 by omega)]
    rfl
  · exact ⟨_, _, rfl, step_two (by omega) h2 rest⟩
  · exact ⟨_, _, rfl, step_three (by omega) h3 (by omega) rest⟩
  · exact ⟨_, _, rfl, step_four (by omega) (by omega) rest⟩

/-! ## Encoding what was decoded -/

/-- A continuation byte that was taken is in range. -/
theorem exists_of_readRest {code width due w : Nat} {lo hi : UInt8} {bytes : Bytes} {c : Char}
    (hlo : 128 ≤ lo.toNat) (hhi : hi.toNat < 192)
    (h : readRest code width (due + 1) lo hi bytes = .char c w) :
    ∃ n rest, bytes = UInt8.ofNat (n + 128) :: rest ∧ n < 64 ∧ lo.toNat ≤ n + 128 ∧
      n + 128 ≤ hi.toNat ∧
      readRest (code * 64 + n) (width + 1) due 0x80 0xBF rest = .char c w := by
  rcases bytes with _ | ⟨b, rest⟩
  · cases h
  · rw [readRest] at h
    split_ifs at h with hb
    simp only [Bool.and_eq_true, decide_eq_true_eq, UInt8.le_iff_toNat_le] at hb
    refine ⟨b.toNat - 128, rest, ?_, by omega, by omega, by omega, h⟩
    rw [Nat.sub_add_cancel (by omega), UInt8.ofNat_toNat]

theorem val_ofNat {n : Nat} (h : n < 0xD800 ∨ 0xDFFF < n ∧ n < 0x110000) :
    (Char.ofNat n).val.toNat = n := by
  have hchar : n.isValidChar := h
  rw [Char.ofNat, dif_pos hchar]
  rfl

/-- A character of two bytes is encoded in those. -/
theorem encode_two {lead n : Nat} (hlead : 0xC2 ≤ lead ∧ lead ≤ 0xDF) (hn : n < 64) :
    String.utf8EncodeChar (Char.ofNat (lead % 32 * 64 + n)) =
      [UInt8.ofNat lead, UInt8.ofNat (n + 128)] := by
  rw [String.utf8EncodeChar, val_ofNat (by omega), if_neg (by omega), if_pos (by omega),
    show (lead % 32 * 64 + n) / 64 % 32 + 192 = lead by omega,
    show (lead % 32 * 64 + n) % 64 = n by omega]

theorem encode_three {lead n m : Nat} (hlead : 0xE0 ≤ lead ∧ lead ≤ 0xEF) (hn : n < 64)
    (hm : m < 64) (hlow : lead = 0xE0 → 0xA0 ≤ n + 128) (hhigh : lead = 0xED → n + 128 ≤ 0x9F) :
    String.utf8EncodeChar (Char.ofNat ((lead % 16 * 64 + n) * 64 + m)) =
      [UInt8.ofNat lead, UInt8.ofNat (n + 128), UInt8.ofNat (m + 128)] := by
  rw [String.utf8EncodeChar, val_ofNat (by omega), if_neg (by omega), if_neg (by omega),
    if_pos (by omega), show ((lead % 16 * 64 + n) * 64 + m) / 4096 % 16 + 224 = lead by omega,
    show ((lead % 16 * 64 + n) * 64 + m) / 64 % 64 = n by omega,
    show ((lead % 16 * 64 + n) * 64 + m) % 64 = m by omega]

theorem encode_four {lead n m k : Nat} (hlead : 0xF0 ≤ lead ∧ lead ≤ 0xF4) (hn : n < 64)
    (hm : m < 64) (hk : k < 64) (hlow : lead = 0xF0 → 0x90 ≤ n + 128)
    (hhigh : lead = 0xF4 → n + 128 ≤ 0x8F) :
    String.utf8EncodeChar (Char.ofNat (((lead % 8 * 64 + n) * 64 + m) * 64 + k)) =
      [UInt8.ofNat lead, UInt8.ofNat (n + 128), UInt8.ofNat (m + 128), UInt8.ofNat (k + 128)] := by
  rw [String.utf8EncodeChar, val_ofNat (by omega), if_neg (by omega), if_neg (by omega),
    if_neg (by omega),
    show (((lead % 8 * 64 + n) * 64 + m) * 64 + k) / 262144 % 8 + 240 = lead by omega,
    show (((lead % 8 * 64 + n) * 64 + m) * 64 + k) / 4096 % 64 = n by omega,
    show (((lead % 8 * 64 + n) * 64 + m) * 64 + k) / 64 % 64 = m by omega,
    show (((lead % 8 * 64 + n) * 64 + m) * 64 + k) % 64 = k by omega]

/-- **A character that is read encodes to the bytes it was read from.** -/
theorem encode_of_step {b : UInt8} {rest : Bytes} {c : Char} {width : Nat}
    (h : step b rest = .char c width) :
    ∃ more rest', rest = more ++ rest' ∧ String.utf8EncodeChar c = b :: more ∧
      width = more.length + 1 := by
  rw [step] at h
  split_ifs at h with hascii
  · rw [Step.char.injEq] at h
    obtain ⟨rfl, rfl⟩ := h
    rw [UInt8.lt_iff_toNat_lt] at hascii
    simp only [UInt8.reduceToNat] at hascii
    refine ⟨[], rest, rfl, ?_, rfl⟩
    rw [String.utf8EncodeChar, val_ofNat (by omega), if_pos (by omega), UInt8.ofNat_toNat]
  · simp only [follow?, beq_iff_eq, Bool.and_eq_true, decide_eq_true_eq, UInt8.le_iff_toNat_le,
      ← UInt8.toNat_inj, UInt8.reduceToNat] at h
    -- One case per range of lead bytes, each with the number of bytes that are due.
    split_ifs at h with htwo hlow hhigh hthree hlow' hhigh' hfour
    · dsimp only at h
      obtain ⟨n, rest, rfl, hn, -, -, h⟩ := exists_of_readRest (by decide) (by decide) h
      rw [readRest, Step.char.injEq, payload, Nat.pow_eq] at h
      obtain ⟨rfl, rfl⟩ := h
      exact ⟨[_], rest, rfl, by rw [encode_two htwo hn, UInt8.ofNat_toNat], rfl⟩
    iterate 3
      dsimp only at h
      obtain ⟨n, rest, rfl, hn, hlo, hhi, h⟩ := exists_of_readRest (by decide) (by decide) h
      obtain ⟨m, rest, rfl, hm, -, -, h⟩ := exists_of_readRest (by decide) (by decide) h
      rw [readRest, Step.char.injEq, payload, Nat.pow_eq] at h
      obtain ⟨rfl, rfl⟩ := h
      simp only [UInt8.reduceToNat] at hlo hhi
      refine ⟨[_, _], rest, rfl, ?_, rfl⟩
      rw [encode_three (by omega) hn hm (by omega) (by omega), UInt8.ofNat_toNat]
    iterate 3
      dsimp only at h
      obtain ⟨n, rest, rfl, hn, hlo, hhi, h⟩ := exists_of_readRest (by decide) (by decide) h
      obtain ⟨m, rest, rfl, hm, -, -, h⟩ := exists_of_readRest (by decide) (by decide) h
      obtain ⟨k, rest, rfl, hk, -, -, h⟩ := exists_of_readRest (by decide) (by decide) h
      rw [readRest, Step.char.injEq, payload, Nat.pow_eq] at h
      obtain ⟨rfl, rfl⟩ := h
      simp only [UInt8.reduceToNat] at hlo hhi
      refine ⟨[_, _, _], rest, rfl, ?_, rfl⟩
      rw [encode_four (by omega) hn hm hk (by omega) (by omega), UInt8.ofNat_toNat]

/-! ## Whole texts -/

/-- Bytes already read are skipped. -/
theorem spellFrom_append (u rest : Bytes) : spellFrom u.length (u ++ rest) = spellFrom 0 rest := by
  induction u with
  | nil => rfl
  | cons b u ih => exact ih

/-- **An encoded character is read back**, whatever follows. -/
theorem spellFrom_utf8EncodeChar (c : Char) (rest : Bytes) :
    spellFrom 0 (String.utf8EncodeChar c ++ rest) = c :: spellFrom 0 rest := by
  obtain ⟨b, more, hencode, hstep⟩ := step_encode c rest
  rw [hencode, List.cons_append, spellFrom, hstep]
  dsimp only
  rw [Nat.add_sub_cancel, spellFrom_append]

/-- **A text is the legible form of its bytes.** -/
theorem legible_utf8 (s : String) : legible (utf8 s) = s := by
  have hchars : ∀ chars : List Char, spellFrom 0 (chars.flatMap String.utf8EncodeChar) = chars := by
    intro chars
    induction chars with
    | nil => rfl
    | cons c chars ih => rw [List.flatMap_cons, spellFrom_utf8EncodeChar, ih]
  rw [legible, utf8, hchars, String.ofList_toList]

/-- What breaks off is at least as wide as what was read before. -/
theorem le_of_readRest_broken {code width due w : Nat} {lo hi : UInt8} {bytes : Bytes}
    (h : readRest code width due lo hi bytes = .broken w) : width ≤ w := by
  induction due generalizing code width lo hi bytes with
  | zero => cases h
  | succ due ih =>
    rcases bytes with _ | ⟨b, rest⟩
    · cases h
      exact Nat.le_refl w
    · rw [readRest] at h
      split_ifs at h
      · exact Nat.le_of_succ_le (ih h)
      · cases h
        exact Nat.le_refl w

theorem pos_of_step_broken {b : UInt8} {rest : Bytes} {width : Nat}
    (h : step b rest = .broken width) : 0 < width := by
  rw [step] at h
  split_ifs at h
  split at h
  · cases h
    exact Nat.one_pos
  · exact le_of_readRest_broken h

/-- What is ill-formed leaves a backslash. -/
theorem mem_spellFrom_of_broken {b : UInt8} {rest : Bytes} {width : Nat}
    (h : step b rest = .broken width) : '\\' ∈ spellFrom 0 (b :: rest) := by
  obtain ⟨w, rfl⟩ := Nat.exists_eq_succ_of_ne_zero (Nat.ne_of_gt (pos_of_step_broken h))
  rw [spellFrom, h]
  dsimp only
  rw [List.take_succ_cons, List.flatMap_cons, escape]
  simp

/-- **A text without backslashes in its legible form is encoded back.** -/
theorem flatMap_spellFrom {text : Bytes} (h : '\\' ∉ spellFrom 0 text) :
    (spellFrom 0 text).flatMap String.utf8EncodeChar = text := by
  induction hn : text.length using Nat.strongRecOn generalizing text with
  | _ n ih =>
  rcases text with _ | ⟨b, rest⟩
  · rfl
  · cases hstep : step b rest with
    | broken width => exact absurd (mem_spellFrom_of_broken hstep) h
    | char c width =>
      obtain ⟨more, rest, rfl, hencode, rfl⟩ := encode_of_step hstep
      have hspell : spellFrom 0 (b :: (more ++ rest)) = c :: spellFrom 0 rest := by
        rw [← List.cons_append, ← hencode, spellFrom_utf8EncodeChar]
      rw [hspell] at h ⊢
      rw [List.flatMap_cons, hencode, List.cons_append,
        ih rest.length (by simp at hn; omega) (fun hmem => h (List.mem_cons_of_mem c hmem)) rfl]

/-- **A legible form without a backslash encodes to the bytes it was read from.** -/
theorem utf8_legible {text : Bytes} (h : '\\' ∉ (legible text).toList) :
    utf8 (legible text) = text := by
  rw [legible, String.toList_ofList] at h
  rw [utf8, legible, String.toList_ofList, flatMap_spellFrom h]

/-- A legible form has only the characters of escapes and those that the bytes hold. -/
theorem mem_of_mem_spellFrom {text : Bytes} {skip : Nat} {c : Char} (hc : c ∈ spellFrom skip text)
    (hescape : ∀ b, c ∉ escape b) : ∀ b ∈ String.utf8EncodeChar c, b ∈ text := by
  induction text generalizing skip with
  | nil => simp [spellFrom] at hc
  | cons b rest ih =>
    have hrest {skip : Nat} (hc : c ∈ spellFrom skip rest) :
        ∀ d ∈ String.utf8EncodeChar c, d ∈ b :: rest :=
      fun d hd => List.mem_cons_of_mem b (ih hc d hd)
    rcases skip with _ | skip
    · rw [spellFrom] at hc
      split at hc
      · rename_i d width hstep
        rcases List.mem_cons.mp hc with rfl | hc
        · obtain ⟨more, rest, rfl, hencode, -⟩ := encode_of_step hstep
          rw [hencode]
          intro e he
          rcases List.mem_cons.mp he with rfl | he
          · exact List.mem_cons_self
          · exact List.mem_cons_of_mem b (List.mem_append_left rest he)
        · exact hrest hc
      · rcases List.mem_append.mp hc with hc | hc
        · obtain ⟨d, -, hd⟩ := List.mem_flatMap.mp hc
          exact absurd hd (hescape d)
        · exact hrest hc
    · exact hrest hc

/-- A character that no escape holds stands in the legible form only if its bytes stood in the
text. -/
theorem not_mem_legible {text : Bytes} {c : Char} {b : UInt8} (hescape : ∀ b, c ∉ escape b)
    (hb : b ∈ String.utf8EncodeChar c) (h : b ∉ text) : c ∉ (legible text).toList := by
  intro hc
  rw [legible, String.toList_ofList] at hc
  exact h (mem_of_mem_spellFrom hc hescape b hb)

theorem colon_not_mem_legible {text : Bytes} (h : 58 ∉ text) : ':' ∉ (legible text).toList := by
  refine not_mem_legible (fun b => ?_) (show 58 ∈ String.utf8EncodeChar ':' by decide) h
  simpa using @Lexer.forall_byte (fun b => decide (':' ∉ escape b)) (by decide +kernel) b

theorem newline_not_mem_legible {text : Bytes} (h : Byte.newline ∉ text) :
    '\n' ∉ (legible text).toList := by
  refine not_mem_legible (fun b => ?_) (show Byte.newline ∈ String.utf8EncodeChar '\n' by decide) h
  simpa using @Lexer.forall_byte (fun b => decide ('\n' ∉ escape b)) (by decide +kernel) b

/-- Tokens whose names show no backslash are written in their own bytes. -/
theorem utf8_join_name {tokens : List Token}
    (h : '\\' ∉ (String.join (tokens.map Token.name)).toList) :
    utf8 (String.join (tokens.map Token.name)) = tokens.flatMap Token.text := by
  rw [String.toList_join, List.mem_flatMap] at h
  rw [utf8, String.toList_join, List.flatMap_assoc, List.flatMap_map, List.flatMap_def,
    List.flatMap_def]
  refine congrArg List.flatten (List.map_congr_left fun t ht => ?_)
  exact utf8_legible fun hmem => h ⟨t.name, List.mem_map_of_mem ht, hmem⟩

end Quell.Utf8
