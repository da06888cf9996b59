import Mathlib.Tactic.Common
import Quell.Token.Lexer

/-!
# Proofs/Glimpse — what names, numbers and literals see of the bytes after them

What follows a token matters to it only through its `glimpse`: at most two bytes, of which a
separating byte hides the rest.  Bytes that `Yields` relates look the same to every token before
them.  A name or a number keeps its width when the bytes after it give way to such others
(`nameWidth_congr`, `numberWidth_congr`), and a quoted part looks at nothing after its last byte
(`exists_of_quotedWidth`, `exists_of_rawWidth`).
-/

namespace Quell.Lexer

/-- A test that all bytes pass, checked one by one. -/
theorem forall_byte {test : UInt8 → Bool}
    (h : ((List.range 256).all fun n => test (UInt8.ofNat n)) = true) (b : UInt8) :
    test b = true := by
  have := List.all_eq_true.mp h b.toNat (List.mem_range.mpr b.toNat_lt)
  rwa [UInt8.ofNat_toNat] at this

/-- What holds of all bytes of a text, checked one by one. -/
theorem forall_mem_of_all {P : UInt8 → Prop} [DecidablePred P] {w : Bytes}
    (h : w.all (fun b => P b) = true) : ∀ b ∈ w, P b := by
  simpa using h

/-! ## What a scanner sees of the bytes after a token -/

/-- A byte that ends whatever token stands before it: blanks, braces and the semicolon. -/
def separates (b : UInt8) : Bool :=
  Byte.isBlank b || b == 11 || b == 12 || b == 123 || b == 125 || b == 59

/-- **What a scanner sees of the bytes after its token**: a newline or a separating byte, or one
other byte and what it sees of the next. -/
def glimpse : Bytes → Bytes
  | [] => []
  | b :: rest =>
    if b == Byte.newline then [Byte.newline]
    else if separates b then [Byte.space]
    else b :: (glimpse rest).take 1

theorem glimpse_newline (rest : Bytes) : glimpse (Byte.newline :: rest) = [Byte.newline] := rfl

/-- A byte that separates tokens shows as a blank. -/
theorem glimpse_separates {b : UInt8} (h : separates b = true) (rest : Bytes) :
    glimpse (b :: rest) = [Byte.space] := by
  have hb : (b == Byte.newline) = false := by
    rw [beq_eq_false_iff_ne]
    rintro rfl
    exact absurd h (by decide)
  rw [glimpse, hb, h]
  rfl

/-- Something shows unless nothing follows. -/
theorem glimpse_eq_nil_iff {v : Bytes} : glimpse v = [] ↔ v = [] := by
  cases v with
  | nil => simp [glimpse]
  | cons b rest =>
    simp only [glimpse, reduceCtorEq, iff_false]
    split
    · simp
    · split <;> simp

theorem glimpse_cons_congr {v v' : Bytes} (h : glimpse v = glimpse v') (b : UInt8) :
    glimpse (b :: v) = glimpse (b :: v') := by
  rw [glimpse, glimpse, h]

/-- A newline is seen as itself. -/
theorem exists_newline_of_glimpse {v' rest : Bytes}
    (h : (glimpse (Byte.newline :: rest)).take 1 = (glimpse v').take 1) :
    ∃ rest', v' = Byte.newline :: rest' := by
  cases v' with
  | nil => simp [glimpse] at h
  | cons b rest' =>
    rw [glimpse_newline, glimpse] at h
    split at h
    · rename_i hb
      exact ⟨rest', by rw [beq_iff_eq.mp hb]⟩
    · split at h
      · exact absurd h (by decide)
      · rename_i hb _
        simp only [List.take_succ_cons, List.cons.injEq] at h
        exact absurd h.1.symm (by simpa using hb)

/-- Any other byte that does not separate is seen, and so is what follows it. -/
theorem exists_cons_of_glimpse {b : UInt8} {rest v' : Bytes} (hn : b ≠ Byte.newline)
    (hs : separates b = false) (h : glimpse (b :: rest) = glimpse v') :
    ∃ rest', v' = b :: rest' ∧ (glimpse rest).take 1 = (glimpse rest').take 1 := by
  have hb : (b == Byte.newline) = false := by rwa [beq_eq_false_iff_ne]
  have hspace : b ≠ Byte.space := by
    rintro rfl
    exact absurd hs (by decide)
  cases v' with
  | nil => simp [glimpse, hb, hs] at h
  | cons c rest' =>
    rw [glimpse, glimpse, hb, hs] at h
    simp only [Bool.false_eq_true, if_false] at h
    split at h
    · simp only [List.cons.injEq] at h
      exact absurd h.1 hn
    · split at h
      · simp only [List.cons.injEq] at h
        exact absurd h.1 hspace
      · simp only [List.cons.injEq] at h
        exact ⟨rest', by rw [h.1], h.2⟩

/-- A class of bytes that holds no separating byte is seen in the first byte. -/
theorem head_any_congr {P : UInt8 → Bool} (hP : ∀ b, separates b = true → P b = false)
    {v v' : Bytes} (h : (glimpse v).take 1 = (glimpse v').take 1) :
    v.head?.any P = v'.head?.any P := by
  have key : ∀ u : Bytes, u.head?.any P = (glimpse u).head?.any P := by
    intro u
    cases u with
    | nil => rfl
    | cons b rest =>
      rw [glimpse]
      split
      · rename_i hb
        rw [beq_iff_eq.mp hb]
        rfl
      · split
        · rename_i hb
          have hspace : P Byte.space = false := hP _ (by decide)
          simp [hP b hb, hspace]
        · rfl
  have hhead := congrArg List.head? h
  rw [List.head?_take, List.head?_take, if_neg Nat.one_ne_zero, if_neg Nat.one_ne_zero] at hhead
  rw [key v, key v', hhead]

/-- A byte that does not separate is seen at the front. -/
theorem head?_eq_some_congr {c : UInt8} (hc : separates c = false) {v v' : Bytes}
    (hv : glimpse v = glimpse v') : v.head? = some c ↔ v'.head? = some c := by
  have hclass : ∀ b, separates b = true → (b == c) = false := by
    intro b hb
    rw [beq_eq_false_iff_ne]
    rintro rfl
    rw [hb] at hc
    cases hc
  have := head_any_congr hclass (congrArg (·.take 1) hv)
  cases v <;> cases v' <;> simp_all

/-- Two bytes that do not separate are seen at the front. -/
theorem prefix_of_glimpse {p v v' : Bytes}
    (hp : ∀ c ∈ p, c ≠ Byte.newline ∧ separates c = false) (hlen : p.length ≤ 2)
    (hv : glimpse v = glimpse v') (h : p <+: v) : p <+: v' := by
  match p with
  | [] => exact List.nil_prefix
  | [c] =>
    obtain ⟨rest, rfl⟩ := h
    obtain ⟨hn, hs⟩ := hp c (by simp)
    obtain ⟨rest', rfl, -⟩ := exists_cons_of_glimpse hn hs hv
    exact ⟨rest', rfl⟩
  | [c, d] =>
    obtain ⟨rest, rfl⟩ := h
    obtain ⟨hn, hs⟩ := hp c (by simp)
    obtain ⟨rest', rfl, hrest⟩ := exists_cons_of_glimpse hn hs hv
    have hclass : ∀ b, separates b = true → (b == d) = false := by
      intro b hb
      rw [beq_eq_false_iff_ne]
      rintro rfl
      rw [(hp b (by simp)).2] at hb
      cases hb
    have hd := head_any_congr hclass hrest
    cases rest' with
    | nil => simp at hd
    | cons d' rest' =>
      have hd' : d' = d := by simpa using hd
      exact ⟨rest', by rw [hd']; rfl⟩
  | _ :: _ :: _ :: _ => simp at hlen

/-! ## Contexts that no token can tell apart -/

/-- Nothing more stands on the line. -/
def endsLine (v : Bytes) : Prop :=
  v = [] ∨ (∃ tail, v = Byte.newline :: tail) ∨
    ∃ tail, v = Byte.carriage :: Byte.newline :: tail

/-- A byte that may still belong to the token before it: no newline, no separating byte, and no
slash, which opens a comment after another slash only. -/
def joins (b : UInt8) : Bool := !(b == Byte.newline || separates b || b == Byte.slash)

/-- **`v` gives way to `v'`**: no token that ends before the bytes `v` can tell `v'` from them.
Equal glimpses are enough; a slash may also give way to what is none. -/
structure Yields (v v' : Bytes) : Prop where
  line : endsLine v ∨ endsLine v' → glimpse v = glimpse v'
  front : ∀ p : Bytes, p.length ≤ 2 → (∀ b ∈ p, joins b = true) → (p <+: v ↔ p <+: v')
  slash : v'.head? = some Byte.slash → v.head? = some Byte.slash

namespace Yields

/-- Texts that show the same give way to each other. -/
theorem of_glimpse {v v' : Bytes} (h : glimpse v = glimpse v') : Yields v v' where
  line _ := h
  front p hlen hp := by
    have hp' : ∀ c ∈ p, c ≠ Byte.newline ∧ separates c = false := by
      intro c hc
      have := hp c hc
      simp only [joins, Bool.not_eq_true', Bool.or_eq_false_iff, beq_eq_false_iff_ne] at this
      exact this.1
    exact ⟨prefix_of_glimpse hp' hlen h, prefix_of_glimpse hp' hlen h.symm⟩
  slash := (head?_eq_some_congr (by decide) h).mpr

theorem cons {v v' : Bytes} (h : Yields v v') (b : UInt8) : Yields (b :: v) (b :: v') where
  line hends := by
    by_cases hb : b = Byte.newline
    · rw [hb, glimpse_newline, glimpse_newline]
    · -- Only a carriage return can still end the line, and then what follows it does.
      have hrest : ∀ {u : Bytes}, endsLine (b :: u) → endsLine u := by
        rintro u (hnil | ⟨tail, hnewline⟩ | ⟨tail, hcarriage⟩)
        · cases hnil
        · exact absurd (List.cons.inj hnewline).1 hb
        · exact .inr (.inl ⟨tail, (List.cons.inj hcarriage).2⟩)
      exact glimpse_cons_congr (h.line (hends.imp hrest hrest)) b
  front p hlen hp := by
    cases p with
    | nil => simp
    | cons c p =>
      rw [List.length_cons] at hlen
      rw [List.cons_prefix_cons, List.cons_prefix_cons,
        h.front p (by omega) fun d hd => hp d (List.mem_cons_of_mem c hd)]
  slash := id

theorem append {v v' : Bytes} (h : Yields v v') (u : Bytes) : Yields (u ++ v) (u ++ v') := by
  induction u with
  | nil => exact h
  | cons b u ih => exact ih.cons b

/-- A byte that may still belong to the token is seen at the front. -/
theorem head?_eq_some_iff {v v' : Bytes} (h : Yields v v') {c : UInt8} (hc : joins c = true) :
    v.head? = some c ↔ v'.head? = some c := by
  have hfront := h.front [c] (by simp) (by simpa using hc)
  have hhead : ∀ u : Bytes, [c] <+: u ↔ u.head? = some c := by
    intro u
    cases u with
    | nil => simp
    | cons b u => simp [List.cons_prefix_cons, eq_comm]
  rwa [hhead, hhead] at hfront

/-- A test that holds only of bytes that may join a token gives the same on the first byte of
both. -/
theorem head_any {v v' : Bytes} (h : Yields v v') {P : UInt8 → Bool}
    (hP : ∀ b, P b = true → joins b = true) : v.head?.any P = v'.head?.any P := by
  rw [Bool.eq_iff_iff, Option.any_eq_true, Option.any_eq_true]
  constructor
  · rintro ⟨c, hc, hPc⟩
    exact ⟨c, (h.head?_eq_some_iff (hP c hPc)).mp hc, hPc⟩
  · rintro ⟨c, hc, hPc⟩
    exact ⟨c, (h.head?_eq_some_iff (hP c hPc)).mpr hc, hPc⟩

end Yields

/-! ## Runs of name bytes and numbers -/

theorem continuesName_of_separates (b : UInt8) (h : separates b = true) :
    Byte.continuesName b = false := by
  simp only [separates, Byte.isBlank, Bool.or_eq_true, beq_iff_eq] at h
  rcases h with (((((rfl | rfl) | rfl) | rfl) | rfl) | rfl) | rfl <;> decide

theorem nameWidth_le (bytes : Bytes) : nameWidth bytes ≤ bytes.length :=
  (List.takeWhile_sublist _).length_le

/-- A run of name bytes ends where the next byte is none. -/
theorem nameWidth_append_eq_iff {x v : Bytes} : nameWidth (x ++ v) = x.length ↔
    (∀ b ∈ x, Byte.continuesName b = true) ∧ v.head?.any Byte.continuesName = false := by
  induction x with
  | nil =>
    cases v with
    | nil => simp [nameWidth]
    | cons b v => cases hb : Byte.continuesName b <;> simp [nameWidth, hb]
  | cons b x ih =>
    cases hb : Byte.continuesName b with
    | false => simp [nameWidth, hb]
    | true => simpa [nameWidth, hb] using ih

theorem joins_of_continuesName (b : UInt8) (h : Byte.continuesName b = true) : joins b = true := by
  have := @forall_byte (fun c => !Byte.continuesName c || joins c) (by decide +kernel) b
  simpa [h] using this

/-- What follows a name may give way. -/
theorem nameWidth_congr {x v v' : Bytes} (h : nameWidth (x ++ v) = x.length)
    (hv : Yields v v') : nameWidth (x ++ v') = x.length := by
  rw [nameWidth_append_eq_iff] at h ⊢
  rwa [← hv.head_any joins_of_continuesName]

/-- A byte that a number takes by itself. -/
def isNumberByte (b : UInt8) : Bool :=
  Byte.isAlphanumeric b || b == Byte.underscore || b == Byte.dot

/-- A sign, which a number takes after an exponent letter. -/
def isSign (b : UInt8) : Bool := b == 43 || b == 45

/-- A number goes on over an exponent and its sign, a byte of a number, or a tick between digits. -/
theorem numberWidth_cons (b : UInt8) (rest : Bytes) : numberWidth (b :: rest) =
    if isExponent b && rest.head?.any isSign then numberWidth rest.tail + 2
    else if isNumberByte b then numberWidth rest + 1
    else if b == Byte.tick && rest.head?.any Byte.isAlphanumeric then numberWidth rest.tail + 2
    else 0 := by
  cases rest with
  | nil => simp [numberWidth, isNumberByte]
  | cons c rest => simp [numberWidth, isNumberByte, isSign]

theorem numberWidth_le (bytes : Bytes) : numberWidth bytes ≤ bytes.length := by
  fun_induction numberWidth bytes <;> simp only [List.length_cons, List.length_nil] at * <;> omega

/-- An exponent letter is a number byte. -/
theorem isNumberByte_of_isExponent {b : UInt8} (h : isExponent b = true) :
    isNumberByte b = true := by
  simp only [isExponent, Bool.or_eq_true, beq_iff_eq] at h
  rcases h with ((rfl | rfl) | rfl) | rfl <;> decide

/-- The bytes that a number takes. -/
theorem mem_take_numberWidth {bytes : Bytes} {c : UInt8}
    (h : c ∈ bytes.take (numberWidth bytes)) :
    isNumberByte c = true ∨ isSign c = true ∨ c = Byte.tick := by
  induction hn : bytes.length using Nat.strongRecOn generalizing bytes with
  | _ size ih =>
    subst hn
    match bytes with
    | [] => simp at h
    | b :: rest =>
      rw [numberWidth_cons] at h
      split_ifs at h with hexponent hbyte htick
      · obtain ⟨d, tail, rfl, hd⟩ : ∃ d tail, rest = d :: tail ∧ isSign d = true := by
          cases rest <;> simp_all
        simp only [List.tail_cons, List.take_succ_cons, List.mem_cons] at h
        rcases h with rfl | rfl | h
        · exact .inl (isNumberByte_of_isExponent (Bool.and_eq_true_iff.mp hexponent).1)
        · exact .inr (.inl hd)
        · exact ih tail.length (by simp only [List.length_cons]; omega) h rfl
      · rw [List.take_succ_cons, List.mem_cons] at h
        rcases h with rfl | h
        · exact .inl hbyte
        · exact ih rest.length (by simp) h rfl
      · obtain ⟨d, tail, rfl, hd⟩ : ∃ d tail, rest = d :: tail ∧ Byte.isAlphanumeric d = true := by
          cases rest <;> simp_all
        simp only [List.tail_cons, List.take_succ_cons, List.mem_cons] at h
        rcases h with rfl | rfl | h
        · exact .inr (.inr (beq_iff_eq.mp (Bool.and_eq_true_iff.mp htick).1))
        · exact .inl (by rw [isNumberByte, hd]; rfl)
        · exact ih tail.length (by simp only [List.length_cons]; omega) h rfl
      · simp at h

theorem isNumberByte_of_separates (b : UInt8) (h : separates b = true) :
    isNumberByte b = false := by
  simp only [separates, Byte.isBlank, Bool.or_eq_true, beq_iff_eq] at h
  rcases h with (((((rfl | rfl) | rfl) | rfl) | rfl) | rfl) | rfl <;> decide

theorem isSign_of_separates (b : UInt8) (h : separates b = true) : isSign b = false := by
  simp only [separates, Byte.isBlank, Bool.or_eq_true, beq_iff_eq] at h
  rcases h with (((((rfl | rfl) | rfl) | rfl) | rfl) | rfl) | rfl <;> decide

theorem joins_of_isNumberByte (b : UInt8) (h : isNumberByte b = true) : joins b = true := by
  have := @forall_byte (fun c => !isNumberByte c || joins c) (by decide +kernel) b
  simpa [h] using this

theorem joins_of_isSign (b : UInt8) (h : isSign b = true) : joins b = true := by
  simp only [isSign, Bool.or_eq_true, beq_iff_eq] at h
  rcases h with rfl | rfl <;> decide

theorem joins_of_isAlphanumeric (b : UInt8) (h : Byte.isAlphanumeric b = true) :
    joins b = true :=
  joins_of_isNumberByte b (by rw [isNumberByte, h]; rfl)

/-- No number begins here. -/
theorem numberWidth_eq_zero_iff {v : Bytes} : numberWidth v = 0 ↔
    v.head?.any isNumberByte = false ∧
      ∀ c, Byte.isAlphanumeric c = true → ¬[Byte.tick, c] <+: v := by
  cases v with
  | nil => simp [numberWidth]
  | cons b rest =>
    have hexponent : isExponent b = true → isNumberByte b = true := isNumberByte_of_isExponent
    have htick : isNumberByte Byte.tick = false := by decide
    cases rest <;> grind [numberWidth_cons, numberWidth]

/-- Where no number goes on, none goes on over what takes its place. -/
theorem numberWidth_eq_zero_congr {v v' : Bytes} (h : numberWidth v = 0) (hv : Yields v v') :
    numberWidth v' = 0 := by
  rw [numberWidth_eq_zero_iff] at h ⊢
  refine ⟨(hv.head_any joins_of_isNumberByte).symm.trans h.1, fun c hc hfront => h.2 c hc ?_⟩
  have hjoins : ∀ b ∈ [Byte.tick, c], joins b = true := by
    simpa using ⟨by decide, joins_of_isAlphanumeric c hc⟩
  exact (hv.front _ (by simp) hjoins).mpr hfront

/-- What follows a number may give way. -/
theorem numberWidth_congr {x v v' : Bytes} (h : numberWidth (x ++ v) = x.length)
    (hv : Yields v v') : numberWidth (x ++ v') = x.length := by
  induction hn : x.length using Nat.strongRecOn generalizing x with
  | _ n ih =>
    subst hn
    match x with
    | [] => exact numberWidth_eq_zero_congr h hv
    | [b] =>
      simp only [List.cons_append, List.nil_append, List.length_singleton] at h ⊢
      rw [numberWidth_cons] at h ⊢
      rw [← hv.head_any joins_of_isSign, ← hv.head_any joins_of_isAlphanumeric]
      split at h
      · omega
      · split at h
        · rename_i hsign hb
          rw [if_neg hsign, if_pos hb, numberWidth_eq_zero_congr (by omega) hv]
        · split at h <;> omega
    | b :: c :: x =>
      rw [List.cons_append, List.cons_append, numberWidth, List.length_cons, List.length_cons] at h
      rw [List.cons_append, List.cons_append, numberWidth, List.length_cons, List.length_cons]
      split_ifs at h ⊢
      · rw [ih x.length (by simp only [List.length_cons]; omega) (by omega) rfl]
      · have hrest := ih (c :: x).length (by simp only [List.length_cons]; omega)
          (by simp only [List.cons_append, List.length_cons]; omega) rfl
        rw [List.cons_append, List.length_cons] at hrest
        rw [hrest]
      · rw [ih x.length (by simp only [List.length_cons]; omega) (by omega) rfl]

/-! ## Literals

The width of a quoted part is settled by the part itself: nothing after its last byte is looked
at. -/

/-- A backslash in a literal takes the byte after it along. -/
theorem quotedWidth_escape (q c : UInt8) (rest : Bytes) :
    quotedWidth q (Byte.backslash :: c :: rest) = (quotedWidth q rest).map (· + 2) := rfl

theorem quotedWidth_plain {b : UInt8} (hb : b ≠ Byte.backslash) (q : UInt8) (rest : Bytes) :
    quotedWidth q (b :: rest) =
      if b == Byte.newline then .error (.brokenLiteral (quoting q))
      else if b == q then .ok 1
      else (quotedWidth q rest).map (· + 1) :=
  quotedWidth.eq_4 q b rest (fun h _ => hb h) (fun _ _ h _ => hb h)

/-- **A quoted literal is cut off by its own quote**, whatever follows. -/
theorem exists_of_quotedWidth {q : UInt8} {bytes : Bytes} {n : Nat}
    (h : quotedWidth q bytes = .ok n) : ∃ x v, bytes = x ++ v ∧ x.length = n ∧
      x.getLast? = some q ∧ ∀ v', quotedWidth q (x ++ v') = .ok n := by
  induction hn : bytes.length using Nat.strongRecOn generalizing bytes n with
  | _ size ih =>
    subst hn
    match bytes with
    | [] => cases h
    | b :: rest =>
      by_cases hb : b = Byte.backslash
      · subst hb
        match rest with
        | [] => cases h
        | c :: rest =>
          rw [quotedWidth_escape] at h
          cases hr : quotedWidth q rest with
          | error e => simp [hr, Except.map] at h
          | ok m =>
            simp only [hr, Except.map, Except.ok.injEq] at h
            obtain ⟨x, v, rfl, hx, hlast, hall⟩ := ih rest.length
              (by simp only [List.length_cons]; omega) hr rfl
            refine ⟨Byte.backslash :: c :: x, v, rfl, by simp [hx, ← h],
              by simp [List.getLast?_cons, hlast], fun v' => ?_⟩
            rw [List.cons_append, List.cons_append, quotedWidth_escape, hall, ← h]
            rfl
      · rw [quotedWidth_plain hb] at h
        split_ifs at h with hnewline hquote
        · cases h
          refine ⟨[b], rest, rfl, rfl, by simpa using hquote, fun v' => ?_⟩
          rw [List.singleton_append, quotedWidth_plain hb, if_neg hnewline, if_pos hquote]
        · cases hr : quotedWidth q rest with
          | error e => simp [hr, Except.map] at h
          | ok m =>
            simp only [hr, Except.map, Except.ok.injEq] at h
            obtain ⟨x, v, rfl, hx, hlast, hall⟩ := ih rest.length (by simp) hr rfl
            refine ⟨b :: x, v, rfl, by simp [hx, ← h], by simp [List.getLast?_cons, hlast],
              fun v' => ?_⟩
            rw [List.cons_append, quotedWidth_plain hb, if_neg hnewline, if_neg hquote, hall, ← h]
            rfl

/-- The first place of a mark is found whatever follows the mark. -/
theorem exists_of_indexOf? {p bytes : Bytes} {k : Nat} (hp : p ≠ [])
    (h : Bytes.indexOf? p bytes = some k) : ∃ x v, bytes = x ++ v ∧ x.length = k + p.length ∧
      p <:+ x ∧ ∀ v', Bytes.indexOf? p (x ++ v') = some k := by
  induction bytes generalizing k with
  | nil => simp [Bytes.indexOf?, hp] at h
  | cons b rest ih =>
    rw [Bytes.indexOf?] at h
    split_ifs at h with hprefix
    · cases h
      obtain ⟨v, hv⟩ := List.isPrefixOf_iff_prefix.mp hprefix
      refine ⟨p, v, hv.symm, by simp, List.suffix_refl p, fun v' => ?_⟩
      obtain ⟨c, p', rfl⟩ := List.exists_cons_of_ne_nil hp
      rw [List.cons_append, Bytes.indexOf?, if_pos]
      exact List.isPrefixOf_iff_prefix.mpr (List.prefix_append (c :: p') v')
    · obtain ⟨m, hm, rfl⟩ := Option.map_eq_some_iff.mp h
      obtain ⟨x, v, rfl, hx, hsuffix, hall⟩ := ih hm
      refine ⟨b :: x, v, rfl, by simp [hx]; omega, hsuffix.trans (List.suffix_cons b x),
        fun v' => ?_⟩
      rw [List.cons_append, Bytes.indexOf?, if_neg, hall]
      · rfl
      · intro hprefix'
        have hshort : p.length ≤ (b :: x).length := by simp [hx]; omega
        have := List.prefix_of_prefix_length_le (List.isPrefixOf_iff_prefix.mp hprefix')
          (List.prefix_append (b :: x) v') hshort
        exact hprefix (List.isPrefixOf_iff_prefix.mpr (this.trans (List.prefix_append (b :: x) v)))

/-- A raw string whose delimiter is `d`. -/
theorem rawWidth_append {d : Bytes} (hd : ∀ b ∈ d, (b == Byte.paren) = false)
    (hlen : d.length ≤ maxDelimiter) (r : Bytes) : rawWidth (d ++ Byte.paren :: r) =
      if d.any forbiddenDelimiter then .error .badDelimiter
      else (Bytes.indexOf? (41 :: d ++ [Byte.quote]) r).elim (.error .openRaw)
        fun k => .ok (d.length + 1 + k + (41 :: d ++ [Byte.quote]).length) := by
  have hfind : ((d ++ Byte.paren :: r).take (maxDelimiter + 1)).findIdx? (· == Byte.paren)
      = some d.length := by
    obtain ⟨m, hm⟩ : ∃ m, maxDelimiter + 1 - d.length = m + 1 := ⟨maxDelimiter - d.length, by omega⟩
    rw [List.take_append, List.take_of_length_le (by omega), hm, List.take_succ_cons,
      List.findIdx?_append, List.findIdx?_eq_none_iff.mpr hd]
    simp [List.findIdx?_cons]
  have hdrop : (d ++ Byte.paren :: r).drop (d.length + 1) = r := by
    rw [← List.drop_drop, List.drop_left, List.drop_one, List.tail_cons]
  rw [rawWidth, hfind]
  dsimp only
  rw [List.take_left, hdrop]
  rcases Bytes.indexOf? (41 :: d ++ [Byte.quote]) r with _ | k <;> rfl

/-- The delimiter of a raw string stands before its parenthesis. -/
theorem exists_delimiter {bytes : Bytes} {n : Nat}
    (h : (bytes.take (maxDelimiter + 1)).findIdx? (· == Byte.paren) = some n) :
    ∃ d r, bytes = d ++ Byte.paren :: r ∧ (∀ b ∈ d, (b == Byte.paren) = false) ∧
      d.length ≤ maxDelimiter := by
  obtain ⟨hn, hparen, hbefore⟩ := List.findIdx?_eq_some_iff_getElem.mp h
  rw [List.length_take] at hn
  refine ⟨bytes.take n, bytes.drop (n + 1), ?_, fun b hb => ?_, by rw [List.length_take]; omega⟩
  · rw [List.getElem_take, beq_iff_eq] at hparen
    rw [← hparen, ← List.drop_eq_getElem_cons (by omega), List.take_append_drop]
  · obtain ⟨j, hj, rfl⟩ := List.getElem_of_mem hb
    rw [List.length_take] at hj
    have := hbefore j (by omega)
    rw [List.getElem_take] at this ⊢
    simpa using this

/-- **A raw string is cut off by its own quote**, whatever follows. -/
theorem exists_of_rawWidth {bytes : Bytes} {n : Nat} (h : rawWidth bytes = .ok n) :
    ∃ x v, bytes = x ++ v ∧ x.length = n ∧ x.getLast? = some Byte.quote ∧
      ∀ v', rawWidth (x ++ v') = .ok n := by
  cases hfind : (bytes.take (maxDelimiter + 1)).findIdx? (· == Byte.paren) with
  | none => rw [rawWidth, hfind] at h; cases h
  | some m =>
    obtain ⟨d, r, rfl, hd, hlen⟩ := exists_delimiter hfind
    rw [rawWidth_append hd hlen] at h
    split_ifs at h with hforbidden
    cases hindex : Bytes.indexOf? (41 :: d ++ [Byte.quote]) r with
    | none => rw [hindex] at h; cases h
    | some k =>
      rw [hindex] at h
      cases h
      obtain ⟨x, v, rfl, hx, ⟨y, rfl⟩, hall⟩ := exists_of_indexOf? (by simp) hindex
      have hlast : d ++ Byte.paren :: (y ++ (41 :: d ++ [Byte.quote]))
          = (d ++ Byte.paren :: (y ++ 41 :: d)) ++ [Byte.quote] := by simp
      refine ⟨d ++ Byte.paren :: (y ++ (41 :: d ++ [Byte.quote])), v, by simp,
        by simp only [List.length_append, List.length_cons] at hx ⊢; omega,
        by rw [hlast]; exact List.getLast?_concat, fun v' => ?_⟩
      rw [List.append_assoc, List.cons_append, rawWidth_append hd hlen, if_neg hforbidden, hall,
        Option.elim_some]

end Quell.Lexer
