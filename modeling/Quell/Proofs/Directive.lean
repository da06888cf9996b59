import Mathlib.Tactic.Common
import Quell.Proofs.Glimpse

/-!
# Proofs/Directive — tokens that run to the end of their line

A line comment or a directive stops before a newline, and before the carriage return of one.  The
bytes seen so far decide how much of a line break is theirs: `slack` is what may still be given
back.  A directive is read as a run of strides (`directiveWidth_cons`), each of which looks at one
byte and the next, so both keep their width when the bytes after them are replaced by others with
the same glimpse (`lineWidth_append`, `directiveWidth_append`).
-/

namespace Quell.Lexer

/-! ## Lines -/

/-- Where a line ends, something else than a blank shows. -/
theorem glimpse_ne_of_endsLine {v : Bytes} (h : endsLine v) : glimpse v ≠ [Byte.space] := by
  rcases h with rfl | ⟨tail, rfl⟩ | ⟨tail, rfl⟩
  · simp [glimpse]
  · rw [glimpse_newline]
    decide
  · rw [glimpse, glimpse_newline]
    decide

/-- The carriage return at the end of the bytes seen, which a newline would take along. -/
def slack (seen : Bytes) : Nat := if seen.head? = some Byte.carriage then 1 else 0

theorem slack_le_length (seen : Bytes) : slack seen ≤ seen.length := by
  cases seen with
  | nil => decide
  | cons b seen => rw [slack]; split_ifs <;> simp

theorem slack_le_one (seen : Bytes) : slack seen ≤ 1 := by
  rw [slack]
  split_ifs <;> simp

theorem slack_cons (b : UInt8) (seen : Bytes) :
    slack (b :: seen) = if b = Byte.carriage then 1 else 0 := by
  simp [slack]

/-- A line break goes back over what the line is cut short by. -/
theorem eq_slack_of_lineBreak {seen : Bytes} {n : Nat} (h : lineBreak seen = some n) :
    n = slack seen := by
  unfold lineBreak at h
  split at h
  · cases h
  · cases h
    rfl
  · cases h
  · rename_i hcarriage _
    cases h
    rw [slack, if_neg]
    intro hhead
    obtain ⟨rest, rfl⟩ := List.head?_eq_some_iff.mp hhead
    exact hcarriage rest rfl

/-- A line is at least as wide as what was seen of it, less that byte. -/
theorem slack_le_lineWidth (seen bytes : Bytes) :
    seen.length ≤ lineWidth seen bytes + slack seen := by
  induction bytes generalizing seen with
  | nil => simp [lineWidth]
  | cons b rest ih =>
    have hnext : seen.length ≤ lineWidth (b :: seen) rest := by
      have := ih (b :: seen)
      have hslack := slack_cons b seen
      rw [List.length_cons] at this
      split_ifs at hslack <;> omega
    rw [lineWidth]
    split
    · split
      · rename_i hbreak
        rw [eq_slack_of_lineBreak hbreak]
        have := slack_le_length seen
        omega
      · omega
    · omega

/-- A line ends inside the buffer. -/
theorem lineWidth_le (seen bytes : Bytes) :
    lineWidth seen bytes ≤ seen.length + bytes.length := by
  induction bytes generalizing seen with
  | nil => simp [lineWidth]
  | cons b rest ih =>
    have hnext := ih (b :: seen)
    rw [List.length_cons] at hnext
    rw [lineWidth, List.length_cons]
    split
    · split <;> omega
    · omega

/-- Where a line ends in a carriage return that is given back, a newline follows. -/
theorem lineWidth_carriage {seen rest : Bytes} {b : UInt8}
    (h : lineWidth (b :: seen) rest = seen.length) :
    b = Byte.carriage ∧ lineBreak (b :: seen) = some 1 ∧ ∃ tail, rest = Byte.newline :: tail := by
  cases rest with
  | nil => simp [lineWidth] at h
  | cons c rest =>
    have hnext := slack_le_lineWidth (c :: b :: seen) rest
    rw [slack_cons, List.length_cons, List.length_cons] at hnext
    rw [lineWidth] at h
    split_ifs at h with hc
    · split at h
      · rename_i back hbreak
        have hback := eq_slack_of_lineBreak hbreak
        rw [slack_cons] at hback
        rw [List.length_cons] at h
        split_ifs at hback with hcarriage
        · exact ⟨hcarriage, by rw [hbreak, hback], rest, by rw [beq_iff_eq.mp hc]⟩
        · omega
      · rw [beq_iff_eq.mp hc, if_neg (by decide)] at hnext
        rw [beq_iff_eq.mp hc] at h
        omega
    · split_ifs at hnext <;> omega

/-- **A line comment stops at the end of its line**, and looks at nothing but the glimpse of what
follows. -/
theorem lineWidth_append {seen x v : Bytes}
    (h : lineWidth seen (x ++ v) = seen.length + x.length) :
    endsLine v ∧ ∀ v', glimpse v = glimpse v' →
      lineWidth seen (x ++ v') = seen.length + x.length := by
  induction x generalizing seen with
  | nil =>
    simp only [List.nil_append, List.length_nil, Nat.add_zero] at h ⊢
    rcases v with _ | ⟨b, rest⟩
    · refine ⟨.inl rfl, fun v' hv => ?_⟩
      rw [glimpse_eq_nil_iff.mp hv.symm]
      rfl
    · by_cases hb : b = Byte.newline
      · subst hb
        refine ⟨.inr (.inl ⟨rest, rfl⟩), fun v' hv => ?_⟩
        obtain ⟨rest', rfl⟩ := exists_newline_of_glimpse (congrArg (·.take 1) hv)
        rw [lineWidth, if_pos (by rfl)] at h ⊢
        split at h
        · exact h
        · have := slack_le_lineWidth (Byte.newline :: seen) rest
          rw [slack_cons, if_neg (by decide), List.length_cons] at this
          omega
      · have hb' : ¬(b == Byte.newline) = true := by simpa using hb
        rw [lineWidth, if_neg hb'] at h
        obtain ⟨rfl, hbreak, tail, rfl⟩ := lineWidth_carriage h
        refine ⟨.inr (.inr ⟨tail, rfl⟩), fun v' hv => ?_⟩
        obtain ⟨rest', rfl, hrest⟩ := exists_cons_of_glimpse (by decide) (by decide) hv
        obtain ⟨tail', rfl⟩ := exists_newline_of_glimpse hrest
        rw [lineWidth, if_neg hb', lineWidth, if_pos (by rfl), hbreak]
        rfl
  | cons b x ih =>
    have hsum : seen.length + (b :: x).length = (b :: seen).length + x.length := by
      simp only [List.length_cons]
      omega
    rw [hsum] at h ⊢
    simp only [List.cons_append, lineWidth] at h ⊢
    split_ifs at h ⊢ with hb
    · split at h
      · simp only [List.length_cons] at h
        omega
      · exact ih h
    · exact ih h

/-! ## Directives -/

/-- How a directive goes on at one of its bytes. -/
inductive Stride where
  /-- It ended so many bytes ago. -/
  | stop (back : Nat)
  /-- It takes the byte. -/
  | one (mode : Within)
  /-- It takes the byte and the next one. -/
  | two (mode : Within)
  /-- A line comment ends it. -/
  | line
  deriving DecidableEq

/-- What a newline does to a directive. -/
def strideNewline (seen : Bytes) : Stride :=
  match lineBreak seen with
  | some back => .stop back
  | none => .one .plain

/-- **How a directive goes on** at the byte `b`, given the byte after it. -/
def stride (m : Within) (seen : Bytes) (b : UInt8) (next : Option UInt8) : Stride :=
  match m with
  | .plain =>
    if b == Byte.newline then strideNewline seen
    else if b == Byte.slash then
      if next = some Byte.star then .two (.comment seen.length)
      else if next = some Byte.slash then .line
      else .one .plain
    else if b == Byte.quote || b == Byte.tick then .one (.quoted b)
    else .one .plain
  | .comment opened =>
    if b == Byte.star && next == some Byte.slash then .two .plain else .one (.comment opened)
  | .quoted q =>
    if b == Byte.newline then strideNewline seen
    else if b == q then .one .plain
    else if b == Byte.backslash && next.isSome then .two (.quoted q)
    else .one (.quoted q)

/-- A directive takes one stride after the other. -/
theorem directiveWidth_cons (m : Within) (seen : Bytes) (b : UInt8) (rest : Bytes) :
    directiveWidth m seen (b :: rest) =
      match stride m seen b rest.head? with
      | .stop back => .ok (seen.length - back)
      | .one m' => directiveWidth m' (b :: seen) rest
      | .two m' => directiveWidth m' (rest.headD b :: b :: seen) rest.tail
      | .line => .ok (lineWidth (Byte.slash :: b :: seen) rest.tail) := by
  -- Only the next byte is looked at, and only for a star or a slash.
  have hother : ∀ c : UInt8, rest.head? ≠ some c → ∀ tail, rest = c :: tail → False := by
    rintro c hc tail rfl
    exact hc rfl
  cases m with
  | plain =>
    by_cases hstar : rest.head? = some Byte.star
    · obtain ⟨tail, rfl⟩ := List.head?_eq_some_iff.mp hstar
      rw [show directiveWidth _ _ (b :: Byte.star :: tail) = _ from directiveWidth.eq_4 seen b tail]
      simp only [stride, strideNewline, List.head?_cons]
      split_ifs
      · cases lineBreak seen <;> rfl
      all_goals rfl
    · by_cases hslash : rest.head? = some Byte.slash
      · obtain ⟨tail, rfl⟩ := List.head?_eq_some_iff.mp hslash
        rw [show directiveWidth _ _ (b :: Byte.slash :: tail) = _
          from directiveWidth.eq_5 seen b tail]
        simp only [stride, strideNewline, List.head?_cons]
        split_ifs
        · cases lineBreak seen <;> rfl
        all_goals first | rfl | contradiction
      · rw [directiveWidth.eq_6 _ _ _ (hother _ hstar) (hother _ hslash)]
        simp only [stride, strideNewline, hstar, hslash, if_false]
        split_ifs
        · cases lineBreak seen <;> rfl
        all_goals rfl
  | comment opened =>
    by_cases hslash : rest.head? = some Byte.slash
    · obtain ⟨tail, rfl⟩ := List.head?_eq_some_iff.mp hslash
      rw [show directiveWidth _ _ (b :: Byte.slash :: tail) = _
        from directiveWidth.eq_7 seen opened b tail]
      simp only [stride, List.head?_cons, BEq.rfl, Bool.and_true]
      split_ifs <;> rfl
    · rw [directiveWidth.eq_8 _ _ _ _ (hother _ hslash)]
      have hnext : (rest.head? == some Byte.slash) = false := by simpa using hslash
      rw [stride, hnext, Bool.and_false, if_neg Bool.false_ne_true]
      split_ifs <;> rfl
  | quoted q =>
    cases rest with
    | nil =>
      rw [directiveWidth]
      simp only [stride, strideNewline, List.head?_nil, Option.isSome_none,
        Bool.and_false, Bool.false_eq_true, if_false]
      split_ifs
      · cases lineBreak seen <;> rfl
      all_goals rfl
    | cons c tail =>
      rw [directiveWidth]
      simp only [stride, strideNewline, List.head?_cons, Option.isSome_some,
        Bool.and_true]
      split_ifs
      · cases lineBreak seen <;> rfl
      all_goals rfl

/-- A directive may end with the buffer, but not inside a comment. -/
theorem directiveWidth_nil {m : Within} {seen : Bytes} {w : Nat}
    (h : directiveWidth m seen [] = .ok w) :
    w = seen.length ∧ ∀ opened, m ≠ .comment opened := by
  cases m with
  | comment opened => cases h
  | plain => exact ⟨(Except.ok.inj h).symm, by simp⟩
  | quoted q => exact ⟨(Except.ok.inj h).symm, by simp⟩

/-- A directive ends at a newline that breaks the line, but not inside a comment. -/
theorem stride_eq_stop {m : Within} {seen : Bytes} {b : UInt8} {next : Option UInt8} {back : Nat}
    (h : stride m seen b next = .stop back) :
    b = Byte.newline ∧ lineBreak seen = some back ∧ ∀ opened, m ≠ .comment opened := by
  have hnewline : strideNewline seen = .stop back → lineBreak seen = some back := by
    rw [strideNewline]
    cases lineBreak seen <;> simp
  cases m with
  | plain =>
    simp only [stride] at h
    split_ifs at h with hb
    exact ⟨beq_iff_eq.mp hb, hnewline h, by simp⟩
  | comment opened =>
    simp only [stride] at h
    split_ifs at h
  | quoted q =>
    simp only [stride] at h
    split_ifs at h with hb
    exact ⟨beq_iff_eq.mp hb, hnewline h, by simp⟩

/-- A pair of bytes taken at once: a comment's opening or end, or an escape. -/
theorem stride_eq_two {m m' : Within} {seen : Bytes} {b : UInt8} {next : Option UInt8}
    (h : stride m seen b next = .two m') :
    next = some Byte.star ∨ next = some Byte.slash ∨
      b = Byte.backslash ∧ next.isSome ∧ ∀ opened, m' ≠ .comment opened := by
  cases m with
  | plain =>
    simp only [stride, strideNewline] at h
    split_ifs at h with _ _ hstar
    · cases hbreak : lineBreak seen <;> rw [hbreak] at h <;> cases h
    · exact .inl hstar
  | comment opened =>
    simp only [stride] at h
    split_ifs at h with hslash
    simp only [Bool.and_eq_true, beq_iff_eq] at hslash
    exact .inr (.inl hslash.2)
  | quoted q =>
    simp only [stride, strideNewline] at h
    split_ifs at h with _ _ hescape
    · cases hbreak : lineBreak seen <;> rw [hbreak] at h <;> cases h
    · simp only [Bool.and_eq_true, beq_iff_eq] at hescape
      cases h
      exact .inr (.inr ⟨hescape.1, hescape.2, by simp⟩)

theorem exists_cons_of_stride_eq_two {m m' : Within} {seen rest : Bytes} {b : UInt8}
    (h : stride m seen b rest.head? = .two m') : ∃ c tail, rest = c :: tail := by
  cases rest with
  | nil => rcases stride_eq_two h with h | h | h <;> simp at h
  | cons c tail => exact ⟨c, tail, rfl⟩

/-- The rest of a line is taken after a second slash only. -/
theorem stride_eq_line {m : Within} {seen : Bytes} {b : UInt8} {next : Option UInt8}
    (h : stride m seen b next = .line) : next = some Byte.slash := by
  cases m with
  | plain =>
    simp only [stride, strideNewline] at h
    split_ifs at h with _ _ _ hslash
    · cases hbreak : lineBreak seen <;> rw [hbreak] at h <;> cases h
    · exact hslash
  | comment opened =>
    simp only [stride] at h
    split_ifs at h
  | quoted q =>
    simp only [stride, strideNewline] at h
    split_ifs at h
    cases hbreak : lineBreak seen <;> rw [hbreak] at h <;> cases h

/-- Outside comments a newline is read alike. -/
theorem stride_newline {m : Within} (hm : ∀ opened, m ≠ .comment opened) (seen : Bytes)
    (next : Option UInt8) : stride m seen Byte.newline next = strideNewline seen := by
  cases m with
  | plain => rfl
  | comment opened => exact absurd rfl (hm opened)
  | quoted q => rfl

/-- Of the next byte a stride sees a star or a slash, or that there is one. -/
theorem stride_congr {next next' : Option UInt8}
    (hstar : next = some Byte.star ↔ next' = some Byte.star)
    (hslash : next = some Byte.slash ↔ next' = some Byte.slash)
    (hsome : next.isSome = next'.isSome) (m : Within) (seen : Bytes) (b : UInt8) :
    stride m seen b next = stride m seen b next' := by
  have hslash' : (next == some Byte.slash) = (next' == some Byte.slash) := by
    rw [Bool.eq_iff_iff, beq_iff_eq, beq_iff_eq, hslash]
  cases m with
  | plain => simp only [stride, hstar, hslash]
  | comment opened => simp only [stride, hslash']
  | quoted q => simp only [stride, hsome]

/-- A directive ends inside the buffer. -/
theorem directiveWidth_bounds {m : Within} {seen bytes : Bytes} {w : Nat}
    (h : directiveWidth m seen bytes = .ok w) :
    seen.length ≤ w + slack seen ∧ w ≤ seen.length + bytes.length := by
  induction hn : bytes.length using Nat.strongRecOn generalizing m seen bytes with
  | _ n ih =>
    subst hn
    cases bytes with
    | nil =>
      rw [(directiveWidth_nil h).1]
      simp
    | cons b rest =>
      rw [directiveWidth_cons] at h
      rw [List.length_cons]
      split at h
      case h_1 back hstop =>
        cases h
        rw [eq_slack_of_lineBreak (stride_eq_stop hstop).2.1]
        have := slack_le_length seen
        omega
      case h_2 m' _ =>
        have hrest := ih rest.length (by simp) h rfl
        have := slack_le_one (b :: seen)
        rw [List.length_cons] at hrest
        omega
      case h_3 m' htwo =>
        obtain ⟨c, tail, rfl⟩ := exists_cons_of_stride_eq_two htwo
        have hrest := ih tail.length (by simp only [List.length_cons]; omega) h rfl
        have := slack_le_one (c :: b :: seen)
        simp only [List.headD_cons, List.length_cons] at hrest ⊢
        omega
      case h_4 =>
        cases h
        obtain ⟨tail, rfl⟩ := List.head?_eq_some_iff.mp (stride_eq_line ‹_›)
        have hlower := slack_le_lineWidth (Byte.slash :: b :: seen) tail
        have hupper := lineWidth_le (Byte.slash :: b :: seen) tail
        rw [slack_cons, if_neg (by decide)] at hlower
        simp only [List.tail_cons, List.length_cons] at hlower hupper ⊢
        omega

/-- Where a directive ends in a carriage return that is given back, a newline follows. -/
theorem directiveWidth_carriage {m : Within} {seen rest : Bytes} {b : UInt8}
    (h : directiveWidth m (b :: seen) rest = .ok seen.length) :
    b = Byte.carriage ∧ lineBreak (b :: seen) = some 1 ∧ (∀ opened, m ≠ .comment opened) ∧
      ∃ tail, rest = Byte.newline :: tail := by
  cases rest with
  | nil =>
    have := (directiveWidth_nil h).1
    simp at this
  | cons c rest =>
    rw [directiveWidth_cons] at h
    split at h
    case h_1 back hstop =>
      obtain ⟨rfl, hbreak, hm⟩ := stride_eq_stop hstop
      have hback := eq_slack_of_lineBreak hbreak
      rw [slack_cons] at hback
      have hlen := Except.ok.inj h
      rw [List.length_cons] at hlen
      split_ifs at hback with hcarriage
      · exact ⟨hcarriage, by rw [hbreak, hback], hm, rest, rfl⟩
      · omega
    case h_2 m' _ =>
      have hlower := (directiveWidth_bounds h).1
      have := slack_le_one (c :: b :: seen)
      simp only [List.length_cons] at hlower
      omega
    case h_3 m' _ =>
      have hlower := (directiveWidth_bounds h).1
      have := slack_le_one (rest.headD c :: c :: b :: seen)
      simp only [List.length_cons] at hlower
      omega
    case h_4 =>
      have hlower := slack_le_lineWidth (Byte.slash :: c :: b :: seen) rest.tail
      rw [Except.ok.inj h, slack_cons, if_neg (by decide)] at hlower
      simp only [List.length_cons] at hlower
      omega

/-- A directive that ends where it stands has come to the end of its line. -/
theorem directiveWidth_stop {m : Within} {seen v : Bytes}
    (h : directiveWidth m seen v = .ok seen.length) :
    endsLine v ∧ ∀ v', glimpse v = glimpse v' → directiveWidth m seen v' = .ok seen.length := by
  rcases v with _ | ⟨b, rest⟩
  · refine ⟨.inl rfl, fun v' hv => ?_⟩
    rwa [glimpse_eq_nil_iff.mp hv.symm]
  · rw [directiveWidth_cons] at h
    split at h
    case h_1 back hstop =>
      obtain ⟨rfl, hbreak, hm⟩ := stride_eq_stop hstop
      refine ⟨.inr (.inl ⟨rest, rfl⟩), fun v' hv => ?_⟩
      obtain ⟨rest', rfl⟩ := exists_newline_of_glimpse (congrArg (·.take 1) hv)
      rw [directiveWidth_cons, stride_newline hm, strideNewline, hbreak]
      exact h
    case h_2 m' hone =>
      -- The byte was given back, so it is the carriage return of a line break.
      obtain ⟨rfl, hbreak, hm, tail, rfl⟩ := directiveWidth_carriage h
      refine ⟨.inr (.inr ⟨tail, rfl⟩), fun v' hv => ?_⟩
      obtain ⟨rest', rfl, hrest⟩ := exists_cons_of_glimpse (by decide) (by decide) hv
      obtain ⟨tail', rfl⟩ := exists_newline_of_glimpse hrest
      rw [List.head?_cons] at hone
      rw [directiveWidth_cons, List.head?_cons, hone]
      dsimp only
      rw [directiveWidth_cons, stride_newline hm, strideNewline, hbreak]
      rfl
    case h_3 m' _ =>
      have hlower := (directiveWidth_bounds h).1
      have := slack_le_one (rest.headD b :: b :: seen)
      simp only [List.length_cons] at hlower
      omega
    case h_4 =>
      have hlower := slack_le_lineWidth (Byte.slash :: b :: seen) rest.tail
      rw [Except.ok.inj h, slack_cons, if_neg (by decide)] at hlower
      simp only [List.length_cons] at hlower
      omega

/-- The next byte after a stretch, as far as a stride sees it. -/
theorem stride_head?_congr {v v' : Bytes} (hv : glimpse v = glimpse v') (m : Within)
    (seen : Bytes) (b : UInt8) (x : Bytes) :
    stride m seen b (x ++ v).head? = stride m seen b (x ++ v').head? := by
  rcases x with _ | ⟨c, x⟩
  · refine stride_congr (head?_eq_some_congr (by decide) hv)
      (head?_eq_some_congr (by decide) hv) ?_ m seen b
    have hnil : v = [] ↔ v' = [] := by
      rw [← glimpse_eq_nil_iff, hv, glimpse_eq_nil_iff]
    rcases v with _ | ⟨c, v⟩ <;> rcases v' with _ | ⟨c', v'⟩ <;> simp_all
  · rfl

/-- **A directive stops at the end of its line**, and looks at nothing but the glimpse of what
follows. -/
theorem directiveWidth_append {m : Within} {seen x v : Bytes}
    (h : directiveWidth m seen (x ++ v) = .ok (seen.length + x.length)) :
    endsLine v ∧ ∀ v', glimpse v = glimpse v' →
      directiveWidth m seen (x ++ v') = .ok (seen.length + x.length) := by
  induction hn : x.length using Nat.strongRecOn generalizing m seen x with
  | _ n ih =>
    subst hn
    rcases x with _ | ⟨b, x⟩
    · exact directiveWidth_stop h
    · have hstride : ∀ v', glimpse v = glimpse v' →
          stride m seen b (x ++ v').head? = stride m seen b (x ++ v).head? := by
        intro v' hv
        exact (stride_head?_congr hv m seen b x).symm
      simp only [List.cons_append, directiveWidth_cons, List.length_cons] at h ⊢
      split at h
      case h_1 back hstop =>
        have := Except.ok.inj h
        omega
      case h_2 m' hone =>
        have hsum : seen.length + (x.length + 1) = (b :: seen).length + x.length := by
          rw [List.length_cons]
          omega
        rw [hsum] at h ⊢
        obtain ⟨hends, hall⟩ := ih x.length (by simp) h rfl
        refine ⟨hends, fun v' hv => ?_⟩
        rw [hstride v' hv, hone]
        exact hall v' hv
      case h_3 m' htwo =>
        rcases x with _ | ⟨c, x⟩
        · -- Neither byte of the pair can be given back.
          obtain ⟨hcarriage, hbreak, -, -⟩ := directiveWidth_carriage h
          rw [List.nil_append] at htwo hcarriage hbreak
          rw [List.headD_eq_head?_getD] at hcarriage hbreak
          rcases stride_eq_two htwo with hc | hc | ⟨rfl, -, -⟩
          · rw [hc, Option.getD_some] at hcarriage
            exact absurd hcarriage (by decide)
          · rw [hc, Option.getD_some] at hcarriage
            exact absurd hcarriage (by decide)
          · rw [hcarriage] at hbreak
            cases hbreak
        · have hsum : seen.length + ((c :: x).length + 1) = (c :: b :: seen).length + x.length := by
            simp only [List.length_cons]
            omega
          rw [hsum] at h ⊢
          obtain ⟨hends, hall⟩ := ih x.length (by simp only [List.length_cons]; omega) h rfl
          refine ⟨hends, fun v' hv => ?_⟩
          rw [hstride v' hv, htwo]
          exact hall v' hv
      case h_4 hline =>
        rcases x with _ | ⟨c, x⟩
        · have hlower := slack_le_lineWidth (Byte.slash :: b :: seen) v.tail
          have hlen : lineWidth (Byte.slash :: b :: seen) v.tail = _ := Except.ok.inj h
          rw [hlen, slack_cons, if_neg (by decide)] at hlower
          simp only [List.length_cons, List.length_nil] at hlower
          omega
        · have hsum : seen.length + ((c :: x).length + 1)
              = (Byte.slash :: b :: seen).length + x.length := by
            simp only [List.length_cons]
            omega
          rw [hsum] at h ⊢
          obtain ⟨hends, hall⟩ := lineWidth_append (Except.ok.inj h)
          refine ⟨hends, fun v' hv => ?_⟩
          rw [hstride v' hv, hline]
          exact congrArg Except.ok (hall v' hv)

end Quell.Lexer
