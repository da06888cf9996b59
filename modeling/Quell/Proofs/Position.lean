import Mathlib.Tactic.Common
import Quell.Region.Forest

/-!
# Proofs/Position — lines found by the table, by looking back, and by counting

The line that holds an offset can be looked up among the line starts of the buffer, found by going
back from the offset to a newline, or numbered by counting newlines.  All three depend on the bytes
before the offset only: the table cut at the offset is the table of these bytes (`upTo_ofSource`),
and its last entry is where going back ends (`lineStart_ofSource`).
-/

namespace Quell

/-! ## The table of a buffer -/

/-- The lines of two stretches start where those of each do. -/
theorem lineStartsFrom_append (base : Nat) (u w : Bytes) :
    lineStartsFrom base (u ++ w) = lineStartsFrom base u ++ lineStartsFrom (base + u.length) w := by
  induction u generalizing base with
  | nil => rfl
  | cons b u ih =>
    have hbase : base + 1 + u.length = base + (b :: u).length := by
      rw [List.length_cons]
      omega
    rw [List.cons_append, lineStartsFrom, lineStartsFrom, ih, hbase]
    split_ifs <;> rfl

/-- There is one line start for each newline. -/
theorem length_lineStartsFrom (base : Nat) (u : Bytes) :
    (lineStartsFrom base u).length = u.count Byte.newline := by
  induction u generalizing base with
  | nil => rfl
  | cons b u ih =>
    rw [lineStartsFrom, List.count_cons]
    split_ifs <;> simp [ih]

theorem lineStartsFrom_eq_nil {u : Bytes} (h : Byte.newline ∉ u) (base : Nat) :
    lineStartsFrom base u = [] := by
  rw [← List.length_eq_zero_iff, length_lineStartsFrom, List.count_eq_zero]
  exact h

theorem bounds_lineStartsFrom {base s : Nat} {u : Bytes} (h : s ∈ lineStartsFrom base u) :
    base < s ∧ s ≤ base + u.length := by
  induction u generalizing base with
  | nil => cases h
  | cons b u ih =>
    rw [List.length_cons]
    rw [lineStartsFrom] at h
    split_ifs at h
    · rcases List.mem_cons.mp h with rfl | h
      · omega
      · have := ih h
        omega
    · have := ih h
      omega

/-- Line starts are in order. -/
theorem pairwise_lineStartsFrom (base : Nat) (u : Bytes) :
    (lineStartsFrom base u).Pairwise (· < ·) := by
  induction u generalizing base with
  | nil => exact .nil
  | cons b u ih =>
    rw [lineStartsFrom]
    split_ifs
    · exact List.pairwise_cons.mpr ⟨fun s hs => (bounds_lineStartsFrom hs).1, ih (base + 1)⟩
    · exact ih (base + 1)

namespace LineTable

/-- Line starts increase, the first of them `0`. -/
theorem pairwise_starts (source : Bytes) : (ofSource source).starts.Pairwise (· < ·) :=
  List.pairwise_cons.mpr
    ⟨fun s hs => by have := (bounds_lineStartsFrom hs).1; omega, pairwise_lineStartsFrom 0 source⟩

/-- **The table cut at an offset is the table of the bytes before it.** -/
theorem upTo_ofSource (source : Bytes) (offset : Nat) :
    (ofSource source).upTo offset = 0 :: lineStartsFrom 0 (source.take offset) := by
  have hlen : (source.take offset).length = min offset source.length := List.length_take
  have hsplit : lineStartsFrom 0 source = lineStartsFrom 0 (source.take offset) ++
      lineStartsFrom (min offset source.length) (source.drop offset) := by
    rw [← hlen, ← Nat.zero_add (source.take offset).length, ← lineStartsFrom_append,
      List.take_append_drop]
  have hbefore : ∀ s ∈ lineStartsFrom 0 (source.take offset),
      decide (s ≤ min offset source.length) = true := by
    intro s hs
    have := (bounds_lineStartsFrom hs).2
    rw [decide_eq_true_eq]
    omega
  have hafter : ∀ s ∈ lineStartsFrom (min offset source.length) (source.drop offset),
      ¬decide (s ≤ min offset source.length) = true := by
    intro s hs
    have := (bounds_lineStartsFrom hs).1
    rw [decide_eq_true_eq]
    omega
  rw [upTo, ofSource]
  dsimp only
  rw [List.takeWhile_cons_of_pos (by simp), hsplit, List.takeWhile_append_of_pos hbefore]
  rcases hrest : lineStartsFrom (min offset source.length) (source.drop offset) with _ | ⟨s, rest⟩
  · simp
  · have hs := hafter s (hrest ▸ List.mem_cons_self)
    rw [List.takeWhile_cons_of_neg (by exact hs), List.append_nil]

/-- In an increasing list, as many entries are at most `o` as stand up to the last such one. -/
theorem length_takeWhile_eq {starts : List Nat} (hsorted : starts.Pairwise (· < ·)) {i s o : Nat}
    (hs : starts[i]? = some s) (hle : s ≤ o) (hnext : ∀ n ∈ starts[i + 1]?, o < n) :
    (starts.takeWhile (· ≤ o)).length = i + 1 := by
  induction starts generalizing i with
  | nil => cases hs
  | cons a starts ih =>
    obtain ⟨hfirst, hsorted⟩ := List.pairwise_cons.mp hsorted
    cases i with
    | zero =>
      cases hs
      have hrest : starts.takeWhile (· ≤ o) = [] := by
        rcases starts with _ | ⟨n, starts⟩
        · rfl
        · have := hnext n rfl
          rw [List.takeWhile_cons_of_neg (by simpa using this)]
      rw [List.takeWhile_cons_of_pos (by simpa using hle), hrest]
      rfl
    | succ i =>
      have := hfirst s (List.mem_of_getElem? hs)
      rw [List.takeWhile_cons_of_pos (by simp; omega), List.length_cons, ih hsorted hs hnext]

end LineTable

/-! ## Going back from an offset -/

namespace Line

/-- **The bytes before an offset, cut where its line starts**: at the start of the buffer or after a
newline, and no newline follows. -/
theorem exists_start (source : Bytes) (offset : Nat) :
    ∃ front line, source.take offset = front ++ line ∧ start source offset = front.length ∧
      before source offset = line.reverse ∧ Byte.newline ∉ line ∧
      (front = [] ∨ front.getLast? = some Byte.newline) := by
  have hsplit : (source.take offset).reverse = before source offset ++
      (source.take offset).reverse.dropWhile (· != Byte.newline) :=
    List.takeWhile_append_dropWhile.symm
  have htake := congrArg List.reverse hsplit
  rw [List.reverse_reverse, List.reverse_append] at htake
  refine ⟨_, _, htake, ?_, List.reverse_reverse _ |>.symm, fun hmem => ?_, ?_⟩
  · have hlen := congrArg List.length htake
    rw [List.length_take, List.length_append, @List.length_reverse _ (before source offset)]
      at hlen
    rw [start]
    omega
  · rw [List.mem_reverse, before] at hmem
    simpa using List.all_eq_true.mp List.all_takeWhile _ hmem
  · rcases hrest : (source.take offset).reverse.dropWhile (· != Byte.newline) with _ | ⟨b, rest⟩
    · exact .inl rfl
    · have hb := List.head?_dropWhile_not (· != Byte.newline) (source.take offset).reverse
      rw [hrest] at hb
      simp at hb
      simp [hb]

/-- A line that holds offset `o` starts at `s`: at the start of the buffer or after a newline, with
no newline in between. -/
structure StartsAt (source : Bytes) (s o : Nat) : Prop where
  le : s ≤ o
  after_newline : s = 0 ∨ source[s - 1]? = some Byte.newline
  no_newline : ∀ k, s ≤ k → k < o → source[k]? ≠ some Byte.newline

/-- **A line starts where the search for its start ends.** -/
theorem startsAt_start (source : Bytes) (offset : Nat) :
    StartsAt source (start source offset) (min offset source.length) := by
  obtain ⟨front, line, htake, hstart, -, hline, hfront⟩ := exists_start source offset
  have hlen := congrArg List.length htake
  rw [List.length_take, List.length_append] at hlen
  have hbyte : ∀ k, k < min offset source.length → source[k]? = (front ++ line)[k]? := by
    intro k hk
    rw [← htake, List.getElem?_take_of_lt (by omega)]
  rw [hstart]
  refine ⟨by omega, ?_, fun k hle hlt hk => ?_⟩
  · rcases hfront with rfl | hfront
    · exact .inl rfl
    · have hne : front ≠ [] := fun h => by simp [h] at hfront
      have := List.length_pos_iff.mpr hne
      rw [List.getLast?_eq_getElem?] at hfront
      rw [hbyte _ (by omega), List.getElem?_append_left (by omega), hfront]
      exact .inr rfl
  · rw [hbyte k hlt, List.getElem?_append_right hle] at hk
    exact hline (List.mem_of_getElem? hk)

/-- A line has one start. -/
theorem StartsAt.unique {source : Bytes} {s s' o : Nat} (h : StartsAt source s o)
    (h' : StartsAt source s' o) : s = s' := by
  have key : ∀ {s s' : Nat}, StartsAt source s o → StartsAt source s' o → ¬s < s' := by
    intro s s' h h' hlt
    rcases h'.after_newline with hzero | hnewline
    · omega
    · exact h.no_newline (s' - 1) (by omega) (by have := h'.le; omega) hnewline
  rcases Nat.lt_trichotomy s s' with hlt | heq | hlt
  · exact absurd hlt (key h h')
  · exact heq
  · exact absurd hlt (key h' h)

end Line

namespace LineTable

/-- **Looking up a line and going back to its start agree.** -/
theorem lineStart_ofSource (source : Bytes) (offset : Nat) :
    (ofSource source).lineStart offset = Line.start source offset := by
  obtain ⟨front, line, htake, hstart, -, hline, hfront⟩ := Line.exists_start source offset
  rw [lineStart, upTo_ofSource, htake, hstart, lineStartsFrom_append,
    lineStartsFrom_eq_nil hline, List.append_nil]
  rcases hfront with rfl | hfront
  · rfl
  · obtain ⟨rest, rfl⟩ := List.getLast?_eq_some_iff.mp hfront
    have hlast : lineStartsFrom (0 + rest.length) [Byte.newline] = [rest.length + 1] := by
      rw [Nat.zero_add]
      rfl
    rw [lineStartsFrom_append, hlast, ← List.cons_append, List.getLastD_concat, List.length_append,
      List.length_singleton]

/-- **Looking up a line and counting newlines agree.** -/
theorem line_position (source : Bytes) (offset : Nat) :
    ((ofSource source).position offset).line = Line.number source offset := by
  rw [position, upTo_ofSource, List.length_cons, length_lineStartsFrom, Line.number]

/-- **An entry with the offset between it and the next** is the start of the line that holds the
offset. -/
theorem line_of_entry {source : Bytes} {offset i s : Nat}
    (hs : (ofSource source).starts[i]? = some s) (hle : s ≤ min offset source.length)
    (hnext : ∀ n ∈ (ofSource source).starts[i + 1]?, min offset source.length < n) :
    ((ofSource source).position offset).line = i + 1 ∧ (ofSource source).lineStart offset = s := by
  have hlen : ((ofSource source).upTo offset).length = i + 1 :=
    length_takeWhile_eq (pairwise_starts source) hs hle hnext
  obtain ⟨rest, hrest⟩ : (ofSource source).upTo offset <+: (ofSource source).starts :=
    List.takeWhile_prefix _
  rw [← hrest, List.getElem?_append_left (by omega)] at hs
  refine ⟨hlen, ?_⟩
  rw [lineStart, List.getLastD_eq_getLast?, List.getLast?_eq_getElem?, hlen, Nat.add_sub_cancel, hs]
  rfl

end LineTable

/-! ## Order -/

/-- The order of positions: by line, then by column. -/
def Position.Precedes (p q : Position) : Prop :=
  p.line < q.line ∨ p.line = q.line ∧ p.column < q.column

theorem Position.Precedes.ne {p q : Position} (h : p.Precedes q) : p ≠ q := by
  rintro rfl
  rcases h with h | ⟨-, h⟩ <;> exact Nat.lt_irrefl _ h

/-- **Offsets further on have positions further on.** -/
theorem LineTable.position_precedes {source : Bytes} {a b : Nat} (hlt : a < b)
    (hle : b ≤ source.length) :
    ((ofSource source).position a).Precedes ((ofSource source).position b) := by
  have hcount : (source.take b).count Byte.newline =
      (source.take a).count Byte.newline + ((source.drop a).take (b - a)).count Byte.newline := by
    rw [← List.count_append, ← List.take_add, Nat.add_sub_cancel' (Nat.le_of_lt hlt)]
  have hstart := Line.startsAt_start source
  rw [Position.Precedes, line_position, line_position, Line.number, Line.number, hcount]
  rcases Nat.eq_zero_or_pos (((source.drop a).take (b - a)).count Byte.newline) with hzero | hpos
  · -- No newline lies between the offsets, so both are on the line that holds the first.
    have hsame : Line.start source a = Line.start source b := by
      refine Line.StartsAt.unique (o := b) ⟨?_, (hstart a).after_newline, fun k hsk hkb => ?_⟩
        (by simpa [Nat.min_eq_left hle] using hstart b)
      · have := (hstart a).le
        omega
      · rcases Nat.lt_or_ge k a with hka | hak
        · exact (hstart a).no_newline k hsk (by omega)
        · intro hk
          refine List.count_eq_zero.mp hzero (List.mem_of_getElem? (i := k - a) ?_)
          rw [List.getElem?_take_of_lt (by omega), List.getElem?_drop, Nat.add_sub_cancel' hak, hk]
    have := (hstart a).le
    refine .inr ⟨by omega, ?_⟩
    rw [position, position, lineStart_ofSource, lineStart_ofSource, ← hsame]
    dsimp only [ofSource]
    omega
  · exact .inl (by omega)

/-- **Line arithmetic is one.**  For every offset, which counts as the end if it lies past it: its
line starts where the table says, at the start of the buffer or after a newline; its position
counts the newlines before it and the bytes since that start; indentation is read from the same
start; any entry of the table with the offset between it and the next is the one of that line; and a
listing of regions prints that line.  So offsets in order have positions in order. -/
theorem positions_agree (source : Bytes) :
    (∀ offset,
      let t := LineTable.ofSource source
      let o := min offset source.length
      Line.StartsAt source (t.lineStart offset) o ∧
        t.position offset =
          ⟨1 + (source.take o).count Byte.newline, 1 + (o - t.lineStart offset)⟩ ∧
        Line.start source offset = t.lineStart offset ∧
        Line.indent source offset = (source.drop (t.lineStart offset)).takeWhile Byte.isBlank ∧
        (∀ i s, t.starts[i]? = some s → s ≤ o → (∀ n ∈ t.starts[i + 1]?, o < n) →
          (t.position offset).line = i + 1 ∧ t.lineStart offset = s)) ∧
      (∀ f : Forest, f.describe source = String.join (f.toList.map fun r =>
        String.ofList (List.replicate (2 * ((f.ancestors r.id).length - 1)) ' ')
          ++ s!"#{r.id} {r.kind.tag}{r.kind.detail} [{r.start}..{r.stop}) "
          ++ s!"line {((LineTable.ofSource source).position r.start).line}\n")) ∧
      (∀ a b, a < b → b ≤ source.length →
        ((LineTable.ofSource source).position a).Precedes
          ((LineTable.ofSource source).position b)) ∧
      ∀ a b, a ≤ source.length → b ≤ source.length →
        (LineTable.ofSource source).position a = (LineTable.ofSource source).position b →
          a = b := by
  refine ⟨fun offset => ?_, fun f => ?_, fun a b hlt hle => LineTable.position_precedes hlt hle,
    fun a b ha hb heq => ?_⟩
  · have hstart := LineTable.lineStart_ofSource source offset
    refine ⟨hstart ▸ Line.startsAt_start source offset, ?_, hstart.symm, ?_,
      fun i s hs hle hnext => ?_⟩
    · have htake : source.take (min offset source.length) = source.take offset := by
        rw [← List.take_take, List.take_length]
      have hline := LineTable.line_position source offset
      rw [Line.number, ← htake] at hline
      rw [LineTable.position] at hline ⊢
      rw [Position.mk.injEq]
      exact ⟨hline.trans (Nat.add_comm ..), Nat.add_comm ..⟩
    · rw [Line.indent, hstart]
    · exact LineTable.line_of_entry hs hle hnext
  · refine congrArg String.join (List.map_congr_left fun r _ => ?_)
    rw [Forest.describeRegion, LineTable.line_position]
  · rcases Nat.lt_trichotomy a b with hlt | rfl | hlt
    · exact absurd heq (LineTable.position_precedes hlt hb).ne
    · rfl
    · exact absurd heq.symm (LineTable.position_precedes hlt ha).ne

/-- On a newline, right after it, at the end and past the end. -/
example : [2, 3, 6, 8, 100].map (LineTable.ofSource (utf8 "ab\ncd\n\nx")).position =
    [⟨1, 3⟩, ⟨2, 1⟩, ⟨3, 1⟩, ⟨4, 2⟩, ⟨4, 2⟩] := by decide

end Quell
