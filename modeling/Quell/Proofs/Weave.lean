import Mathlib.Tactic.Common
import Quell.Proofs.Inert
import Quell.Proofs.Planning

/-!
# Proofs/Weave — the code of the result is that of the buffer with the inserted code in place

Every text goes right after an opening brace or right before a closing one, and braces combine with
nothing.  So a derivation of the buffer can be cut where a text goes (`Seat.cut`), the text read in
between, and the rest read on; edit by edit this gives a derivation of the result
(`lexes_spliced`).  Inserted texts have no braces, so the regions keep their parents.
-/

namespace Quell

open Lexer

/-- The code that a text reads as, by itself. -/
def codeOf (text : Bytes) : List (Kind × Bytes) :=
  match tokenize text with
  | .ok tokens => reads tokens
  | .error _ => []

/-- **The code of a buffer with the code of each text put in where the text goes.** -/
def weave (tokens : List Token) : List Edit → List (Kind × Bytes)
  | [] => reads tokens
  | e :: edits =>
    reads (tokens.takeWhile (·.start < e.offset)) ++ codeOf e.text
      ++ weave (tokens.dropWhile (·.start < e.offset)) edits

/-- The code of a text is the chunk that it is. -/
theorem codeOf_chunk {text : Bytes} {shapes : List (Kind × Bytes)} {fresh' : Bool}
    (h : Chunk text shapes fresh') : codeOf text = shapes := by
  obtain ⟨tokens, htokens, hreads⟩ := h.tokenize_eq
  rw [codeOf, htokens]
  exact hreads

/-! ## Where texts may be put in -/

/-- **A place where a text may be put into a stretch** that starts at byte `cursor`: after an
opening brace, or before a closing one if a blank stands before the text or starts it. -/
inductive Seat (cursor : Nat) (rest : Bytes) (tokens : List Token) (e : Edit) : Prop
  | opening {t : Token} : t ∈ tokens → t.opening? = some .curly → t.stop = e.offset →
      Inert e.text false → Seat cursor rest tokens e
  | closing {t : Token} {fresh' : Bool} : t ∈ tokens → t.closing? = some .curly →
      t.start = e.offset → Inert e.text fresh' →
      (e.text.head? = some Byte.space ∨
        ∀ b, (rest.take (e.offset - cursor)).getLast? = some b → trailing b = true) →
      Seat cursor rest tokens e

/-- What may be put in is inert. -/
theorem Seat.inert {cursor : Nat} {rest : Bytes} {tokens : List Token} {e : Edit}
    (h : Seat cursor rest tokens e) : ∃ fresh', Inert e.text fresh' := by
  rcases h with ⟨-, -, -, hinert⟩ | ⟨-, -, -, hinert, -⟩
  · exact ⟨_, hinert⟩
  · exact ⟨_, hinert⟩

/-- A place further on is one in what is left of the stretch. -/
theorem Seat.drop {cursor : Nat} {gap rest : Bytes} {front back : List Token} {e : Edit}
    (h : Seat cursor (gap ++ rest) (front ++ back) e)
    (hfront : ∀ t ∈ front, t.stop ≤ cursor + gap.length)
    (hwide : ∀ t ∈ front, t.start < t.stop) (hlt : cursor + gap.length < e.offset) :
    Seat (cursor + gap.length) rest back e := by
  rcases h with ⟨ht, hopen, hstop, hinert⟩ | ⟨ht, hclose, hstart, hinert, hblank⟩
  · refine .opening ?_ hopen hstop hinert
    rcases List.mem_append.mp ht with ht | ht
    · have := hfront _ ht
      omega
    · exact ht
  · refine .closing ?_ hclose hstart hinert (hblank.imp_right fun hblank b hb => hblank b ?_)
    · rcases List.mem_append.mp ht with ht | ht
      · have := hfront _ ht
        have := hwide _ ht
        omega
      · exact ht
    · have htake : (gap ++ rest).take (e.offset - cursor) =
          gap ++ rest.take (e.offset - (cursor + gap.length)) := by
        rw [List.take_append, List.take_of_length_le (by omega), Nat.sub_sub]
      rw [htake, List.getLast?_append, hb]
      rfl

/-- An opening brace is one byte. -/
theorem eq_of_opening {t : Token} (h : t.opening? = some .curly) :
    t = ⟨.punctuation, [123], t.start⟩ := by
  obtain ⟨hkind, htext⟩ := Token.isMark_iff.mp (Token.opening?_eq_some_iff.mp h)
  rcases t with ⟨kind, text, start⟩
  rw [Token.mk.injEq]
  exact ⟨hkind, htext, rfl⟩

theorem eq_of_closing {t : Token} (h : t.closing? = some .curly) :
    t = ⟨.punctuation, [125], t.start⟩ := by
  obtain ⟨hkind, htext⟩ := Token.isMark_iff.mp (Token.closing?_eq_some_iff.mp h)
  rcases t with ⟨kind, text, start⟩
  rw [Token.mk.injEq]
  exact ⟨hkind, htext, rfl⟩

/-- **A stretch cut where a text goes**: what stands before it may be followed by the text, and what
stands after it may follow the text. -/
theorem Seat.cut {cursor : Nat} {fresh fresh' : Bool} {rest : Bytes} {tokens : List Token}
    {e : Edit} (h : Lexes cursor fresh rest [] tokens fresh') (hseat : Seat cursor rest tokens e) :
    ∃ front back gap tail mid out, tokens = front ++ back ∧ rest = gap ++ tail ∧
      e.offset = cursor + gap.length ∧ Inert e.text out ∧
      (∀ v, Lexes cursor fresh gap (e.text ++ v) front mid) ∧
      Lexes e.offset out tail [] back fresh' := by
  rcases hseat with @⟨t, ht, hopen, hstop, hinert⟩ | @⟨t, out, ht, hclose, hstart, hinert, hblank⟩
  · obtain ⟨before, after, rfl⟩ := List.append_of_mem ht
    obtain ⟨a, _, _, c, mid, rfl, hplace, ha, -, -, hc⟩ := h.split
    have hstart : t.start = cursor + a.length := congrArg Token.start hplace
    have htoken := eq_of_opening hopen
    have htext : t.text = [123] := by rw [htoken]
    refine ⟨before ++ [t], after, a ++ t.text, c, false, false, by simp, by simp, ?_, hinert,
      fun v => ?_, ?_⟩
    · rw [← hstop, Token.stop, hstart, List.length_append, Nat.add_assoc]
    · have hglimpse : glimpse (t.text ++ (c ++ [])) = glimpse (t.text ++ (e.text ++ v)) := by
        rw [htext, List.singleton_append, List.singleton_append, glimpse_separates (by decide),
          glimpse_separates (by decide)]
      refine (ha.congr (.of_glimpse hglimpse)).append ?_
      rw [htext, htoken, hstart]
      exact lexes_lone (by decide) _ _ _
    · rw [← hstop]
      exact hc
  · obtain ⟨before, after, rfl⟩ := List.append_of_mem ht
    obtain ⟨a, _, _, c, mid, rfl, ht, ha, -, -, hc⟩ := h.split
    have hplace : t.start = cursor + a.length := congrArg Token.start ht
    have htoken := eq_of_closing hclose
    have htext : t.text = [125] := by rw [htoken]
    have hglimpse : glimpse (t.text ++ (c ++ [])) = [Byte.space] := by
      rw [htext, List.singleton_append, glimpse_separates (by decide)]
    refine ⟨before, t :: after, a, t.text ++ c, mid, out, rfl, rfl, by rw [← hstart, hplace],
      hinert, fun v => ?_, ?_⟩
    · rcases hblank with hhead | hlast
      · obtain ⟨text, htext⟩ := List.head?_eq_some_iff.mp hhead
        refine ha.congr (.of_glimpse ?_)
        rw [hglimpse, htext, List.cons_append, glimpse_separates (by decide)]
      · refine ha.congr_of_trailing (fun b hb => hlast b ?_) hglimpse _
        rw [← hstart, hplace, Nat.add_sub_cancel_left, List.take_left]
        exact hb
    · have hbrace : Lexes e.offset out t.text (c ++ []) [t] false := by
        rw [htext, htoken, hstart]
        exact lexes_lone (by decide) _ _ _
      refine hbrace.append ?_
      rw [← hstart]
      exact hc

/-! ## Putting the texts in -/

/-- Tokens are cut where the text goes. -/
theorem takeWhile_append_of_bounds {front back : List Token} {offset : Nat}
    (hfront : ∀ t ∈ front, t.start < offset) (hback : ∀ t ∈ back, offset ≤ t.start) :
    (front ++ back).takeWhile (·.start < offset) = front ∧
      (front ++ back).dropWhile (·.start < offset) = back := by
  have hnone : ∀ t ∈ back.head?, ¬t.start < offset := by
    intro t ht
    have := hback t (List.mem_of_mem_head? ht)
    omega
  rw [List.takeWhile_append_of_pos (by simpa using hfront),
    List.dropWhile_append_of_pos (by simpa using hfront)]
  rcases back with _ | ⟨t, back⟩
  · simp
  · have := hnone t (by simp)
    simp [this]

/-- **A buffer with texts put in reads as its code with theirs in place.** -/
theorem lexes_spliced {cursor : Nat} {rest output : Bytes} {edits : List Edit}
    (h : Edit.Spliced cursor rest edits output) {fresh fresh' : Bool} {tokens : List Token}
    (hlexes : Lexes cursor fresh rest [] tokens fresh')
    (hordered : edits.Pairwise fun a b => a.offset < b.offset)
    (hseats : ∀ e ∈ edits, Seat cursor rest tokens e) (start : Nat) :
    ∃ tokens', Lexes start fresh output [] tokens' fresh' ∧ reads tokens' = weave tokens edits := by
  induction h generalizing fresh tokens start with
  | done cursor rest =>
    obtain ⟨tokens', hlexes', hshapes⟩ := hlexes.move start
    exact ⟨tokens', hlexes', reads_congr hshapes⟩
  | @insert cursor gap e rest output edits hplace _ ih =>
    obtain ⟨hlater, hordered⟩ := List.pairwise_cons.mp hordered
    obtain ⟨front, back, gap', tail, mid, out, rfl, hrest, hplace', ⟨shapes, hchunk, -⟩, hfront,
      hback⟩ := (hseats e (by simp)).cut hlexes
    obtain ⟨rfl, rfl⟩ : gap = gap' ∧ rest = tail := List.append_inj hrest (by omega)
    have hbounds : ∀ t ∈ front, t.start < t.stop ∧ t.stop ≤ cursor + gap.length :=
      fun t ht => ((hfront []).bounds ht).2
    have hseats' : ∀ d ∈ edits, Seat (cursor + gap.length) rest back d := by
      intro d hd
      refine (hseats d (by simp [hd])).drop (fun t ht => (hbounds t ht).2)
        (fun t ht => (hbounds t ht).1) ?_
      have := hlater d hd
      omega
    -- The stretch before the text, moved; the text, read where it now stands; and the rest.
    rw [← hplace] at hseats'
    obtain ⟨later, hlaterLexes, hlaterReads⟩ := ih hback hordered hseats'
      (start + gap.length + e.text.length)
    obtain ⟨inserted, hinserted, hinsertedReads⟩ := hchunk (start + gap.length) mid output
    obtain ⟨moved, hmoved, hmovedShapes⟩ := (hfront output).move start
    have hinserted' : Lexes (start + gap.length) mid (e.text ++ output) [] (inserted ++ later)
        fresh' := by
      rw [← List.append_nil output] at hinserted
      exact hinserted.append hlaterLexes
    rw [← List.append_nil output, ← List.append_assoc] at hmoved
    refine ⟨moved ++ (inserted ++ later), hmoved.append hinserted', ?_⟩
    obtain ⟨htake, hdrop⟩ := takeWhile_append_of_bounds
      (fun t ht => hplace ▸ Nat.lt_of_lt_of_le (hbounds t ht).1 (hbounds t ht).2)
      (fun t ht => (hback.bounds ht).1)
    rw [weave, htake, hdrop, codeOf_chunk hchunk, reads_append, reads_append, hinsertedReads,
      hlaterReads, reads_congr hmovedShapes, List.append_assoc]

/-! ## The planned edits -/

theorem Outline.Valid.word_of_isName {o : Outline} (h : o.Valid) {i : Nat} {t : Token}
    (ht : o.code[i]? = some t) (hname : t.isName = true) :
    isWord t.text = true ∧ Kind.ofWord t.text = .identifier := by
  obtain ⟨fresh', hlexes⟩ := tokenize_eq_ok_iff.mp h.tokenized
  exact hlexes.isWord_of_isName (h.mem_tokens ht) hname

theorem Outline.Valid.namesAreWords {o : Outline} (h : o.Valid) : NamesAreWords o.code :=
  fun _ _ ht hname => (h.word_of_isName ht hname).1

/-- Before a place that starts its line stands a blank or a newline, if anything. -/
theorem trailing_of_starts {source : Bytes} {offset : Nat} (h : Line.starts source offset = true)
    {b : UInt8} (hb : (source.take offset).getLast? = some b) : trailing b = true := by
  rw [List.getLast?_eq_head?_reverse] at hb
  obtain ⟨rest, hrest⟩ := List.head?_eq_some_iff.mp hb
  rw [Line.starts, Line.before, hrest] at h
  by_cases hnewline : b = Byte.newline
  · rw [hnewline]
    rfl
  · rw [List.takeWhile_cons_of_pos (by simpa using hnewline), List.all_cons, Bool.and_eq_true] at h
    rw [trailing, h.1]
    rfl

namespace Plan

variable {o : Outline} {settings : Settings} {e : Edit}

/-- The name of an unused parameter is a word that is not reserved. -/
theorem word_spec (h : o.Valid) {r : Region} {head : FunctionHead} {u : UnusedParams}
    (hu : UnusedParams.ofFunction? o r head = some u) {p : String × Nat} (hp : p ∈ u.params) :
    isWord (word o p) = true ∧ Kind.ofWord (word o p) = .identifier ∧
      Utf8.legible (word o p) = p.1 := by
  obtain ⟨hname, hspelled⟩ := nameAt_unused hu hp
  rw [Code.nameAt, Code.has, Option.any_eq_true] at hname
  obtain ⟨t, ht, hname⟩ := hname
  have hword : word o p = t.text := by rw [word, ht]; rfl
  obtain ⟨hisWord, hkind⟩ := h.word_of_isName ht hname
  rw [hword, hspelled, Code.name, ht]
  exact ⟨hisWord, hkind, rfl⟩

/-- **A planned discard reads as one discard after the other.** -/
theorem chunk_discard (h : o.Valid) {r : Region} {head : FunctionHead} {u : UnusedParams}
    (hu : UnusedParams.ofFunction? o r head = some u) (style : DiscardStyle) :
    Chunk (discardText o settings r ((u.params.map (word o)).map style.statement))
      ((u.params.map (word o)).flatMap style.shapes) false := by
  refine chunk_discardText (by simpa using params_ne_nil hu) fun w hw => ?_
  obtain ⟨p, hp, rfl⟩ := List.mem_map.mp hw
  exact (word_spec h hu hp).1

/-- **A discard may be put in.** -/
theorem seat_discard (h : o.Valid) (he : e ∈ discardEdits o settings) :
    Seat 0 o.source o.tokens e := by
  obtain ⟨f, hf, hfe⟩ := mem_discardEdits he
  obtain ⟨u, hu, hoffset, htext, -⟩ := discardAt?_eq_some h hf hfe
  obtain ⟨opener, -, hopener, -, hopen, -, -, -, hbody, -⟩ :=
    h.braces (Outline.mem_functions_iff.mp hf).1
  refine .opening (h.mem_tokens hopener) hopen (by rw [hoffset, hbody]) ?_
  rw [htext]
  exact ⟨_, chunk_discard h hu _, balanced_flatMap_shapes _ _⟩

/-- **So may a completion.** -/
theorem seat_completion (h : o.Valid) (hcheck : settings.check = .ok ())
    (he : e ∈ switchEdits o settings) : Seat 0 o.source o.tokens e := by
  obtain ⟨s, hs, hse⟩ := mem_switchEdits he
  obtain ⟨m, hm, hoffset, htext⟩ := completionAt?_eq_some h hs hse
  obtain ⟨-, closer, -, hcloser, -, hclose, -, -, -, hplace⟩ :=
    h.braces (Outline.mem_switches_iff.mp hs).1
  have hmem := h.mem_tokens hcloser
  have hstart : closer.start = e.offset := by rw [hoffset, hplace]
  have homission : m ∈ (o.coverage o.enumerations).omissions := by
    refine List.mem_filterMap.mpr ⟨_, List.mem_map_of_mem (List.mem_map_of_mem hs), hm⟩
  have hplain : ∀ q ∈ (labels settings m).1, ∀ b ∈ q, plain b = true :=
    plain_labels fun q hq => spelled_caseLabel h.namesAreWords homission hq
  rw [← hoffset] at htext
  split_ifs at htext with hline
  · refine .closing hmem hclose hstart (htext ▸ inert_labelLines hcheck m hplain)
      (.inr fun b hb => trailing_of_starts hline hb)
  · refine .closing hmem hclose hstart (htext ▸ inert_labelsInline hcheck hplain) ?_
    rw [htext, labelsInline, ← hoffset]
    split_ifs with hblank
    · -- A blank stands before the brace.
      refine .inr fun b hb => ?_
      rw [Bool.and_eq_true, decide_eq_true_eq, Option.any_eq_true] at hblank
      obtain ⟨hpos, c, hc, hblank⟩ := hblank
      rw [Nat.sub_zero, List.getLast?_take, if_neg (by omega), hc, Option.some_or,
        Option.some.injEq] at hb
      rw [← hb, trailing, hblank]
      rfl
    · exact .inl rfl

end Plan

/-! ## Brackets and regions of the result -/

/-- The code of a buffer is what stands before a place and what stands after it. -/
theorem reads_cut (tokens : List Token) (offset : Nat) :
    reads (tokens.takeWhile (·.start < offset)) ++ reads (tokens.dropWhile (·.start < offset)) =
      reads tokens := by
  rw [← reads_append, List.takeWhile_append_dropWhile]

/-- The code of the buffer stays, in order. -/
theorem reads_sublist_weave (tokens : List Token) (edits : List Edit) :
    (reads tokens).Sublist (weave tokens edits) := by
  induction edits generalizing tokens with
  | nil => exact .refl _
  | cons e edits ih =>
    rw [weave, ← reads_cut tokens e.offset]
    exact (List.sublist_append_left _ _).append (ih _)

/-- The code of a buffer is cut where a text goes. -/
theorem plant_cut (tokens : List Token) (offset : Nat) :
    plant (reads tokens) = plant (reads (tokens.takeWhile (·.start < offset))) ++
      plant (reads (tokens.dropWhile (·.start < offset))) := by
  rw [← reads_cut tokens offset, plant_append]

/-- The code with texts in place: what stands before the first text, its own code, and what stands
after it with the other texts in place. -/
theorem plant_weave_cons {e : Edit} {shapes : List (Kind × Bytes)} {fresh' : Bool}
    (h : Chunk e.text shapes fresh') (tokens : List Token) (edits : List Edit) :
    plant (weave tokens (e :: edits)) =
      plant (reads (tokens.takeWhile (·.start < e.offset))) ++ plant shapes ++
        plant (weave (tokens.dropWhile (·.start < e.offset)) edits) := by
  rw [weave, codeOf_chunk h, plant_append, plant_append]

/-- Inert texts leave the open brackets as they are. -/
theorem settle_weave {tokens : List Token} {edits : List Edit}
    (h : ∀ e ∈ edits, ∃ fresh', Inert e.text fresh') (stack : List Bracket) :
    settle stack (plant (weave tokens edits)) = settle stack (plant (reads tokens)) := by
  induction edits generalizing tokens stack with
  | nil => rfl
  | cons e edits ih =>
    obtain ⟨fresh', shapes, hchunk, hbalanced, -⟩ := h e (by simp)
    rw [plant_weave_cons hchunk, plant_cut tokens e.offset, settle_append, settle_append,
      settle_append, Option.bind_assoc]
    congr 1
    funext next
    rw [hbalanced.settle_eq, Option.bind_some, ih fun d hd => h d (by simp [hd])]

/-- Inert texts bring no braces. -/
theorem braces_weave {tokens : List Token} {edits : List Edit}
    (h : ∀ e ∈ edits, ∃ fresh', Inert e.text fresh') :
    Forest.braces (plant (weave tokens edits)) = Forest.braces (plant (reads tokens)) := by
  induction edits generalizing tokens with
  | nil => rfl
  | cons e edits ih =>
    obtain ⟨fresh', shapes, hchunk, -, hbraces⟩ := h e (by simp)
    rw [plant_weave_cons hchunk, plant_cut tokens e.offset, braces_append, braces_append,
      braces_append, hbraces, List.append_nil, ih fun d hd => h d (by simp [hd])]

theorem toList_ofTokens (tokens : List Token) :
    (Code.ofTokens tokens).toList.map Token.shape = reads tokens := rfl

/-- **A run, seen from the outlines before and after it.** -/
structure Woven (settings : Settings) (t : Transformed) (o o' : Outline) : Prop where
  check : settings.check = .ok ()
  before : o.Valid
  after : o'.Valid
  output : o'.source = t.output
  ordered : t.edits.Pairwise fun a b => a.offset < b.offset
  planned : ∀ e, e ∈ t.edits ↔ Plan.Planned o settings e
  inert : ∀ e ∈ t.edits, ∃ fresh', Inert e.text fresh'
  reads_eq : reads o'.tokens = weave o.tokens t.edits

/-- Every run weaves its texts into the code. -/
theorem exists_woven {settings : Settings} {source : Bytes} {t : Transformed}
    (h : transform settings source = .ok t) :
    ∃ o o', o.source = source ∧ Woven settings t o o' := by
  obtain ⟨o, rfl, hcheck, hvalid, hordered, hplanned, hspliced⟩ := exists_carriesOut h
  have hseats : ∀ e ∈ t.edits, Seat 0 o.source o.tokens e := fun e he =>
    ((hplanned e).mp he).mem.elim (Plan.seat_discard hvalid) (Plan.seat_completion hvalid hcheck)
  have hinert : ∀ e ∈ t.edits, ∃ fresh', Inert e.text fresh' := fun e he => (hseats e he).inert
  obtain ⟨fresh', hlexes⟩ := tokenize_eq_ok_iff.mp hvalid.tokenized
  obtain ⟨tokens', hlexes', hreads⟩ := lexes_spliced hspliced hlexes hordered hseats 0
  have htokens' : tokenize t.output = .ok tokens' := tokenize_eq_ok_iff.mpr ⟨fresh', hlexes'⟩
  have hbalanced : Balanced (Code.ofTokens tokens').toList := by
    rw [Balanced, ← settle_plant, toList_ofTokens, hreads, settle_weave hinert, ← toList_ofTokens,
      settle_plant, ← hvalid.code_eq]
    exact hvalid.balanced
  obtain ⟨pairing, hpairing⟩ := Pairing.exists_ofCode_iff.mpr hbalanced
  have hsource' : Outline.ofSource t.output =
      .ok ⟨t.output, tokens', _, pairing, Forest.ofCode (Code.ofTokens tokens') pairing⟩ :=
    Outline.ofSource_eq_ok_iff.mpr
      ⟨tokens', htokens', Outline.ofTokens_eq_ok_iff.mpr ⟨pairing, hpairing, rfl⟩⟩
  exact ⟨o, _, rfl, hcheck, hvalid, (Outline.ofSource_eq_ok_iff_valid.mp hsource').2, rfl, hordered,
    hplanned, hinert, hreads⟩

/-- **The inserted texts are lexically inert.**  The result of a run tokenizes; its code is that of
the buffer, with the code of each inserted text where that text goes; and it has as many regions as
the buffer, with the same parents. -/
theorem transform_weaves {settings : Settings} {source : Bytes} {t : Transformed}
    (h : transform settings source = .ok t) :
    ∃ tokens tokens' o o', tokenize source = .ok tokens ∧ tokenize t.output = .ok tokens' ∧
      (∀ e ∈ t.edits, ∃ inserted, tokenize e.text = .ok inserted) ∧
      reads tokens' = weave tokens t.edits ∧ (reads tokens).Sublist (reads tokens') ∧
      Outline.ofTokens source tokens = .ok o ∧ Outline.ofTokens t.output tokens' = .ok o' ∧
      o'.forest.size = o.forest.size ∧
      o'.forest.toList.map (·.parent) = o.forest.toList.map (·.parent) := by
  obtain ⟨o, o', rfl, hwoven⟩ := exists_woven h
  have hbraces : Forest.braces o'.code.toList = Forest.braces o.code.toList := by
    rw [hwoven.after.code_eq, ← braces_plant, toList_ofTokens, hwoven.reads_eq,
      braces_weave hwoven.inert, ← toList_ofTokens, braces_plant, ← hwoven.before.code_eq]
  have hparents : o'.forest.toList.map (·.parent) = o.forest.toList.map (·.parent) := by
    rw [hwoven.after.forest_eq, hwoven.before.forest_eq, Forest.map_parent_regions,
      Forest.map_parent_regions, hbraces]
  rw [← hwoven.output]
  refine ⟨o.tokens, o'.tokens, o, o', hwoven.before.tokenized, hwoven.after.tokenized,
    fun e he => ?_, hwoven.reads_eq, ?_, hwoven.before.ofTokens_eq, hwoven.after.ofTokens_eq, ?_,
    hparents⟩
  · obtain ⟨fresh', shapes, hchunk, -⟩ := hwoven.inert e he
    obtain ⟨inserted, hinserted, -⟩ := hchunk.tokenize_eq
    exact ⟨inserted, hinserted⟩
  · rw [hwoven.reads_eq]
    exact reads_sublist_weave o.tokens t.edits
  · have := congrArg List.length hparents
    rwa [List.length_map, List.length_map] at this

/-- A run with one completion. -/
theorem transform_weaves_default :
    ∃ tokens tokens',
      tokenize (utf8 "enum E \x7b A \x7d; void f(E e) \x7b switch (e) \x7b\x7d \x7d") =
        .ok tokens ∧
      tokenize
          (utf8 "enum E \x7b A \x7d; void f(E e) \x7b switch (e) \x7b default: break;\x7d \x7d") =
        .ok tokens' ∧
      reads tokens' =
        weave tokens [⟨40, utf8 " default: break;", .missingDefault, ["A"]⟩] := by
  have hrun :
      transform {} (utf8 "enum E \x7b A \x7d; void f(E e) \x7b switch (e) \x7b\x7d \x7d") =
        .ok ⟨utf8 "enum E \x7b A \x7d; void f(E e) \x7b switch (e) \x7b default: break;\x7d \x7d",
          [⟨40, utf8 " default: break;", .missingDefault, ["A"]⟩], []⟩ := by
    decide +kernel
  obtain ⟨tokens, tokens', -, -, htokens, htokens', -, hreads, -⟩ := transform_weaves hrun
  exact ⟨tokens, tokens', htokens, htokens', hreads⟩

end Quell
