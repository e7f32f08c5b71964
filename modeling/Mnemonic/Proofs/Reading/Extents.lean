import Mathlib
import Mnemonic.Proofs.Reading.Standing

set_option autoImplicit false

/-!
# The extents of entries

The spans of an entry stand one behind the other in the text, and something always stands between two
of them: the colon behind a symbol and the gap behind the colon, or the blanks in front of an operand.
So an entry takes a stretch of the text from the start of its first span to the end of its last, and
that is the least span with all of them in it. The stretches of different entries do not touch.

Main statement: so it is in every program that an attempt returns, and a listing with ranges shows for
each entry the least span with all of its spans in it (`stretches_of_read`).
-/

namespace Mnemonic

open Text

/-! ## Spans one behind the other -/

namespace Span

/-- The span ends, and the other one starts further on. -/
def EndsBefore (s r : Span) : Prop := s.upper < r.lower

/-- The other span lies within the span. -/
def Encloses (s r : Span) : Prop := s.lower ≤ r.lower ∧ r.upper ≤ s.upper

/-- The least span with the given spans in it. -/
structure IsHull (s : Span) (spans : List Span) : Prop where
  encloses : ∀ r ∈ spans, s.Encloses r
  least : ∀ other : Span, (∀ r ∈ spans, other.Encloses r) → other.Encloses s

/-- In spans one behind the other the last one ends last. -/
theorem upper_le_upper_getLastD {first : Span} {spans : List Span}
    (h : (first :: spans).Pairwise EndsBefore) (hordered : ∀ r ∈ first :: spans, r.lower ≤ r.upper) :
    ∀ r ∈ first :: spans, r.upper ≤ (spans.getLastD first).upper := by
  induction spans generalizing first with
  | nil => simp
  | cons s spans ih =>
      obtain ⟨hfirst, hspans⟩ := List.pairwise_cons.1 h
      have hlater := ih hspans fun r hr => hordered r (List.mem_cons_of_mem first hr)
      rw [List.getLastD_cons]
      intro r hr
      rcases List.mem_cons.1 hr with rfl | hr
      · have hbefore : r.upper < s.lower := hfirst s List.mem_cons_self
        have hs := hordered s (List.mem_cons_of_mem r List.mem_cons_self)
        exact (hbefore.le.trans hs).trans (hlater s List.mem_cons_self)
      · exact hlater r hr

/-- Spans one behind the other take the stretch from the start of the first to the end of the last. -/
theorem isHull_of_pairwise {first : Span} {spans : List Span}
    (h : (first :: spans).Pairwise EndsBefore) (hordered : ∀ r ∈ first :: spans, r.lower ≤ r.upper) :
    (⟨first.lower, (spans.getLastD first).upper⟩ : Span).IsHull (first :: spans) where
  encloses r hr := by
    refine ⟨?_, upper_le_upper_getLastD h hordered r hr⟩
    rcases List.mem_cons.1 hr with rfl | hr
    · exact le_rfl
    · have hbefore : first.upper < r.lower := (List.pairwise_cons.1 h).1 r hr
      exact (hordered first List.mem_cons_self).trans hbefore.le
  least other hother :=
    ⟨(hother first List.mem_cons_self).1, (hother _ List.getLastD_mem_cons).2⟩

end Span

/-! ## The spans of an entry -/

/-- The spans of a data entry, in the order of the text. -/
def Datum.spans (e : Datum) : List Span := [e.symbol, e.value]

/-- The spans of an instruction, in the order of the text. -/
def Instruction.spans (i : Instruction) : List Span := i.label.toList ++ i.name :: i.operands

/-- The stretch from where the first span of a data entry starts to where its last span ends. -/
def Datum.stretch (e : Datum) : Span := ⟨e.symbol.lower, e.value.upper⟩

/-- The stretch from where the first span of an instruction starts to where its last span ends. -/
def Instruction.stretch (i : Instruction) : Span :=
  ⟨(i.label.getD i.name).lower, (i.operands.getLastD i.name).upper⟩

/-- Between the symbol of a data entry and its value there is more than a colon. -/
structure Datum.Spaced (e : Datum) : Prop where
  symbol_value : e.symbol.upper + 1 < e.value.lower
  ordered : ∀ s ∈ e.spans, s.lower ≤ s.upper

/-- Between the label of an instruction and its name there is more than a colon, and between its name
and its operands there is something. -/
structure Instruction.Spaced (i : Instruction) : Prop where
  label_name : ∀ l ∈ i.label, l.upper + 1 < i.name.lower
  pairwise : i.spans.Pairwise Span.EndsBefore
  ordered : ∀ s ∈ i.spans, s.lower ≤ s.upper

/-- The stretch of a data entry is the least span with its spans in it. -/
theorem Datum.Spaced.isHull {e : Datum} (h : e.Spaced) : e.stretch.IsHull e.spans := by
  have hbetween : e.symbol.EndsBefore e.value := (Nat.lt_succ_self _).trans h.symbol_value
  exact Span.isHull_of_pairwise (List.pairwise_pair.2 hbetween) h.ordered

/-- The stretch of an instruction is the least span with its spans in it. -/
theorem Instruction.Spaced.isHull {i : Instruction} (h : i.Spaced) : i.stretch.IsHull i.spans := by
  obtain ⟨-, hpairwise, hordered⟩ := h
  unfold spans stretch at *
  cases hlabel : i.label with
  | none =>
      rw [hlabel] at hpairwise hordered
      exact Span.isHull_of_pairwise hpairwise hordered
  | some l =>
      rw [hlabel] at hpairwise hordered
      have hhull : (⟨l.lower, ((i.name :: i.operands).getLastD l).upper⟩ : Span).IsHull
          (l :: i.name :: i.operands) :=
        Span.isHull_of_pairwise hpairwise hordered
      rwa [List.getLastD_cons] at hhull

namespace Phrase

theorem lower_of_mem_operandSpans (before : List Char) {operands : List (List Char × List Char)}
    (hop : ∀ o ∈ operands, o.1 ≠ []) :
    ∀ s ∈ operandSpans before operands, byteLength before < s.lower ∧ s.lower ≤ s.upper := by
  induction operands generalizing before with
  | nil => simp [operandSpans]
  | cons o operands ih =>
      obtain ⟨gap, token⟩ := o
      have hgap := Nat.pos_of_ne_zero
        (mt (byteLength_eq_zero_iff gap).1 (hop (gap, token) List.mem_cons_self))
      have hlater := ih (before ++ gap ++ token) fun o ho => hop o (List.mem_cons_of_mem _ ho)
      intro s hs
      rcases List.mem_cons.1 hs with rfl | hs
      · simp only [Span.behind, byteLength_append]
        omega
      · obtain ⟨hlower, hordered⟩ := hlater s hs
        simp only [byteLength_append] at hlower
        exact ⟨by omega, hordered⟩

theorem pairwise_operandSpans {before : List Char} {operands : List (List Char × List Char)}
    (hop : ∀ o ∈ operands, o.1 ≠ []) : (operandSpans before operands).Pairwise Span.EndsBefore := by
  induction operands generalizing before with
  | nil => exact .nil
  | cons o operands ih =>
      obtain ⟨gap, token⟩ := o
      have hops : ∀ o ∈ operands, o.1 ≠ [] := fun o ho => hop o (List.mem_cons_of_mem _ ho)
      refine List.pairwise_cons.2 ⟨fun s hs => ?_, ih hops⟩
      have hlower := (lower_of_mem_operandSpans (before ++ gap ++ token) hops s hs).1
      rwa [byteLength_append] at hlower

/-- The name of an instruction and its operands stand one behind the other. -/
theorem pairwise_words (before name : List Char) {operands : List (List Char × List Char)}
    (hop : ∀ o ∈ operands, o.1 ≠ []) :
    (Span.behind before name :: operandSpans (before ++ name) operands).Pairwise Span.EndsBefore := by
  refine List.pairwise_cons.2 ⟨fun s hs => ?_, pairwise_operandSpans hop⟩
  rw [Span.EndsBefore, Span.upper_behind]
  exact (lower_of_mem_operandSpans (before ++ name) hop s hs).1

theorem lower_of_mem_words (before name : List Char) {operands : List (List Char × List Char)}
    (hop : ∀ o ∈ operands, o.1 ≠ []) :
    ∀ s ∈ Span.behind before name :: operandSpans (before ++ name) operands,
      byteLength before ≤ s.lower ∧ s.lower ≤ s.upper := by
  intro s hs
  rcases List.mem_cons.1 hs with rfl | hs
  · exact ⟨le_rfl, Nat.le_add_right _ _⟩
  · obtain ⟨hlower, hordered⟩ := lower_of_mem_operandSpans (before ++ name) hop s hs
    rw [byteLength_append] at hlower
    exact ⟨(Nat.le_add_right _ _).trans hlower.le, hordered⟩

/-- In the data entry that a phrase says, the spans are spaced. -/
theorem StandsIn.spaced_datum {t before : List Char} {p : Phrase} {e : Datum} (h : p.StandsIn t before)
    (hi : p.item? before = some (.data e)) : e.Spaced := by
  obtain ⟨rest, -, hwellFormed, -⟩ := h.exists_rest
  cases p with
  | datum symbol gap value dropped =>
      obtain ⟨-, ⟨hgap, -⟩, -⟩ := hwellFormed
      have hpos := Nat.pos_of_ne_zero (mt (byteLength_eq_zero_iff gap).1 hgap)
      have hcolon : ':'.utf8Size = 1 := rfl
      obtain rfl := Item.data.inj (Option.some.inj hi)
      refine ⟨?_, ?_⟩
      · simp only [Span.behind, byteLength_append, byteLength_cons]
        omega
      · simp [Datum.spans, Span.behind]
  | _ => simp [item?] at hi

/-- In the instruction that a phrase says, the spans are spaced. -/
theorem StandsIn.spaced_instruction {t before : List Char} {p : Phrase} {i : Instruction}
    (h : p.StandsIn t before) (hi : p.item? before = some (.instruction i)) : i.Spaced := by
  obtain ⟨rest, -, hwellFormed, -⟩ := h.exists_rest
  cases p with
  | instruction label name operands trailing =>
      obtain ⟨hlabel, -, -, hoperands, -⟩ := hwellFormed
      obtain rfl := Item.instruction.inj (Option.some.inj hi)
      have hop : ∀ o ∈ operands, o.1 ≠ [] := fun o ho => (hoperands o ho).1
      have hpairwise := pairwise_words (before ++ labelText label) name hop
      have hwords := lower_of_mem_words (before ++ labelText label) name hop
      cases label with
      | none => exact ⟨by simp, hpairwise, fun s hs => (hwords s hs).2⟩
      | some l =>
          obtain ⟨word, gap⟩ := l
          have hpos := Nat.pos_of_ne_zero (mt (byteLength_eq_zero_iff gap).1 (hlabel _ rfl).2.1)
          have hcolon : ':'.utf8Size = 1 := rfl
          have hbetween : (Span.behind before word).upper + 1 <
              byteLength (before ++ labelText (some (word, gap))) := by
            simp only [Span.behind, labelText, byteLength_append, byteLength_cons]
            omega
          refine ⟨?_, List.pairwise_cons.2 ⟨fun s hs => ?_, hpairwise⟩, ?_⟩
          · intro l hl
            obtain rfl := Option.some.inj hl
            exact hbetween
          · exact (Nat.lt_succ_self _).trans (hbetween.trans_le (hwords s hs).1)
          · intro s hs
            rcases List.mem_cons.1 hs with rfl | hs
            · exact Nat.le_add_right _ _
            · exact (hwords s hs).2
  | _ => simp [item?] at hi

end Phrase

/-! ## What a listing shows -/

namespace Listing

/-- The line of an entry ends with the bounds of a span. -/
def ShowsBounds (line : Except Misfit (List Piece)) (s : Span) : Prop :=
  ∃ front, line = .ok (front ++ [.plain s!"  @{s.lower}..{s.upper}", .plain "\n"])

/-- With ranges, the line of a data entry ends with the bounds of its stretch. -/
theorem showsBounds_dataLine (color : Bool) {t : List Char} {e : Datum} (h : e.Fits t) :
    ShowsBounds (dataLine ⟨color, true⟩ t e) e.stretch := by
  obtain ⟨symbol, hsymbol⟩ := h.symbol.answers
  obtain ⟨value, hvalue⟩ := h.value.answers
  refine ⟨[stamp e.line e.column, .plain " DATA   ", .painted .yellow symbol, .plain ": ",
    .painted (valueHue value) (spellLineFeeds value)], ?_⟩
  rw [dataLine, hsymbol, hvalue]
  rfl

/-- With ranges, the line of an instruction ends with the bounds of its stretch. -/
theorem showsBounds_instructionLine (color : Bool) {t : List Char} {i : Instruction} (h : i.Fits t) :
    ShowsBounds (instructionLine ⟨color, true⟩ t i) i.stretch := by
  obtain ⟨label, hlabel⟩ := answers_labelPieces h.label
  obtain ⟨name, hname⟩ := h.name.answers
  obtain ⟨operands, hoperands⟩ : Answers (i.operands.mapM (operandPieces t)) :=
    .mapM fun o ho => (h.operands o ho).answers.bind fun _ => .pure _
  have hlower : instructionLower i = i.stretch.lower := rfl
  have hupper : instructionUpper i = i.stretch.upper := by
    rw [instructionUpper, Instruction.stretch, List.getLastD_eq_getLast?]
  refine ⟨[stamp i.line i.column, .plain " INSTR  "] ++ label ++ [.painted .magenta name] ++
    operands.flatten, ?_⟩
  rw [instructionLine, hlabel, hname, hoperands, hlower, hupper]
  exact congrArg Except.ok (List.append_assoc _ _ _)

end Listing

/-! ## Programs -/

namespace Item

theorem SaidIn.spaced_datum {t : List Char} {e : Datum} (h : (Item.data e).SaidIn t) : e.Spaced := by
  obtain ⟨before, p, hstands, hi⟩ := h
  exact hstands.spaced_datum hi

theorem SaidIn.spaced_instruction {t : List Char} {i : Instruction}
    (h : (Item.instruction i).SaidIn t) : i.Spaced := by
  obtain ⟨before, p, hstands, hi⟩ := h
  exact hstands.spaced_instruction hi

end Item

namespace Program

/-- The stretches of items that stand apart do so in each section. -/
theorem pairwise_stretch {items : List Item} (h : items.Pairwise Item.Apart) :
    ((ofItems items).data.map Datum.stretch).Pairwise Span.EndsBefore ∧
      ((ofItems items).text.map Instruction.stretch).Pairwise Span.EndsBefore := by
  refine ⟨?_, ?_⟩
  · refine List.pairwise_map.2 (List.pairwise_filterMap.2 (h.imp fun happart e he e' he' => ?_))
    obtain rfl := Item.datum?_eq_some_iff.1 he
    obtain rfl := Item.datum?_eq_some_iff.1 he'
    exact happart e.stretch rfl e'.stretch rfl
  · refine List.pairwise_map.2 (List.pairwise_filterMap.2 (h.imp fun happart i hi i' hi' => ?_))
    obtain rfl := Item.instruction?_eq_some_iff.1 hi
    obtain rfl := Item.instruction?_eq_some_iff.1 hi'
    exact happart i.stretch rfl i'.stretch rfl

/-- The stretches of items that stand apart in a text do so across the sections. -/
theorem stretch_or_stretch {items : List Item} (h : items.Pairwise Item.Apart) {e : Datum}
    {i : Instruction} (he : Item.data e ∈ items) (hi : Item.instruction i ∈ items) :
    e.stretch.EndsBefore i.stretch ∨ i.stretch.EndsBefore e.stretch := by
  have hsymm : Std.Symm fun a b : Item => a.Apart b ∨ b.Apart a := ⟨fun _ _ => Or.symm⟩
  have heither : items.Pairwise fun a b => a.Apart b ∨ b.Apart a := h.imp Or.inl
  have happart : (Item.data e).Apart (.instruction i) ∨ (Item.instruction i).Apart (.data e) :=
    heither.forall he hi (by simp)
  exact happart.imp (fun h => h e.stretch rfl i.stretch rfl) fun h => h i.stretch rfl e.stretch rfl

end Program

namespace Session

/-- In every program that an attempt returns, the spans of an entry stand one behind the other with
something between them, the stretches of the entries of a section do so in their order, and no two
stretches of different sections touch. What a listing with ranges shows for an entry is the least span
with all spans of the entry in it. -/
theorem stretches_of_read (source : String) (attempts : Nat) (p : Program)
    (h : ((ofString source).after attempts).read.1 = .ok p) :
    (∀ e ∈ p.data, e.Spaced) ∧ (∀ i ∈ p.text, i.Spaced) ∧
      (p.data.map Datum.stretch).Pairwise Span.EndsBefore ∧
      (p.text.map Instruction.stretch).Pairwise Span.EndsBefore ∧
      (∀ e ∈ p.data, ∀ i ∈ p.text,
        e.stretch.EndsBefore i.stretch ∨ i.stretch.EndsBefore e.stretch) ∧
      ∀ color,
        (∀ e ∈ p.data, e.stretch.IsHull e.spans ∧
          Listing.ShowsBounds (Listing.dataLine ⟨color, true⟩ source.toList e) e.stretch) ∧
        ∀ i ∈ p.text, i.stretch.IsHull i.spans ∧
          Listing.ShowsBounds (Listing.instructionLine ⟨color, true⟩ source.toList i) i.stretch := by
  have hfits : p.Fits source.toList := (sound_after source.toList attempts).read.1 p h
  obtain ⟨items, rfl, harranged⟩ := exists_items_of_read h
  have hdata : ∀ e ∈ (Program.ofItems items).data, e.Spaced := fun e he =>
    (harranged.said _ (Program.mem_data_ofItems.1 he)).spaced_datum
  have htext : ∀ i ∈ (Program.ofItems items).text, i.Spaced := fun i hi =>
    (harranged.said _ (Program.mem_text_ofItems.1 hi)).spaced_instruction
  obtain ⟨hdataApart, htextApart⟩ := Program.pairwise_stretch harranged.apart
  refine ⟨hdata, htext, hdataApart, htextApart, fun e he i hi => ?_, fun color => ⟨?_, ?_⟩⟩
  · exact Program.stretch_or_stretch harranged.apart (Program.mem_data_ofItems.1 he)
      (Program.mem_text_ofItems.1 hi)
  · exact fun e he => ⟨(hdata e he).isHull, Listing.showsBounds_dataLine color (hfits.data e he)⟩
  · exact fun i hi =>
      ⟨(htext i hi).isHull, Listing.showsBounds_instructionLine color (hfits.text i hi)⟩

/-- A labelled instruction with an operand, and a data entry behind it. -/
theorem stretches_of_read_labelled :
    let source := "section .text\nl: nop a\nsection .data x: 'b'"
    let e : Datum := ⟨⟨37, 38⟩, ⟨40, 43⟩, 3, 20⟩
    let i : Instruction := ⟨⟨17, 20⟩, [⟨21, 22⟩], some ⟨14, 15⟩, 2, 8⟩
    ((ofString source).after 0).read.1 = .ok ⟨[e], [i]⟩ ∧ e.Spaced ∧ i.Spaced ∧
      ((⟨37, 43⟩ : Span).EndsBefore ⟨14, 22⟩ ∨ (⟨14, 22⟩ : Span).EndsBefore ⟨37, 43⟩) ∧
      (⟨14, 22⟩ : Span).IsHull [⟨14, 15⟩, ⟨17, 20⟩, ⟨21, 22⟩] ∧
      Listing.ShowsBounds (Listing.instructionLine ⟨false, true⟩ source.toList i) ⟨14, 22⟩ := by
  intro source e i
  have houtline : Outline.of none none source.toList =
      ⟨[.directive [' '] .text, .blank '\n',
        .instruction (some (['l'], [' '])) ['n', 'o', 'p'] [([' '], ['a'])] [], .blank '\n',
        .directive [' '] .data, .blank ' ', .datum ['x'] [' '] ['\'', 'b', '\''] []], none⟩ := by
    cbv
  have hread : ((ofString source).after 0).read.1 = .ok ⟨[e], [i]⟩ := by
    refine (fst_read none source.toList).trans ?_
    rw [houtline]
    rfl
  obtain ⟨hdata, htext, -, -, hsections, hlines⟩ := stretches_of_read source 0 ⟨[e], [i]⟩ hread
  obtain ⟨hhull, hshows⟩ := (hlines false).2 i List.mem_cons_self
  exact ⟨hread, hdata e List.mem_cons_self, htext i List.mem_cons_self,
    hsections e List.mem_cons_self i List.mem_cons_self, hhull, hshows⟩

end Session

end Mnemonic
