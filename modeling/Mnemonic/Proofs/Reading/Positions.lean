import Mathlib
import Mnemonic.Proofs.Reading.Offsets
import Mnemonic.Proofs.Reading.Standing

set_option autoImplicit false

/-!
# The places of entries

The line and the column that an entry is recorded with are told by its spans and the text alone. A data
entry is placed at the end of its value, wherever that is; an instruction is placed at the end of the
line that its name ends on, and a label further up does not matter.

Main statement: so it is in every program that an attempt returns (`placed_of_read`).
-/

namespace Mnemonic

open Text

/-- The data entry is placed at the end of its value. -/
def Datum.Placed (bytes : List UInt8) (e : Datum) : Prop :=
  ⟨e.line, e.column⟩ = Position.ofOffset bytes e.value.upper

/-- The instruction is placed at the end of the line that its name ends on. -/
def Instruction.Placed (bytes : List UInt8) (i : Instruction) : Prop :=
  ⟨i.line, i.column⟩ = Position.ofOffset bytes (lineEnd bytes i.name.upper)

/-- The item is placed where its text ends. -/
def Item.Placed (bytes : List UInt8) : Item → Prop
  | .section _ => True
  | .data e => e.Placed bytes
  | .instruction i => i.Placed bytes

namespace Phrase

/-- The rest of an instruction's line holds no line feed. -/
theorem lineFeed_notMem_operandText {operands : List (List Char × List Char)} {trailing : List Char}
    (hop : ∀ o ∈ operands, IsOperand o) (htrailing : ∀ c ∈ trailing, isBlank c = true ∧ c ≠ '\n') :
    '\n' ∉ operandText operands ++ trailing := by
  intro hmem
  rcases List.mem_append.1 hmem with hmem | hmem
  · obtain ⟨o, ho, hc⟩ := List.mem_flatMap.1 hmem
    obtain ⟨-, hgap, -, htoken⟩ := hop o ho
    rcases List.mem_append.1 hc with hc | hc
    · exact (hgap '\n' hc).2 rfl
    · exact absurd (htoken '\n' hc) (by decide)
  · exact (htrailing '\n' hmem).2 rfl

/-- The place behind what is passed is the place of its last offset in the text. -/
theorem StandsIn.behind_passed {t before : List Char} {p : Phrase} (h : p.StandsIn t before) :
    Position.behind (encode (before ++ p.passed)) =
      Position.ofOffset (encode t) (byteLength (before ++ p.passed)) := by
  obtain ⟨rest, rfl⟩ := h.isPrefix_passed
  rw [Position.ofOffset_encode]

/-- The line that the name of an instruction ends on ends behind what is passed. -/
theorem StandsIn.lineEnd_name {t before : List Char} {label : Option (List Char × List Char)}
    {name : List Char} {operands : List (List Char × List Char)} {trailing : List Char}
    (h : (instruction label name operands trailing).StandsIn t before) :
    lineEnd (encode t) (byteLength (before ++ labelText label ++ name)) =
      byteLength (before ++ (instruction label name operands trailing).passed) := by
  obtain ⟨rest, ht, ⟨-, -, -, hoperands, htrailing⟩, hbounded⟩ := h.exists_rest
  have hpassed : before ++ (instruction label name operands trailing).passed =
      before ++ labelText label ++ name ++ (operandText operands ++ trailing) := by
    simp only [passed, List.append_assoc]
  have hline : t = before ++ labelText label ++ name ++ (operandText operands ++ trailing) ++ rest := by
    have hunread : (instruction label name operands trailing).unread = [] := rfl
    rw [ht, text, hunread, List.append_nil, hpassed]
  rw [hpassed, hline]
  exact lineEnd_encode (lineFeed_notMem_operandText hoperands htrailing) hbounded

/-- What a phrase says is placed where it stands. -/
theorem StandsIn.placed {t before : List Char} {p : Phrase} {i : Item} (h : p.StandsIn t before)
    (hi : p.item? before = some i) : i.Placed (encode t) := by
  have hplace := h.behind_passed
  cases p with
  | blank c => simp [item?] at hi
  | comment remark => simp [item?] at hi
  | directive gap s =>
      obtain rfl : Item.section s = i := by simpa [item?] using hi
      trivial
  | datum symbol gap value dropped =>
      obtain rfl := Option.some.inj hi
      have hupper : (Span.behind (before ++ symbol ++ ':' :: gap) value).upper =
          byteLength (before ++ (datum symbol gap value dropped).passed) := by
        simp only [Span.behind, passed, byteLength_append, Nat.add_assoc]
      rw [Item.Placed, Datum.Placed, hupper]
      exact hplace
  | instruction label name operands trailing =>
      obtain rfl := Option.some.inj hi
      rw [Item.Placed, Instruction.Placed, Span.upper_behind, h.lineEnd_name]
      exact hplace

end Phrase

theorem Item.SaidIn.placed {t : List Char} {i : Item} (h : i.SaidIn t) : i.Placed (encode t) := by
  obtain ⟨before, p, hstands, hi⟩ := h
  exact hstands.placed hi

namespace Session

/-- In every program that an attempt returns, data entries are placed at the end of their values, and
instructions at the end of the line that their names end on. -/
theorem placed_of_read (source : String) (attempts : Nat) (p : Program)
    (h : ((ofString source).after attempts).read.1 = .ok p) :
    (∀ e ∈ p.data, e.Placed (encode source.toList)) ∧
      ∀ i ∈ p.text, i.Placed (encode source.toList) := by
  obtain ⟨items, rfl, harranged⟩ := exists_items_of_read h
  refine ⟨fun e he => ?_, fun i hi => ?_⟩
  · exact (harranged.said _ (Program.mem_data_ofItems.1 he)).placed
  · exact (harranged.said _ (Program.mem_text_ofItems.1 hi)).placed

/-- A value over two lines, and a name on the line below its label with an operand that ends the text. -/
theorem placed_of_read_overLines :
    let source := "section .data\ns: 'a\nb'\nsection .text\nl:\n nop x"
    let p : Program := ⟨[⟨⟨14, 15⟩, ⟨17, 22⟩, 3, 2⟩], [⟨⟨41, 44⟩, [⟨45, 46⟩], some ⟨37, 38⟩, 6, 6⟩]⟩
    ((ofString source).after 0).read.1 = .ok p ∧
      (⟨3, 2⟩ : Position) = .ofOffset (encode source.toList) 22 ∧
      (⟨6, 6⟩ : Position) = .ofOffset (encode source.toList) (lineEnd (encode source.toList) 44) := by
  intro source p
  have houtline : Outline.of none none source.toList =
      ⟨[.directive [' '] .data, .blank '\n', .datum ['s'] [' '] ['\'', 'a', '\n', 'b', '\''] ['\n'],
        .directive [' '] .text, .blank '\n',
        .instruction (some (['l'], ['\n', ' '])) ['n', 'o', 'p'] [([' '], ['x'])] []], none⟩ := by
    cbv
  have hread : ((ofString source).after 0).read.1 = .ok p := by
    refine (fst_read none source.toList).trans ?_
    rw [houtline]
    rfl
  obtain ⟨hdata, htext⟩ := placed_of_read source 0 p hread
  exact ⟨hread, hdata _ List.mem_cons_self, htext _ List.mem_cons_self⟩

end Session

end Mnemonic
