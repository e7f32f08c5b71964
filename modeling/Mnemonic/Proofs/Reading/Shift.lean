import Mnemonic.Proofs.Reading.Outline

set_option autoImplicit false

/-!
# Further down the text

What stands behind complete lines stands further on by their bytes and further down by their line feeds;
its columns stay as they are. So what phrases say behind such lines is what they say at the start of a
text, shifted.

Main statements: the items of phrases behind complete lines are the shifted items of the phrases
(`items_append_eq_map_shift`), and an error behind complete lines is the shifted error
(`error_append_eq_shift`).
-/

namespace Mnemonic

open Text

/-- The text is made of complete lines, one at least. -/
def EndsLine (t : List Char) : Prop := t.getLast? = some '\n'

namespace EndsLine

theorem ne_nil {t : List Char} (h : EndsLine t) : t ≠ [] := by
  rintro rfl
  simp [EndsLine] at h

theorem of_append {a b : List Char} (h : EndsLine (a ++ b)) (hb : b ≠ []) : EndsLine b := by
  rwa [EndsLine, List.getLast?_append_of_ne_nil a hb] at h

theorem append {a b : List Char} (h : EndsLine b) : EndsLine (a ++ b) := by
  rw [EndsLine, List.getLast?_append_of_ne_nil a h.ne_nil]
  exact h

theorem eq_append {t : List Char} (h : EndsLine t) : ∃ a, t = a ++ ['\n'] :=
  List.getLast?_eq_some_iff.1 h

/-- What a run leaves of complete lines is not empty when the run cannot pass a line feed. -/
theorem dropWhile {p : Char → Bool} {t : List Char} (h : EndsLine t) (hp : p '\n' = false) :
    EndsLine (t.dropWhile p) := by
  have hsplit : EndsLine (t.takeWhile p ++ t.dropWhile p) := by
    rwa [List.takeWhile_append_dropWhile]
  apply hsplit.of_append
  intro hnil
  obtain ⟨a, ha⟩ := h.eq_append
  have hlf : p '\n' = true := List.dropWhile_eq_nil_iff.1 hnil '\n' (by rw [ha]; simp)
  rw [hp] at hlf
  exact Bool.false_ne_true hlf

theorem of_dropWhile_eq_cons {p : Char → Bool} {t cs : List Char} {c : Char} (h : EndsLine t)
    (hdrop : t.dropWhile p = c :: cs) : EndsLine (c :: cs) := by
  rw [← List.takeWhile_append_dropWhile (p := p) (l := t), hdrop] at h
  exact h.of_append (List.cons_ne_nil c cs)

end EndsLine

/-! ## Shifted programs and errors -/

/-- The span so many bytes further on. -/
def Span.shift (bytes : Nat) (s : Span) : Span := ⟨s.lower + bytes, s.upper + bytes⟩

/-- The data entry so many bytes further on and so many lines further down. -/
def Datum.shift (bytes lines : Nat) (e : Datum) : Datum :=
  ⟨e.symbol.shift bytes, e.value.shift bytes, e.line + lines, e.column⟩

/-- The instruction so many bytes further on and so many lines further down. -/
def Instruction.shift (bytes lines : Nat) (i : Instruction) : Instruction :=
  ⟨i.name.shift bytes, i.operands.map (Span.shift bytes), i.label.map (Span.shift bytes),
    i.line + lines, i.column⟩

/-- The program with all of its entries further on. -/
def Program.shift (bytes lines : Nat) (p : Program) : Program :=
  ⟨p.data.map (Datum.shift bytes lines), p.text.map (Instruction.shift bytes lines)⟩

/-- The item further on. -/
def Item.shift (bytes lines : Nat) : Item → Item
  | .section s => .section s
  | .data e => .data (e.shift bytes lines)
  | .instruction i => .instruction (i.shift bytes lines)

/-- The same error so many lines further down. -/
def SyntaxError.shift (lines : Nat) (e : SyntaxError) : SyntaxError :=
  ⟨e.fault, ⟨e.position.line + lines, e.position.column⟩⟩

theorem Span.behind_append_eq_shift (lines before word : List Char) :
    behind (lines ++ before) word = (behind before word).shift (byteLength lines) := by
  simp only [behind, shift, byteLength_append, mk.injEq]
  omega

theorem Program.ofItems_map_shift (bytes lines : Nat) (items : List Item) :
    ofItems (items.map (Item.shift bytes lines)) = (ofItems items).shift bytes lines := by
  have hdatum : ∀ i : Item, (i.shift bytes lines).datum? = i.datum?.map (Datum.shift bytes lines) := by
    intro i
    cases i <;> rfl
  have hinstruction : ∀ i : Item, (i.shift bytes lines).instruction? =
      i.instruction?.map (Instruction.shift bytes lines) := by
    intro i
    cases i <;> rfl
  simp only [ofItems, shift, List.filterMap_map, List.map_filterMap, Function.comp_def, hdatum,
    hinstruction]

variable {lines : List Char}

/-- Behind complete lines the columns start afresh. -/
theorem Position.behind_encode_append (h : EndsLine lines) (bytes : List UInt8) :
    behind (encode lines ++ bytes) =
      ⟨(behind bytes).line + lines.count '\n', (behind bytes).column⟩ := by
  obtain ⟨a, rfl⟩ := h.eq_append
  have hbytes : encode (a ++ ['\n']) ++ bytes = encode a ++ Cursor.lineFeed :: bytes := by
    rw [encode_append, List.append_assoc]
    rfl
  have hcount : (encode a ++ [Cursor.lineFeed]).count Cursor.lineFeed = (a ++ ['\n']).count '\n' := by
    rw [← count_encode (a ++ ['\n']), encode_append]
    rfl
  rw [hbytes, behind_lineFeed_append, hcount, Nat.add_comm]

namespace Phrase

theorem operandSpans_append_eq_shift (lines before : List Char)
    (operands : List (List Char × List Char)) :
    operandSpans (lines ++ before) operands =
      (operandSpans before operands).map (Span.shift (byteLength lines)) := by
  induction operands generalizing before with
  | nil => rfl
  | cons o operands ih =>
      obtain ⟨gap, token⟩ := o
      rw [operandSpans, operandSpans, List.map_cons, ← Span.behind_append_eq_shift, ← ih]
      simp only [List.append_assoc]

/-- What a phrase says behind complete lines. -/
theorem item?_append_eq_shift (h : EndsLine lines) (before : List Char) (p : Phrase) :
    p.item? (lines ++ before) =
      (p.item? before).map (Item.shift (byteLength lines) (lines.count '\n')) := by
  have hplace : Position.behind (encode (lines ++ (before ++ p.passed))) =
      ⟨(Position.behind (encode (before ++ p.passed))).line + lines.count '\n',
        (Position.behind (encode (before ++ p.passed))).column⟩ := by
    rw [encode_append, Position.behind_encode_append h]
  cases p with
  | blank c => rfl
  | comment remark => rfl
  | directive gap s => rfl
  | datum symbol gap value dropped =>
      simp only [item?, hplace, Option.map_some, Item.shift, Datum.shift,
        ← Span.behind_append_eq_shift, List.append_assoc]
  | instruction label name operands trailing =>
      simp only [item?, hplace, Option.map_some, Item.shift, Instruction.shift,
        ← Span.behind_append_eq_shift, ← operandSpans_append_eq_shift, List.append_assoc,
        Option.map_map, Function.comp_def]

theorem items_append_eq_map_shift (h : EndsLine lines) (before : List Char) (ps : List Phrase) :
    items (lines ++ before) ps =
      (items before ps).map (Item.shift (byteLength lines) (lines.count '\n')) := by
  induction ps generalizing before with
  | nil => rfl
  | cons p ps ih =>
      rw [items, items, List.map_append, item?_append_eq_shift h, List.append_assoc, ih]
      cases p.item? before <;> rfl

/-- What a failure is behind complete lines. -/
theorem Failure.error_append_eq_shift (h : EndsLine lines) (before : List Char) (f : Failure) :
    f.error (lines ++ before) = (f.error before).shift (lines.count '\n') := by
  rw [error, encode_append, List.append_assoc, Position.behind_encode_append h]
  rfl

end Phrase

end Mnemonic
