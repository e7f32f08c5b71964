import Mathlib.Data.List.Infix
import Mnemonic.Proofs.Reading.Extents

set_option autoImplicit false

/-!
# The parts of a text

The phrases of a text are cut into parts, and each character of a part has the same role in the text: it
belongs to a span of an entry, or it is the colon behind a symbol, or it separates, and so on. The parts
are kept with the text in front of them. They tile the text: each starts where the one in front of it
ends, and together they fill it.

Main statements: in a tiling each character belongs to a part (`Tiles.exists_holds`), and all parts it
belongs to give it the same role (`Tiles.role_eq`); and the parts of the phrases of a text tile it
(`tiles_partsOf`).
-/

namespace Mnemonic

open Text

/-! ## Starts of a text -/

namespace Text

theorem byteLength_le_of_isPrefix {a b : List Char} (h : a <+: b) :
    byteLength a ≤ byteLength b := by
  obtain ⟨m, rfl⟩ := h
  rw [byteLength_append]
  exact Nat.le_add_right _ _

theorem isPrefix_of_byteLength_le {a b t : List Char} (ha : a <+: t) (hb : b <+: t)
    (h : byteLength a ≤ byteLength b) : a <+: b := by
  obtain ⟨a', rfl⟩ := ha
  obtain ⟨b', hb⟩ := hb
  obtain ⟨w, rfl⟩ := prefix_of_byteLength_le hb.symm h
  exact List.prefix_append a w

theorem eq_of_byteLength_eq {a b t : List Char} (ha : a <+: t) (hb : b <+: t)
    (h : byteLength a = byteLength b) : a = b :=
  (isPrefix_of_byteLength_le ha hb h.le).eq_of_length_le
    (isPrefix_of_byteLength_le hb ha h.ge).length_le

/-- What reaches further into a text than up to a character has the character in it. -/
theorem exists_eq_append_cons {a before after : List Char} {c : Char}
    (ha : a <+: before ++ c :: after) (h : byteLength before < byteLength a) :
    ∃ m, a = before ++ c :: m := by
  obtain ⟨m, rfl⟩ := isPrefix_of_byteLength_le (List.prefix_append before (c :: after)) ha h.le
  rw [List.prefix_append_right_inj] at ha
  cases m with
  | nil => simp at h
  | cons d m =>
      obtain ⟨rfl, -⟩ := List.cons_prefix_cons.1 ha
      exact ⟨m, rfl⟩

end Text

/-! ## Parts -/

/-- What a character of a text is there for. -/
inductive Role where
  /-- it belongs to a span of an entry -/
  | span
  /-- it is the colon behind a label or a symbol -/
  | colon
  /-- it belongs to a word of a section directive -/
  | directive
  /-- it belongs to a comment -/
  | remark
  /-- it is a slash that starts no comment -/
  | slash
  /-- it is dropped behind a closing quote -/
  | dropped
  /-- it parts words, operands or statements -/
  | separator
  deriving DecidableEq, Repr

/-- A part of a text, behind the text in front of it. -/
structure Part where
  front : List Char
  role : Role
  text : List Char

/-- The character that stands behind a text belongs to the span. -/
def Span.Covers (s : Span) (before : List Char) (c : Char) : Prop :=
  s.lower ≤ byteLength before ∧ byteLength before + c.utf8Size ≤ s.upper

instance (s : Span) (before : List Char) (c : Char) : Decidable (s.Covers before c) :=
  inferInstanceAs (Decidable (_ ∧ _))

namespace Part

/-- The span of a part. -/
def span (x : Part) : Span := .behind x.front x.text

/-- The character that stands behind a text belongs to the part. -/
def Holds (x : Part) (before : List Char) (c : Char) : Prop :=
  ∃ y z, x.text = y ++ c :: z ∧ before = x.front ++ y

theorem Holds.covers {x : Part} {before : List Char} {c : Char} (h : x.Holds before c) :
    x.span.Covers before c := by
  obtain ⟨y, z, htext, rfl⟩ := h
  simp only [Span.Covers, span, Span.behind, htext, byteLength_append, byteLength_cons]
  omega

theorem Holds.mem {x : Part} {before : List Char} {c : Char} (h : x.Holds before c) : c ∈ x.text := by
  obtain ⟨y, z, htext, -⟩ := h
  simp [htext]

/-- A part of one character holds that. -/
theorem holds_singleton {before front : List Char} {c d : Char} {r : Role} :
    Holds ⟨front, r, [d]⟩ before c ↔ d = c ∧ before = front := by
  constructor
  · rintro ⟨y, z, htext, rfl⟩
    cases y with
    | nil =>
        obtain ⟨hd, -⟩ := List.cons.inj htext
        exact ⟨hd, List.append_nil front⟩
    | cons e y => simp at htext
  · rintro ⟨rfl, rfl⟩
    exact ⟨[], [], rfl, (List.append_nil before).symm⟩

/-- In the text that it is a part of, a part holds the characters that its span covers. -/
theorem holds_of_covers {x : Part} {t before after : List Char} {c : Char}
    (hx : x.front ++ x.text <+: t) (ht : t = before ++ c :: after) (h : x.span.Covers before c) :
    x.Holds before c := by
  obtain ⟨hlower, hupper⟩ := h
  have hfront : x.front <+: t := (List.prefix_append _ _).trans hx
  have hbefore : before <+: t := ht ▸ List.prefix_append before (c :: after)
  have hnext : before ++ [c] <+: t := ⟨after, by rw [ht, List.append_assoc, List.singleton_append]⟩
  obtain ⟨y, rfl⟩ := isPrefix_of_byteLength_le hfront hbefore hlower
  have hwithin : x.front ++ y ++ [c] <+: x.front ++ x.text := by
    refine isPrefix_of_byteLength_le hnext hx ?_
    rw [byteLength_append (x.front ++ y), byteLength_append x.front x.text]
    exact hupper
  rw [List.append_assoc, List.prefix_append_right_inj] at hwithin
  obtain ⟨z, hz⟩ := hwithin
  exact ⟨y, z, by simpa using hz.symm, rfl⟩

/-! ## Tilings -/

/-- The parts fill a text from one place to another, each where the one in front of it ends. -/
def Tiles : List Char → List Part → List Char → Prop
  | lo, [], hi => lo = hi
  | lo, x :: xs, hi => x.front = lo ∧ Tiles (lo ++ x.text) xs hi

/-- What belongs to a part belongs to no part behind it. -/
theorem not_holds_of_isPrefix {x x' : Part} {before : List Char} {c : Char}
    (h : x.front ++ x.text <+: x'.front) (hholds : x.Holds before c) : ¬x'.Holds before c := by
  obtain ⟨y, z, htext, hbefore⟩ := hholds
  rintro ⟨y', z', -, hbefore'⟩
  have hlength := h.length_le
  have hsame := congrArg List.length (hbefore.symm.trans hbefore')
  simp only [htext, List.length_append, List.length_cons] at hlength hsame
  omega

namespace Tiles

theorem append {lo mid hi : List Char} {xs ys : List Part} (hxs : Tiles lo xs mid)
    (hys : Tiles mid ys hi) : Tiles lo (xs ++ ys) hi := by
  induction xs generalizing lo with
  | nil =>
      obtain rfl : lo = mid := hxs
      exact hys
  | cons x xs ih => exact ⟨hxs.1, ih hxs.2⟩

theorem isPrefix {lo hi : List Char} {xs : List Part} (h : Tiles lo xs hi) : lo <+: hi := by
  induction xs generalizing lo with
  | nil =>
      obtain rfl : lo = hi := h
      exact List.prefix_rfl
  | cons x xs ih => exact (List.prefix_append lo x.text).trans (ih h.2)

/-- Each part stands in the text that is filled. -/
theorem isPrefix_of_mem {lo hi : List Char} {xs : List Part} (h : Tiles lo xs hi) :
    ∀ x ∈ xs, lo <+: x.front ∧ x.front ++ x.text <+: hi := by
  induction xs generalizing lo with
  | nil => simp
  | cons x xs ih =>
      obtain ⟨rfl, hxs⟩ := h
      intro y hy
      rcases List.mem_cons.1 hy with rfl | hy
      · exact ⟨List.prefix_rfl, hxs.isPrefix⟩
      · obtain ⟨hlo, hhi⟩ := ih hxs y hy
        exact ⟨(List.prefix_append x.front x.text).trans hlo, hhi⟩

/-- Each character of a text that parts fill belongs to one of them. -/
theorem exists_holds {lo hi before after : List Char} {c : Char} {xs : List Part}
    (h : Tiles lo xs hi) (hlo : lo <+: before) (hhi : hi = before ++ c :: after) :
    ∃ x ∈ xs, x.Holds before c := by
  induction xs generalizing lo with
  | nil =>
      obtain rfl : lo = hi := h
      have hlength := hlo.length_le
      rw [hhi, List.length_append, List.length_cons] at hlength
      omega
  | cons x xs ih =>
      obtain ⟨rfl, hxs⟩ := h
      obtain ⟨y, rfl⟩ := hlo
      have hfront := hxs.isPrefix
      rw [hhi, List.append_assoc, List.prefix_append_right_inj] at hfront
      rcases List.prefix_or_prefix_of_prefix hfront (List.prefix_append y (c :: after)) with htext | hy
      · obtain ⟨x', hx', hholds⟩ := ih hxs ((List.prefix_append_right_inj x.front).2 htext)
        exact ⟨x', List.mem_cons_of_mem x hx', hholds⟩
      · obtain ⟨m, hm⟩ := hy
        rw [← hm, List.prefix_append_right_inj] at hfront
        cases m with
        | nil =>
            rw [List.append_nil] at hm
            obtain ⟨x', hx', hholds⟩ := ih hxs (hm ▸ List.prefix_rfl)
            exact ⟨x', List.mem_cons_of_mem x hx', hholds⟩
        | cons d m =>
            obtain ⟨rfl, -⟩ := List.cons_prefix_cons.1 hfront
            exact ⟨x, List.mem_cons_self, y, m, hm.symm, rfl⟩

/-- No character of a text that parts fill has two roles. -/
theorem role_eq {lo hi before : List Char} {c : Char} {xs : List Part} (h : Tiles lo xs hi)
    {x x' : Part} (hx : x ∈ xs) (hx' : x' ∈ xs) (hholds : x.Holds before c)
    (hholds' : x'.Holds before c) : x.role = x'.role := by
  induction xs generalizing lo with
  | nil => simp at hx
  | cons y ys ih =>
      obtain ⟨rfl, hys⟩ := h
      rcases List.mem_cons.1 hx with rfl | hlater <;> rcases List.mem_cons.1 hx' with rfl | hlater'
      · rfl
      · exact absurd hholds' (not_holds_of_isPrefix (hys.isPrefix_of_mem x' hlater').1 hholds)
      · exact absurd hholds (not_holds_of_isPrefix (hys.isPrefix_of_mem x hlater).1 hholds')
      · exact ih hys hlater hlater'

end Tiles

end Part

/-! ## The parts of phrases -/

namespace Phrase

/-- The parts of a label with what is behind it. -/
def labelParts (before : List Char) : Option (List Char × List Char) → List Part
  | none => []
  | some (label, gap) =>
      [⟨before, .span, label⟩, ⟨before ++ label, .colon, [':']⟩, ⟨before ++ label ++ [':'], .separator, gap⟩]

/-- The parts of an instruction's line behind its name: operands, each behind its blanks, and the blanks
at the end. -/
def lineParts (before : List Char) (operands : List (List Char × List Char))
    (trailing : List Char) : List Part :=
  match operands with
  | [] => [⟨before, .separator, trailing⟩]
  | (gap, token) :: operands =>
      ⟨before, .separator, gap⟩ :: ⟨before ++ gap, .span, token⟩ ::
        lineParts (before ++ gap ++ token) operands trailing

/-- The parts of a phrase that stands behind some text. -/
def parts (before : List Char) : Phrase → List Part
  | blank c => [⟨before, if c = '/' then .slash else .separator, [c]⟩]
  | comment remark => [⟨before, .remark, remark⟩]
  | directive gap s =>
      [⟨before, .directive, sectionKeyword⟩, ⟨before ++ sectionKeyword, .separator, gap⟩,
        ⟨before ++ sectionKeyword ++ gap, .directive, s.name.toList⟩]
  | datum symbol gap value dropped =>
      [⟨before, .span, symbol⟩, ⟨before ++ symbol, .colon, [':']⟩,
        ⟨before ++ symbol ++ [':'], .separator, gap⟩, ⟨before ++ symbol ++ ':' :: gap, .span, value⟩,
        ⟨before ++ symbol ++ ':' :: gap ++ value, .dropped, dropped⟩]
  | instruction label name operands trailing =>
      labelParts before label ++ ⟨before ++ labelText label, .span, name⟩ ::
        lineParts (before ++ labelText label ++ name) operands trailing

/-- The parts of phrases that stand one behind the other, behind some text. -/
def partsOf (before : List Char) (phrases : List Phrase) : List Part :=
  (placed before phrases).flatMap fun q => q.2.parts q.1

theorem tiles_lineParts (before : List Char) (operands : List (List Char × List Char))
    (trailing : List Char) : Part.Tiles before (lineParts before operands trailing)
      (before ++ operandText operands ++ trailing) := by
  induction operands generalizing before with
  | nil => simp [lineParts, operandText, Part.Tiles]
  | cons o operands ih =>
      obtain ⟨gap, token⟩ := o
      have hlater := ih (before ++ gap ++ token)
      have htext : before ++ operandText ((gap, token) :: operands) =
          before ++ gap ++ token ++ operandText operands := by simp [operandText]
      rw [htext]
      exact ⟨rfl, rfl, hlater⟩

theorem tiles_labelParts (before : List Char) (label : Option (List Char × List Char)) :
    Part.Tiles before (labelParts before label) (before ++ labelText label) := by
  cases label with
  | none => exact (List.append_nil before).symm
  | some l => simp [labelParts, labelText, Part.Tiles]

/-- The parts of a phrase tile its text. -/
theorem tiles_parts (before : List Char) (p : Phrase) :
    Part.Tiles before (p.parts before) (before ++ p.text) := by
  cases p with
  | blank c => simp [parts, text, passed, unread, Part.Tiles]
  | comment remark => simp [parts, text, passed, unread, Part.Tiles]
  | directive gap s => simp [parts, text, passed, unread, Part.Tiles]
  | datum symbol gap value dropped => simp [parts, text, passed, unread, Part.Tiles]
  | instruction label name operands trailing =>
      have hline := tiles_lineParts (before ++ labelText label ++ name) operands trailing
      have htext : before ++ (instruction label name operands trailing).text =
          before ++ labelText label ++ name ++ operandText operands ++ trailing := by
        simp [text, passed, unread]
      rw [htext]
      exact (tiles_labelParts before label).append ⟨rfl, hline⟩

/-- The parts of the phrases of a text tile it. -/
theorem tiles_partsOf (before : List Char) (phrases : List Phrase) :
    Part.Tiles before (partsOf before phrases) (before ++ phrases.flatMap text) := by
  induction phrases generalizing before with
  | nil => exact (List.append_nil before).symm
  | cons p ps ih =>
      have hlater := ih (before ++ p.text)
      rw [List.append_assoc] at hlater
      exact (tiles_parts before p).append hlater

end Phrase

/-! ## Parts and items -/

namespace Item

/-- The spans of an item, in the order of the text. -/
def spans : Item → List Span
  | .section _ => []
  | .data e => e.spans
  | .instruction i => i.spans

/-- The spans of an item that a colon follows. -/
def symbols : Item → List Span
  | .section _ => []
  | .data e => [e.symbol]
  | .instruction i => i.label.toList

end Item

namespace Phrase

/-- On an instruction's line blanks separate, and the characters of operands belong to spans. -/
theorem role_of_mem_lineParts {before trailing : List Char} {operands : List (List Char × List Char)}
    (hop : ∀ o ∈ operands, IsOperand o) (htrailing : ∀ c ∈ trailing, isBlank c = true ∧ c ≠ '\n') :
    ∀ x ∈ lineParts before operands trailing, ∀ c ∈ x.text,
      (x.role = .separator ∧ isBlank c = true) ∨ (x.role = .span ∧ isBlank c = false) := by
  induction operands generalizing before with
  | nil =>
      intro x hx c hc
      obtain rfl := List.mem_singleton.1 hx
      exact Or.inl ⟨rfl, (htrailing c hc).1⟩
  | cons o operands ih =>
      obtain ⟨gap, token⟩ := o
      obtain ⟨-, hgap, -, htoken⟩ := hop (gap, token) List.mem_cons_self
      intro x hx c hc
      rcases List.mem_cons.1 hx with rfl | hx
      · exact Or.inl ⟨rfl, (hgap c hc).1⟩
      · rcases List.mem_cons.1 hx with rfl | hx
        · exact Or.inr ⟨rfl, isBlank_of_isOperandChar (htoken c hc)⟩
        · exact ih (fun o ho => hop o (List.mem_cons_of_mem _ ho)) x hx c hc

theorem mem_operandSpans_iff (trailing : List Char) {before : List Char}
    {operands : List (List Char × List Char)} {s : Span} : s ∈ operandSpans before operands ↔
      ∃ x ∈ lineParts before operands trailing, x.role = .span ∧ x.span = s := by
  induction operands generalizing before with
  | nil => simp [operandSpans, lineParts]
  | cons o operands ih =>
      obtain ⟨gap, token⟩ := o
      simp [operandSpans, lineParts, ih, Part.span, eq_comm (a := s)]

theorem role_ne_colon_of_mem_lineParts {before trailing : List Char}
    {operands : List (List Char × List Char)} :
    ∀ x ∈ lineParts before operands trailing, x.role ≠ .colon := by
  induction operands generalizing before with
  | nil => simp [lineParts]
  | cons o operands ih =>
      obtain ⟨gap, token⟩ := o
      simpa [lineParts] using ih

/-- The spans of what a phrase says are those of its parts. -/
theorem mem_spans_iff {before : List Char} {p : Phrase} {s : Span} :
    (∃ i ∈ p.item? before, s ∈ i.spans) ↔ ∃ x ∈ p.parts before, x.role = .span ∧ x.span = s := by
  cases p with
  | blank c => by_cases hc : c = '/' <;> simp [item?, parts, hc]
  | comment remark => simp [item?, parts]
  | directive gap s' => simp [item?, parts, Item.spans]
  | datum symbol gap value dropped =>
      simp [item?, parts, Item.spans, Datum.spans, Part.span, eq_comm (a := s)]
  | instruction label name operands trailing =>
      cases label <;> simp [item?, parts, labelParts, Item.spans, Instruction.spans,
        mem_operandSpans_iff trailing, Part.span, eq_comm (a := s)]

/-- A colon stands behind each symbol of what a phrase says, and nowhere else. -/
theorem mem_symbols_iff {before : List Char} {p : Phrase} {n : Nat} :
    (∃ i ∈ p.item? before, ∃ s ∈ i.symbols, s.upper = n) ↔
      ∃ x ∈ p.parts before, x.role = .colon ∧ byteLength x.front = n := by
  cases p with
  | blank c => by_cases hc : c = '/' <;> simp [item?, parts, hc]
  | comment remark => simp [item?, parts]
  | directive gap s => simp [item?, parts, Item.symbols]
  | datum symbol gap value dropped => simp [item?, parts, Item.symbols, Span.behind]
  | instruction label name operands trailing =>
      cases label <;> simp [item?, parts, labelParts, Item.symbols, Span.behind] <;>
        exact fun x hx hcolon => absurd hcolon (role_ne_colon_of_mem_lineParts x hx)

theorem text_of_role_eq_colon {before : List Char} {p : Phrase} :
    ∀ x ∈ p.parts before, x.role = .colon → x.text = [':'] := by
  cases p with
  | blank c => by_cases hc : c = '/' <;> simp [parts, hc]
  | instruction label name operands trailing =>
      cases label <;> simp [parts, labelParts] <;>
        exact fun x hx hcolon => absurd hcolon (role_ne_colon_of_mem_lineParts x hx)
  | _ => simp [parts]

end Phrase

end Mnemonic
