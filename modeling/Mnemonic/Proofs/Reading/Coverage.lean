import Mathlib
import Mnemonic.Proofs.Reading.Parts
import Mnemonic.Proofs.Reading.Positions

set_option autoImplicit false

/-!
# Nothing of a text is lost

Each character of a text that can be read is accounted for by the program and the statement positions of
the text: it belongs to a span, or it is the colon behind a symbol, or it belongs to the keyword or the
name of a section directive, or to a comment, or it is a slash that starts none, or it is the one
character that is dropped behind a closing quote, or it is a separator. These roles are told by where the
character stands, and no character has two of them.

Main statement: each character of a text that is read plays exactly one role (`plays_of_read`).
-/

namespace Mnemonic

open Text

/-! ## The roles of characters -/

/-- The phrase stands at a statement position of the text. -/
def Phrase.IsAt (t before : List Char) (p : Phrase) : Prop :=
  (before, p) ∈ placed [] (Outline.of none none t).phrases

/-- Statements are looked for behind this part of the text. -/
def IsPosition (t before : List Char) : Prop := ∃ p, Phrase.IsAt t before p

namespace Program

/-- The spans of all entries. -/
def spans (p : Program) : List Span := p.data.flatMap Datum.spans ++ p.text.flatMap Instruction.spans

/-- The spans of all symbols and labels. -/
def symbols (p : Program) : List Span := p.data.map Datum.symbol ++ p.text.filterMap Instruction.label

end Program

/-- The character that stands behind a part of a text is marked for a role by its place: by the spans of
the program that was read, or by the statement positions of the text. -/
def Marked (t : List Char) (p : Program) (before : List Char) (c : Char) : Role → Prop
  -- It lies in one span of one entry, and in no other.
  | .span => p.spans.countP (·.Covers before c) = 1
  | .colon => c = ':' ∧ ∃ s ∈ p.symbols, s.upper = byteLength before
  | .directive => ∃ front gap s, Phrase.IsAt t front (.directive gap s) ∧
      ((Span.behind front sectionKeyword).Covers before c ∨
        (Span.behind (front ++ sectionKeyword ++ gap) s.name.toList).Covers before c)
  -- A comment starts at a statement position, and no line feed comes before the character is over.
  | .remark => ∃ front line, IsPosition t front ∧ before ++ [c] = front ++ line ∧ '\n' ∉ line ∧
      ∃ d ∈ line.head?, Phrase.startsComment front.getLast? d = true
  | .slash => c = '/' ∧ IsPosition t before ∧ before.getLast? ≠ some '/'
  | .dropped => ∃ e ∈ p.data, e.value.upper = byteLength before ∧
      ∃ value, e.value.slice? t = some value ∧ Phrase.IsQuoted value
  -- On the line of an instruction, behind its name, all white space separates.
  | .separator => isBlank c = true ∧ ∃ i ∈ p.text, i.name.upper ≤ byteLength before ∧
      byteLength before < lineEnd (encode t) i.name.upper

/-- The character that stands behind a part of a text plays a role: it is marked by its place, or it is a
space, a line feed or a carriage return anywhere else. -/
def Plays (t : List Char) (p : Program) (before : List Char) (c : Char) (r : Role) : Prop :=
  Marked t p before c r ∨
    (r = .separator ∧ isSeparator c = true ∧ ∀ other, ¬Marked t p before c other)

/-! ## The spans of all entries -/

namespace Program

theorem mem_spans_ofItems {items : List Item} {s : Span} :
    s ∈ (ofItems items).spans ↔ ∃ i ∈ items, s ∈ i.spans := by
  simp only [spans, List.mem_append, List.mem_flatMap, mem_data_ofItems, mem_text_ofItems]
  constructor
  · rintro (⟨e, he, hs⟩ | ⟨i, hi, hs⟩)
    · exact ⟨.data e, he, hs⟩
    · exact ⟨.instruction i, hi, hs⟩
  · rintro ⟨_ | e | i, hi, hs⟩
    · simp [Item.spans] at hs
    · exact Or.inl ⟨e, hi, hs⟩
    · exact Or.inr ⟨i, hi, hs⟩

theorem mem_symbols_ofItems {items : List Item} {s : Span} :
    s ∈ (ofItems items).symbols ↔ ∃ i ∈ items, s ∈ i.symbols := by
  simp only [symbols, List.mem_append, List.mem_map, List.mem_filterMap, mem_data_ofItems,
    mem_text_ofItems]
  constructor
  · rintro (⟨e, he, rfl⟩ | ⟨i, hi, hs⟩)
    · exact ⟨.data e, he, List.mem_singleton.2 rfl⟩
    · exact ⟨.instruction i, hi, Option.mem_toList.2 hs⟩
  · rintro ⟨_ | e | i, hi, hs⟩
    · simp [Item.symbols] at hs
    · exact Or.inl ⟨e, hi, (List.mem_singleton.1 hs).symm⟩
    · exact Or.inr ⟨i, hi, Option.mem_toList.1 hs⟩

end Program

namespace Span

/-- One of the spans ends before the other one starts. -/
def Disjoint (s r : Span) : Prop := s.EndsBefore r ∨ r.EndsBefore s

theorem EndsBefore.of_encloses {s r a b : Span} (h : s.EndsBefore r) (hs : s.Encloses a)
    (hr : r.Encloses b) : a.EndsBefore b :=
  (hs.2.trans_lt h).trans_le hr.1

/-- Of disjoint spans one at most covers a character. -/
theorem Disjoint.not_covers {s r : Span} (h : s.Disjoint r) {before : List Char} {c : Char}
    (hs : s.Covers before c) : ¬r.Covers before c := by
  intro hr
  have hpos := c.utf8Size_pos
  unfold Disjoint EndsBefore at h
  obtain ⟨hs, hs'⟩ := hs
  obtain ⟨hr, hr'⟩ := hr
  omega

/-- Where the spans of a list are disjoint, a character that one of them covers is covered once. -/
theorem countP_covers_eq_one {spans : List Span} (h : spans.Pairwise Disjoint) {before : List Char}
    {c : Char} {s : Span} (hs : s ∈ spans) (hcovers : s.Covers before c) :
    spans.countP (·.Covers before c) = 1 := by
  obtain ⟨earlier, later, rfl⟩ := List.append_of_mem hs
  obtain ⟨-, hlater, hearlier⟩ := List.pairwise_append.1 h
  have hfront : earlier.countP (·.Covers before c) = 0 := by
    refine List.countP_eq_zero.2 fun r hr => ?_
    have hdisjoint := (hearlier r hr s List.mem_cons_self).symm
    simpa using Disjoint.not_covers hdisjoint hcovers
  have hback : later.countP (·.Covers before c) = 0 := by
    refine List.countP_eq_zero.2 fun r hr => ?_
    simpa using ((List.pairwise_cons.1 hlater).1 r hr).not_covers hcovers
  rw [List.countP_append, List.countP_cons, hfront, hback]
  simp [hcovers]

end Span

/-- The spans of all entries that are said in a text are disjoint. -/
theorem Session.Arranged.pairwise_spans {t : List Char} {items : List Item}
    (h : Session.Arranged t items) : (Program.ofItems items).spans.Pairwise Span.Disjoint := by
  have hdata : ∀ e ∈ (Program.ofItems items).data, e.Spaced := fun e he =>
    (h.said _ (Program.mem_data_ofItems.1 he)).spaced_datum
  have htext : ∀ i ∈ (Program.ofItems items).text, i.Spaced := fun i hi =>
    (h.said _ (Program.mem_text_ofItems.1 hi)).spaced_instruction
  obtain ⟨hdataApart, htextApart⟩ := Program.pairwise_stretch h.apart
  refine List.pairwise_append.2 ⟨List.pairwise_flatMap.2 ⟨fun e he => ?_, ?_⟩,
    List.pairwise_flatMap.2 ⟨fun i hi => (htext i hi).pairwise.imp Or.inl, ?_⟩, ?_⟩
  · have hbetween := (hdata e he).symbol_value
    exact List.pairwise_pair.2 (Or.inl ((Nat.lt_succ_self _).trans hbetween))
  · refine (List.pairwise_map.1 hdataApart).imp_of_mem fun he he' hbefore s hs r hr => Or.inl ?_
    exact hbefore.of_encloses ((hdata _ he).isHull.encloses s hs) ((hdata _ he').isHull.encloses r hr)
  · refine (List.pairwise_map.1 htextApart).imp_of_mem fun hi hi' hbefore s hs r hr => Or.inl ?_
    exact hbefore.of_encloses ((htext _ hi).isHull.encloses s hs) ((htext _ hi').isHull.encloses r hr)
  · intro s hs r hr
    obtain ⟨e, he, hs⟩ := List.mem_flatMap.1 hs
    obtain ⟨i, hi, hr⟩ := List.mem_flatMap.1 hr
    have hes := (hdata e he).isHull.encloses s hs
    have hir := (htext i hi).isHull.encloses r hr
    have hbetween := Program.stretch_or_stretch h.apart (Program.mem_data_ofItems.1 he)
      (Program.mem_text_ofItems.1 hi)
    exact hbetween.imp (·.of_encloses hes hir) (·.of_encloses hir hes)

/-! ## Parts and marks -/

namespace Outline

variable {t : List Char} {p : Program}

theorem eq_ok_of_read (h : read t = .ok p) :
    (of none none t).failure = none ∧ p = .ofItems (Phrase.items [] (of none none t).phrases) := by
  rw [read, answer] at h
  split at h
  · rename_i hfailure
    exact ⟨hfailure, (Except.ok.inj h).symm⟩
  · simp at h

theorem standsIn_of_isAt {front : List Char} {q : Phrase} (h : q.IsAt t front) : q.StandsIn t front := by
  have hstands : ∀ q ∈ Phrase.placed [] (of none ([] : List Char).getLast? t).phrases,
      q.2.StandsIn ([] ++ t) q.1 := standsIn_of_mem_placed
  exact hstands (front, q) h

/-- Each item of a text is said by a phrase at a statement position. -/
theorem mem_items_iff {i : Item} : i ∈ Phrase.items [] (of none none t).phrases ↔
    ∃ front q, Phrase.IsAt t front q ∧ q.item? front = some i := by
  simp [Phrase.mem_items_iff, Phrase.IsAt]

/-- What a text says is said in it, one item apart from the other. -/
theorem arranged (t : List Char) :
    Session.Arranged t (Phrase.items [] (of none none t).phrases) where
  said i hi := by
    obtain ⟨front, q, hq, hitem⟩ := mem_items_iff.1 hi
    exact ⟨front, q, standsIn_of_isAt hq, hitem⟩
  apart := Phrase.pairwise_apart none none [] t

theorem mem_data_iff (h : read t = .ok p) {e : Datum} : e ∈ p.data ↔
    ∃ front q, Phrase.IsAt t front q ∧ q.item? front = some (.data e) := by
  rw [(eq_ok_of_read h).2, Program.mem_data_ofItems, mem_items_iff]

theorem mem_text_iff (h : read t = .ok p) {i : Instruction} : i ∈ p.text ↔
    ∃ front q, Phrase.IsAt t front q ∧ q.item? front = some (.instruction i) := by
  rw [(eq_ok_of_read h).2, Program.mem_text_ofItems, mem_items_iff]

theorem pairwise_spans (h : read t = .ok p) : p.spans.Pairwise Span.Disjoint := by
  rw [(eq_ok_of_read h).2]
  exact (arranged t).pairwise_spans

/-- The parts of a text. -/
def parts (t : List Char) : List Part := Phrase.partsOf [] (of none none t).phrases

theorem mem_parts_iff {x : Part} : x ∈ parts t ↔ ∃ front q, Phrase.IsAt t front q ∧ x ∈ q.parts front := by
  simp [parts, Phrase.partsOf, Phrase.IsAt]

theorem mem_parts_of_isAt {front : List Char} {q : Phrase} {x : Part} (hq : q.IsAt t front)
    (hx : x ∈ q.parts front) : x ∈ parts t :=
  mem_parts_iff.2 ⟨front, q, hq, hx⟩

/-- The parts of a text that is read tile it. -/
theorem tiles_parts (h : read t = .ok p) : Part.Tiles [] (parts t) t := by
  have htiles := Phrase.tiles_partsOf [] (of none none t).phrases
  have htext : (of none none t).phrases.flatMap Phrase.text = t :=
    text_of_failure_eq_none (eq_ok_of_read h).1
  rwa [htext] at htiles

/-- The spans of all entries are those of the parts with this role. -/
theorem mem_spans_iff (h : read t = .ok p) {s : Span} :
    s ∈ p.spans ↔ ∃ x ∈ parts t, x.role = .span ∧ x.span = s := by
  rw [(eq_ok_of_read h).2, Program.mem_spans_ofItems]
  constructor
  · rintro ⟨i, hi, hs⟩
    obtain ⟨front, q, hq, hitem⟩ := mem_items_iff.1 hi
    obtain ⟨x, hx, hspan⟩ := Phrase.mem_spans_iff.1 ⟨i, hitem, hs⟩
    exact ⟨x, mem_parts_of_isAt hq hx, hspan⟩
  · rintro ⟨x, hx, hspan⟩
    obtain ⟨front, q, hq, hx⟩ := mem_parts_iff.1 hx
    obtain ⟨i, hitem, hs⟩ := Phrase.mem_spans_iff.2 ⟨x, hx, hspan⟩
    exact ⟨i, mem_items_iff.2 ⟨front, q, hq, hitem⟩, hs⟩

/-- The symbols of all entries end where the parts with the role of a colon start. -/
theorem mem_symbols_iff (h : read t = .ok p) {n : Nat} : (∃ s ∈ p.symbols, s.upper = n) ↔
    ∃ x ∈ parts t, x.role = .colon ∧ x.text = [':'] ∧ byteLength x.front = n := by
  rw [(eq_ok_of_read h).2]
  constructor
  · rintro ⟨s, hs, hupper⟩
    obtain ⟨i, hi, hs⟩ := Program.mem_symbols_ofItems.1 hs
    obtain ⟨front, q, hq, hitem⟩ := mem_items_iff.1 hi
    obtain ⟨x, hx, hrole, hfront⟩ := Phrase.mem_symbols_iff.1 ⟨i, hitem, s, hs, hupper⟩
    exact ⟨x, mem_parts_of_isAt hq hx, hrole, Phrase.text_of_role_eq_colon x hx hrole, hfront⟩
  · rintro ⟨x, hx, hrole, -, hfront⟩
    obtain ⟨front, q, hq, hx⟩ := mem_parts_iff.1 hx
    obtain ⟨i, hitem, s, hs, hupper⟩ := Phrase.mem_symbols_iff.2 ⟨x, hx, hrole, hfront⟩
    exact ⟨s, Program.mem_symbols_ofItems.2 ⟨i, mem_items_iff.2 ⟨front, q, hq, hitem⟩, hs⟩, hupper⟩

end Outline

/-! ## What belongs to a part is marked -/

section Marks

variable {t : List Char} {p : Program} {before after front : List Char} {c : Char} {q : Phrase} {x : Part}

theorem marked_span_of_holds (hread : Outline.read t = .ok p) (hx : x ∈ Outline.parts t)
    (hrole : x.role = .span) (hholds : x.Holds before c) : Marked t p before c .span :=
  Span.countP_covers_eq_one (Outline.pairwise_spans hread)
    ((Outline.mem_spans_iff hread).2 ⟨x, hx, hrole, rfl⟩) hholds.covers

theorem marked_colon_of_holds (hread : Outline.read t = .ok p)
    (hx : ⟨front, .colon, [':']⟩ ∈ Outline.parts t) (hholds : Part.Holds ⟨front, .colon, [':']⟩ before c) :
    Marked t p before c .colon := by
  obtain ⟨rfl, rfl⟩ := Part.holds_singleton.1 hholds
  exact ⟨rfl, (Outline.mem_symbols_iff hread).2 ⟨_, hx, rfl, rfl, rfl⟩⟩

theorem Phrase.IsAt.marked_blank {d : Char} (hq : (Phrase.blank d).IsAt t front)
    (hx : x ∈ (Phrase.blank d).parts front) (hholds : x.Holds before c) :
    Marked t p before c x.role ∨ (x.role = .separator ∧ isSeparator c = true) := by
  obtain ⟨rest, -, hwellFormed, hbounded⟩ := (Outline.standsIn_of_isAt hq).exists_rest
  obtain rfl := List.mem_singleton.1 hx
  obtain ⟨hc, hbefore⟩ := Part.holds_singleton.1 hholds
  obtain rfl : d = c := hc
  obtain rfl : before = front := hbefore
  by_cases hd : d = '/'
  · rw [if_pos hd]
    have hstarts : Phrase.startsComment before.getLast? d = false := hbounded
    refine Or.inl ⟨hd, ⟨_, hq⟩, fun hlast => ?_⟩
    rw [hd, hlast] at hstarts
    exact absurd hstarts (by decide)
  · rw [if_neg hd]
    exact Or.inr ⟨rfl, hwellFormed.resolve_right hd⟩

theorem Phrase.IsAt.marked_comment {remark : List Char} (hq : (Phrase.comment remark).IsAt t front)
    (hx : x ∈ (Phrase.comment remark).parts front) (hholds : x.Holds before c) :
    Marked t p before c x.role := by
  obtain ⟨rest, -, ⟨-, hline⟩, ⟨d, hd, hstarts⟩, -⟩ := (Outline.standsIn_of_isAt hq).exists_rest
  obtain rfl := List.mem_singleton.1 hx
  obtain ⟨y, z, htext, rfl⟩ := hholds
  have hremark : remark = y ++ [c] ++ z := by
    rw [List.append_assoc]
    exact htext
  refine ⟨front, y ++ [c], ⟨_, hq⟩, List.append_assoc _ _ _, fun hmem => ?_, d, ?_, hstarts⟩
  · exact hline (hremark ▸ List.mem_append_left z hmem)
  · rw [hremark] at hd
    cases y with
    | nil => exact hd
    | cons e y => exact hd

theorem Phrase.IsAt.marked_directive {gap : List Char} {s : Section}
    (hq : (Phrase.directive gap s).IsAt t front) (hx : x ∈ (Phrase.directive gap s).parts front)
    (hholds : x.Holds before c) :
    Marked t p before c x.role ∨ (x.role = .separator ∧ isSeparator c = true) := by
  obtain ⟨rest, -, ⟨-, hgap⟩, -⟩ := (Outline.standsIn_of_isAt hq).exists_rest
  simp only [Phrase.parts, List.mem_cons, List.not_mem_nil, or_false] at hx
  rcases hx with rfl | rfl | rfl
  · exact Or.inl ⟨front, gap, s, hq, Or.inl hholds.covers⟩
  · exact Or.inr ⟨rfl, hgap c hholds.mem⟩
  · exact Or.inl ⟨front, gap, s, hq, Or.inr hholds.covers⟩

/-- The value of a data entry in its text. -/
theorem Phrase.StandsIn.value_of_item? {symbol gap value dropped : List Char}
    (h : (Phrase.datum symbol gap value dropped).StandsIn t front) {e : Datum}
    (hi : (Phrase.datum symbol gap value dropped).item? front = some (.data e)) :
    e.value.slice? t = some value ∧
      e.value.upper = byteLength (front ++ symbol ++ ':' :: gap ++ value) ∧
      ∃ rest, t = front ++ symbol ++ ':' :: gap ++ value ++ (dropped ++ rest) ∧
        (dropped = [] ∨ ∃ d, dropped = [d]) ∧
        ((Phrase.IsQuoted value ∧ (dropped = [] → rest = [])) ∨ (¬Phrase.IsQuoted value ∧ dropped = [])) := by
  obtain ⟨rest, hrest, hwellFormed, hbounded⟩ := h.exists_rest
  obtain rfl := Item.data.inj (Option.some.inj hi)
  have htext : t = front ++ symbol ++ ':' :: gap ++ value ++ (dropped ++ rest) := by
    rw [hrest]
    simp [Phrase.text, Phrase.passed, Phrase.unread]
  exact ⟨Span.slice?_eq_some_iff.2 ⟨_, dropped ++ rest, htext, rfl, rfl⟩, Span.upper_behind _ _, rest,
    htext, Phrase.unread_eq_nil_or_singleton hwellFormed, hbounded⟩

theorem Phrase.IsAt.marked_datum {symbol gap value dropped : List Char} (hread : Outline.read t = .ok p)
    (hq : (Phrase.datum symbol gap value dropped).IsAt t front)
    (hx : x ∈ (Phrase.datum symbol gap value dropped).parts front) (hholds : x.Holds before c) :
    Marked t p before c x.role ∨ (x.role = .separator ∧ isSeparator c = true) := by
  have hstands := Outline.standsIn_of_isAt hq
  obtain ⟨-, -, ⟨-, ⟨-, hgap⟩, -⟩, -⟩ := hstands.exists_rest
  have hpart := Outline.mem_parts_of_isAt hq hx
  simp only [Phrase.parts, List.mem_cons, List.not_mem_nil, or_false] at hx
  rcases hx with rfl | rfl | rfl | rfl | rfl
  · exact Or.inl (marked_span_of_holds hread hpart rfl hholds)
  · exact Or.inl (marked_colon_of_holds hread hpart hholds)
  · exact Or.inr ⟨rfl, hgap c hholds.mem⟩
  · exact Or.inl (marked_span_of_holds hread hpart rfl hholds)
  · obtain ⟨hslice, hupper, rest, -, hone, hbounded⟩ := hstands.value_of_item? rfl
    have hdropped : dropped ≠ [] := List.ne_nil_of_mem hholds.mem
    obtain ⟨d, rfl⟩ := hone.resolve_left hdropped
    obtain ⟨hquoted, -⟩ := hbounded.resolve_right fun h => hdropped h.2
    obtain ⟨-, rfl⟩ := Part.holds_singleton.1 hholds
    exact Or.inl ⟨_, (Outline.mem_data_iff hread).2 ⟨front, _, hq, rfl⟩, hupper, value, hslice, hquoted⟩

/-- The line of an instruction in its text. -/
theorem Phrase.StandsIn.line_of_item? {label : Option (List Char × List Char)} {name : List Char}
    {operands : List (List Char × List Char)} {trailing : List Char}
    (h : (Phrase.instruction label name operands trailing).StandsIn t front) {i : Instruction}
    (hi : (Phrase.instruction label name operands trailing).item? front = some (.instruction i)) :
    let head := front ++ Phrase.labelText label ++ name
    i.name.upper = byteLength head ∧
      lineEnd (encode t) i.name.upper = byteLength (head ++ Phrase.operandText operands ++ trailing) ∧
      head ++ Phrase.operandText operands ++ trailing <+: t := by
  intro head
  obtain rfl := Item.instruction.inj (Option.some.inj hi)
  have hpassed : front ++ (Phrase.instruction label name operands trailing).passed =
      head ++ Phrase.operandText operands ++ trailing := by
    simp only [Phrase.passed, head, List.append_assoc]
  refine ⟨Span.upper_behind _ _, ?_, hpassed ▸ h.isPrefix_passed⟩
  rw [Span.upper_behind, h.lineEnd_name, hpassed]

theorem Phrase.IsAt.marked_instruction {label : Option (List Char × List Char)}
    {name : List Char} {operands : List (List Char × List Char)} {trailing : List Char}
    (hread : Outline.read t = .ok p) (hq : (Phrase.instruction label name operands trailing).IsAt t front)
    (hx : x ∈ (Phrase.instruction label name operands trailing).parts front)
    (hholds : x.Holds before c) :
    Marked t p before c x.role ∨ (x.role = .separator ∧ isSeparator c = true) := by
  have hstands := Outline.standsIn_of_isAt hq
  obtain ⟨-, -, ⟨hlabel, -, -, hoperands, htrailing⟩, -⟩ := hstands.exists_rest
  have hpart := Outline.mem_parts_of_isAt hq hx
  rcases List.mem_append.1 hx with hx | hx
  · cases label with
    | none => simp [Phrase.labelParts] at hx
    | some l =>
        obtain ⟨word, gap⟩ := l
        simp only [Phrase.labelParts, List.mem_cons, List.not_mem_nil, or_false] at hx
        rcases hx with rfl | rfl | rfl
        · exact Or.inl (marked_span_of_holds hread hpart rfl hholds)
        · exact Or.inl (marked_colon_of_holds hread hpart hholds)
        · exact Or.inr ⟨rfl, (hlabel _ rfl).2.2 c hholds.mem⟩
  · rcases List.mem_cons.1 hx with rfl | hx
    · exact Or.inl (marked_span_of_holds hread hpart rfl hholds)
    · left
      rcases Phrase.role_of_mem_lineParts hoperands htrailing x hx c hholds.mem with
        ⟨hrole, hblank⟩ | ⟨hrole, -⟩
      · obtain ⟨hname, hend, -⟩ := hstands.line_of_item? rfl
        obtain ⟨hlower, hupper⟩ := hholds.covers
        obtain ⟨hfront, hback⟩ := (Phrase.tiles_lineParts _ operands trailing).isPrefix_of_mem x hx
        have hlater := (byteLength_le_of_isPrefix hfront).trans hlower
        have hearlier := hupper.trans ((Span.upper_behind _ _).trans_le (byteLength_le_of_isPrefix hback))
        rw [hrole]
        refine ⟨hblank, _, (Outline.mem_text_iff hread).2 ⟨front, _, hq, rfl⟩, hname.trans_le hlater, ?_⟩
        rw [hend]
        exact (Nat.lt_add_of_pos_right c.utf8Size_pos).trans_le hearlier
      · rw [hrole]
        exact marked_span_of_holds hread hpart hrole hholds

/-- What belongs to a part of the text has the mark of the part, or is a separator. -/
theorem marked_of_holds (hread : Outline.read t = .ok p) (hx : x ∈ Outline.parts t)
    (hholds : x.Holds before c) :
    Marked t p before c x.role ∨ (x.role = .separator ∧ isSeparator c = true) := by
  obtain ⟨front, q, hq, hx⟩ := Outline.mem_parts_iff.1 hx
  cases q with
  | blank d => exact hq.marked_blank hx hholds
  | comment remark => exact Or.inl (hq.marked_comment hx hholds)
  | directive gap s => exact hq.marked_directive hx hholds
  | datum symbol gap value dropped => exact hq.marked_datum hread hx hholds
  | instruction label name operands trailing => exact hq.marked_instruction hread hx hholds

/-! ## What is marked belongs to a part -/

theorem Outline.holds_of_mem_parts (hread : Outline.read t = .ok p) (ht : t = before ++ c :: after)
    (hx : x ∈ Outline.parts t) (hcovers : x.span.Covers before c) : x.Holds before c :=
  Part.holds_of_covers ((Outline.tiles_parts hread).isPrefix_of_mem x hx).2 ht hcovers

theorem holds_of_marked_span (hread : Outline.read t = .ok p) (ht : t = before ++ c :: after)
    (h : Marked t p before c .span) : ∃ x ∈ Outline.parts t, x.role = .span ∧ x.Holds before c := by
  have hcount : p.spans.countP (·.Covers before c) = 1 := h
  obtain ⟨s, hs, hcovers⟩ := List.countP_pos_iff.1 (hcount ▸ Nat.one_pos)
  obtain ⟨x, hx, hrole, rfl⟩ := (Outline.mem_spans_iff hread).1 hs
  exact ⟨x, hx, hrole, Outline.holds_of_mem_parts hread ht hx (of_decide_eq_true hcovers)⟩

theorem holds_of_marked_colon (hread : Outline.read t = .ok p) (ht : t = before ++ c :: after)
    (h : Marked t p before c .colon) : ∃ x ∈ Outline.parts t, x.role = .colon ∧ x.Holds before c := by
  obtain ⟨hc, hsymbol⟩ := h
  obtain ⟨x, hx, hrole, htext, hfront⟩ := (Outline.mem_symbols_iff hread).1 hsymbol
  refine ⟨x, hx, hrole, Outline.holds_of_mem_parts hread ht hx ⟨hfront.le, ?_⟩⟩
  rw [← hfront, hc]
  simp [Part.span, Span.behind, htext]

theorem holds_of_marked_directive (hread : Outline.read t = .ok p) (ht : t = before ++ c :: after)
    (h : Marked t p before c .directive) :
    ∃ x ∈ Outline.parts t, x.role = .directive ∧ x.Holds before c := by
  obtain ⟨front, gap, s, hq, hcovers | hcovers⟩ := h
  · have hpart : ⟨front, .directive, sectionKeyword⟩ ∈ Outline.parts t :=
      Outline.mem_parts_of_isAt hq (by simp [Phrase.parts])
    exact ⟨_, hpart, rfl, Outline.holds_of_mem_parts hread ht hpart hcovers⟩
  · have hpart : ⟨front ++ sectionKeyword ++ gap, .directive, s.name.toList⟩ ∈ Outline.parts t :=
      Outline.mem_parts_of_isAt hq (by simp [Phrase.parts])
    exact ⟨_, hpart, rfl, Outline.holds_of_mem_parts hread ht hpart hcovers⟩

theorem holds_of_marked_separator (hread : Outline.read t = .ok p) (ht : t = before ++ c :: after)
    (h : Marked t p before c .separator) :
    ∃ x ∈ Outline.parts t, x.role = .separator ∧ x.Holds before c := by
  obtain ⟨hblank, i, hi, hlower, hupper⟩ := h
  obtain ⟨front, q, hq, hitem⟩ := (Outline.mem_text_iff hread).1 hi
  cases q with
  | instruction label name operands trailing =>
      have hstands := Outline.standsIn_of_isAt hq
      obtain ⟨-, -, ⟨-, -, -, hoperands, htrailing⟩, -⟩ := hstands.exists_rest
      obtain ⟨hname, hend, hinside⟩ := hstands.line_of_item? hitem
      rw [hend] at hupper
      rw [hname] at hlower
      have hhead : front ++ Phrase.labelText label ++ name <+: t := by
        refine List.IsPrefix.trans ?_ hinside
        rw [List.append_assoc (_ ++ name)]
        exact List.prefix_append _ _
      have hbefore : before <+: t := ht ▸ List.prefix_append before (c :: after)
      obtain ⟨m, hm⟩ := exists_eq_append_cons (ht ▸ hinside) hupper
      obtain ⟨x, hx, hholds⟩ := (Phrase.tiles_lineParts _ operands trailing).exists_holds
        (isPrefix_of_byteLength_le hhead hbefore hlower) hm
      have hpart : x ∈ (Phrase.instruction label name operands trailing).parts front :=
        List.mem_append_right _ (List.mem_cons_of_mem _ hx)
      refine ⟨x, Outline.mem_parts_of_isAt hq hpart, ?_, hholds⟩
      -- The other parts of the line are operands, and these hold no blank.
      rcases Phrase.role_of_mem_lineParts hoperands htrailing x hx c hholds.mem with
        ⟨hrole, -⟩ | ⟨-, hnot⟩
      · exact hrole
      · rw [hblank] at hnot
        simp at hnot
  | _ => simp [Phrase.item?] at hitem

/-- Where a comment starts, it is read up to its line feed. -/
theorem eq_comment_of_startsComment {d : Char} {more : List Char} (hq : q.IsAt t front)
    (ht : t = front ++ d :: more) (hstarts : Phrase.startsComment front.getLast? d = true) :
    q = .comment ((d :: more).takeWhile (· != '\n')) := by
  obtain ⟨active, d', cs, rest, hsplit, hfirst⟩ := Outline.standsIn_of_isAt hq
  obtain ⟨rfl, rfl⟩ := List.cons.inj (List.append_cancel_left (ht.symm.trans hsplit))
  have hsep : isSeparator d = false := by
    simp only [Phrase.startsComment, Bool.or_eq_true, Bool.and_eq_true, beq_iff_eq] at hstarts
    rcases hstarts with (rfl | rfl) | ⟨rfl, -⟩ <;> rfl
  rw [Phrase.first, hsep, if_neg Bool.false_ne_true, if_pos hstarts] at hfirst
  exact (Prod.mk.inj (Except.ok.inj hfirst)).1.symm

/-- A slash behind none starts no comment. -/
theorem eq_blank_of_slash {more : List Char} (hq : q.IsAt t front) (ht : t = front ++ '/' :: more)
    (hlast : front.getLast? ≠ some '/') : q = .blank '/' := by
  obtain ⟨active, d, cs, rest, hsplit, hfirst⟩ := Outline.standsIn_of_isAt hq
  obtain ⟨rfl, rfl⟩ := List.cons.inj (List.append_cancel_left (ht.symm.trans hsplit))
  have hstarts : Phrase.startsComment front.getLast? '/' = false := by
    simp [Phrase.startsComment, beq_false_of_ne hlast]
  rw [Phrase.first, if_neg (by decide), hstarts, if_neg Bool.false_ne_true, if_pos rfl] at hfirst
  exact (Prod.mk.inj (Except.ok.inj hfirst)).1.symm

theorem holds_of_marked_remark (ht : t = before ++ c :: after) (h : Marked t p before c .remark) :
    ∃ x ∈ Outline.parts t, x.role = .remark ∧ x.Holds before c := by
  obtain ⟨front, line, ⟨q, hq⟩, hline, hlf, d, hd, hstarts⟩ := h
  obtain ⟨line, rfl⟩ := List.head?_eq_some_iff.1 hd
  have htext : t = front ++ d :: (line ++ after) := by
    rw [← List.cons_append, ← List.append_assoc, ← hline, ht, List.append_assoc, List.singleton_append]
  have hpass : ∀ e ∈ d :: line, (e != '\n') = true := by
    intro e he
    rw [bne_iff_ne]
    rintro rfl
    exact hlf he
  obtain rfl := eq_comment_of_startsComment hq htext hstarts
  refine ⟨⟨front, .remark, _⟩, Outline.mem_parts_of_isAt hq (List.mem_singleton.2 rfl), rfl, ?_⟩
  obtain ⟨y, e, hlast⟩ : ∃ y e, d :: line = y ++ [e] :=
    ⟨_, _, (List.dropLast_append_getLast (List.cons_ne_nil d line)).symm⟩
  rw [hlast, ← List.append_assoc] at hline
  obtain ⟨rfl, hc⟩ := List.append_inj' hline rfl
  obtain rfl := List.singleton_inj.1 hc
  refine ⟨y, after.takeWhile (· != '\n'), ?_, rfl⟩
  rw [← List.cons_append, List.takeWhile_append_of_pos hpass, hlast, List.append_assoc]
  rfl

theorem holds_of_marked_slash (ht : t = before ++ c :: after) (h : Marked t p before c .slash) :
    ∃ x ∈ Outline.parts t, x.role = .slash ∧ x.Holds before c := by
  obtain ⟨rfl, ⟨q, hq⟩, hlast⟩ := h
  obtain rfl := eq_blank_of_slash hq ht hlast
  have hpart : ⟨before, .slash, ['/']⟩ ∈ Outline.parts t :=
    Outline.mem_parts_of_isAt hq (List.mem_singleton.2 rfl)
  exact ⟨_, hpart, rfl, Part.holds_singleton.2 ⟨rfl, rfl⟩⟩

theorem holds_of_marked_dropped (hread : Outline.read t = .ok p) (ht : t = before ++ c :: after)
    (h : Marked t p before c .dropped) :
    ∃ x ∈ Outline.parts t, x.role = .dropped ∧ x.Holds before c := by
  obtain ⟨e, he, hupper, value', hslice', hquoted⟩ := h
  obtain ⟨front, q, hq, hitem⟩ := (Outline.mem_data_iff hread).1 he
  cases q with
  | datum symbol gap value dropped =>
      obtain ⟨hslice, hend, rest, htext, hone, hbounded⟩ :=
        (Outline.standsIn_of_isAt hq).value_of_item? hitem
      obtain rfl : value = value' := Option.some.inj (hslice.symm.trans hslice')
      obtain ⟨-, hlast⟩ := hbounded.resolve_right fun h => h.1 hquoted
      obtain rfl : front ++ symbol ++ ':' :: gap ++ value = before :=
        eq_of_byteLength_eq (htext ▸ List.prefix_append _ _) (ht ▸ List.prefix_append _ _)
          (hend.symm.trans hupper)
      have hnext : dropped ++ rest = c :: after := List.append_cancel_left (htext.symm.trans ht)
      rcases hone with rfl | ⟨d, rfl⟩
      · rw [hlast rfl] at hnext
        simp at hnext
      · have hpart : ⟨front ++ symbol ++ ':' :: gap ++ value, .dropped, [d]⟩ ∈ Outline.parts t :=
          Outline.mem_parts_of_isAt hq (by simp [Phrase.parts])
        exact ⟨_, hpart, rfl, Part.holds_singleton.2 ⟨(List.cons.inj hnext).1, rfl⟩⟩
  | _ => simp [Phrase.item?] at hitem

/-- What is marked in the text belongs to a part with this role. -/
theorem exists_holds_of_marked (hread : Outline.read t = .ok p) (ht : t = before ++ c :: after) {r : Role}
    (h : Marked t p before c r) : ∃ x ∈ Outline.parts t, x.role = r ∧ x.Holds before c := by
  cases r with
  | span => exact holds_of_marked_span hread ht h
  | colon => exact holds_of_marked_colon hread ht h
  | directive => exact holds_of_marked_directive hread ht h
  | remark => exact holds_of_marked_remark ht h
  | slash => exact holds_of_marked_slash ht h
  | dropped => exact holds_of_marked_dropped hread ht h
  | separator => exact holds_of_marked_separator hread ht h

end Marks

/-- Each character of a text that is read plays exactly one role. -/
theorem Program.plays_of_read (source : String) (p : Program) (h : Program.read source = .ok p)
    (before after : List Char) (c : Char) (hsource : source.toList = before ++ c :: after) :
    ∃! r, Plays source.toList p before c r := by
  have hread : Outline.read source.toList = .ok p := by
    rw [← Program.read_eq_outline]
    exact h
  have htiles := Outline.tiles_parts hread
  obtain ⟨x, hx, hholds⟩ := htiles.exists_holds (List.nil_prefix) hsource
  have hrole : ∀ r, Marked source.toList p before c r → r = x.role := by
    intro r hr
    obtain ⟨x', hx', rfl, hholds'⟩ := exists_holds_of_marked hread hsource hr
    exact htiles.role_eq hx' hx hholds' hholds
  have hx := marked_of_holds hread hx hholds
  refine ⟨x.role, ?_, ?_⟩
  · by_cases hmarked : Marked source.toList p before c x.role
    · exact Or.inl hmarked
    · obtain ⟨hseparator, hc⟩ := hx.resolve_left hmarked
      exact Or.inr ⟨hseparator, hc, fun other hother => hmarked (hrole other hother ▸ hother)⟩
  · rintro r (hr | ⟨rfl, -, hnone⟩)
    · exact hrole r hr
    · exact (hx.resolve_left (hnone x.role)).1.symm

/-- The character behind a quoted value is dropped, whatever comes behind it. -/
theorem Program.plays_of_read_behindQuote :
    let source := "section .data x: 'a'é /#r"
    let p : Program := ⟨[⟨⟨14, 15⟩, ⟨17, 20⟩, 1, 20⟩], []⟩
    Program.read source = .ok p ∧
      ∀ r, Plays source.toList p "section .data x: 'a'".toList 'é' r ↔ r = .dropped := by
  intro source p
  have houtline : Outline.of none none source.toList =
      ⟨[.directive [' '] .data, .blank ' ', .datum ['x'] [' '] ['\'', 'a', '\''] ['é'], .blank ' ',
        .blank '/', .comment ['#', 'r']], none⟩ := by
    cbv
  have hread : Program.read source = .ok p := by
    rw [Program.read_eq_outline, Outline.read, houtline]
    rfl
  have hsource : source.toList = "section .data x: 'a'".toList ++ 'é' :: " /#r".toList := by cbv
  have hslice : (⟨17, 20⟩ : Span).slice? source.toList = some ['\'', 'a', '\''] := by cbv
  have hupper : 20 = byteLength "section .data x: 'a'".toList := by cbv
  have hdropped : Marked source.toList p "section .data x: 'a'".toList 'é' .dropped :=
    ⟨_, List.mem_singleton.2 rfl, hupper, _, hslice, '\'', ['a'], .inl rfl, rfl⟩
  refine ⟨hread, fun r => ⟨fun hr => ?_, fun hr => hr ▸ .inl hdropped⟩⟩
  exact (Program.plays_of_read source p hread _ _ 'é' hsource).unique hr (.inl hdropped)

end Mnemonic
