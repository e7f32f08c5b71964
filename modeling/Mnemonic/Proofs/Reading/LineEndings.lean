import Mnemonic.Proofs.Listing.Entries
import Mnemonic.Proofs.Reading.Returns

set_option autoImplicit false

/-!
# Line endings

Lines may end with a line feed or with a carriage return and a line feed: the text says the same either
way. Its entries have the same words, apart from the line feeds in quoted values, which come with their
carriage returns; they are on the same lines; and the columns agree, apart from those of instructions
that have a carriage return at the end of their line.

Main statements: what is read behind a phrase with carriage returns is what stands behind the phrase
(`said_rest`); so the outline with carriage returns says what the outline says, or has its fault
(`returned_said`), and reading the two texts gives programs that agree, or the same fault
(`read_withReturns`).
-/

namespace Mnemonic

open Text

/-! ## Places -/

/-- A line feed ends the line with the given number. -/
def Text.IsTerminated (t : List Char) (line : Nat) : Prop :=
  ∃ a b, t = a ++ '\n' :: b ∧ a.count '\n' + 1 = line

/-- The place behind a carriage return is one column to the right. -/
theorem Position.behind_append_return (t : List Char) :
    behind (encode (t ++ ['\r'])) = ⟨(behind (encode t)).line, (behind (encode t)).column + 1⟩ := by
  rw [encode_append]
  exact behind_append_of_ne (by decide) (encode t)

/-- Carriage returns in front of line feeds move no place behind them. -/
theorem Position.behind_withReturns (t : List Char) :
    behind (encode (withReturns t)) = behind (encode t) := by
  induction t using List.reverseRecOn with
  | nil => rfl
  | append_singleton t c ih =>
      by_cases hc : c = '\n'
      · have hlast : withReturns (t ++ [c]) = withReturns t ++ ['\r'] ++ ['\n'] := by
          rw [hc, withReturns_append, List.append_assoc]
          rfl
        have hlf : encode ['\n'] = [Cursor.lineFeed] := rfl
        rw [hlast, encode_append _ ['\n'], hc, encode_append _ ['\n'], hlf, behind_append_lineFeed,
          behind_append_lineFeed, behind_append_return, ih]
      · have hlf : Cursor.lineFeed ∉ encode [c] :=
          lineFeed_notMem_encode fun h => hc (List.mem_singleton.1 h).symm
        have hkeep : withReturns [c] = [c] := withReturns_cons_of_ne hc []
        rw [withReturns_append, hkeep, encode_append, encode_append, behind_append_of_notMem hlf,
          behind_append_of_notMem hlf, ih]

/-- The line of a place at the end of a line is terminated by what remains. -/
theorem isTerminated_behind_iff (front : List Char) {rest : List Char} (h : Phrase.AtLineEnd rest) :
    IsTerminated (front ++ rest) (Position.behind (encode front)).line ↔ rest.head? = some '\n' := by
  have hline : (Position.behind (encode front)).line = front.count '\n' + 1 := by
    rw [← count_encode]
    rfl
  rw [hline]
  constructor
  · rintro ⟨a, b, ht, hcount⟩
    cases rest with
    | nil =>
        rw [List.append_nil] at ht
        rw [ht, List.count_append, List.count_cons_self] at hcount
        omega
    | cons c rest => rw [List.head?_cons, h c rfl]
  · intro hhead
    obtain ⟨b, rfl⟩ := List.head?_eq_some_iff.1 hhead
    exact ⟨front, b, rfl, rfl⟩

/-! ## What entries have in common -/

/-- The words of a data entry with carriage returns. -/
def Datum.Wording.withReturns (d : Datum.Wording) : Datum.Wording :=
  { d with value := Text.withReturns d.value }

/-- The data entry of a text with carriage returns that stands for a data entry of the text. -/
structure Datum.Returned (source : List Char) (e f : Datum) : Prop where
  words : ∃ d, e.wording source = .ok d ∧ f.wording (Text.withReturns source) = .ok d.withReturns
  line_eq : f.line = e.line
  column_eq : f.column = e.column

/-- The instruction of a text with carriage returns that stands for an instruction of the text. -/
structure Instruction.Returned (source : List Char) (i j : Instruction) : Prop where
  words : ∃ v, i.wording source = .ok v ∧ j.wording (Text.withReturns source) = .ok v
  line_eq : j.line = i.line
  column_eq_of_isTerminated : IsTerminated source i.line → j.column = i.column + 1
  column_eq_of_not_isTerminated : ¬IsTerminated source i.line → j.column = i.column

/-- The item of a text with carriage returns that stands for an item of the text. -/
inductive Item.Returned (source : List Char) : Item → Item → Prop
  | section (s : Section) : Returned source (.section s) (.section s)
  | data {e f : Datum} (h : e.Returned source f) : Returned source (.data e) (.data f)
  | instruction {i j : Instruction} (h : i.Returned source j) :
      Returned source (.instruction i) (.instruction j)

/-- The program of a text with carriage returns has an entry for each entry of the text's program. -/
structure Program.Returned (source : List Char) (p q : Program) : Prop where
  data : List.Forall₂ (Datum.Returned source) p.data q.data
  text : List.Forall₂ (Instruction.Returned source) p.text q.text

theorem Program.returned_ofItems {source : List Char} {items items' : List Item}
    (h : List.Forall₂ (Item.Returned source) items items') :
    (ofItems items).Returned source (ofItems items') := by
  induction h with
  | nil => exact ⟨.nil, .nil⟩
  | cons hitem _ ih =>
      cases hitem with
      | «section» s => exact ih
      | data h => exact ⟨.cons h ih.data, ih.text⟩
      | instruction h => exact ⟨ih.data, .cons h ih.text⟩

namespace Phrase

variable {source before rest : List Char} {p : Phrase}

/-- A phrase with carriage returns ends on the same line, and to the right by the carriage return that
it takes in at the end of the line. -/
theorem behind_passed_withReturns (h : p.WellFormed) (before rest : List Char) :
    Position.behind (encode (Text.withReturns before ++ (p.withReturns rest).passed)) =
      ⟨(Position.behind (encode (before ++ p.passed))).line,
        (Position.behind (encode (before ++ p.passed))).column + (p.returnBehind rest).length⟩ := by
  rw [passed_withReturns h, ← List.append_assoc, ← withReturns_append,
    ← Position.behind_withReturns (before ++ p.passed)]
  rcases returnBehind_eq_nil_or rest p with hbehind | ⟨-, hbehind⟩
  · rw [hbehind, List.append_nil]
    rfl
  · rw [hbehind, Position.behind_append_return]
    rfl

/-- What a phrase with carriage returns says behind a text with carriage returns is what the phrase says
behind the text. -/
theorem returned_item? {previous : Option Char} {rest' : List Char} (hwf : p.WellFormed)
    (hbounded : p.Bounded previous rest) (hsource : source = before ++ p.text ++ rest)
    (hrest' : Text.withReturns source =
      Text.withReturns before ++ (p.withReturns rest).text ++ rest') :
    List.Forall₂ (Item.Returned source) (p.item? before).toList
      ((p.withReturns rest).item? (Text.withReturns before)).toList := by
  have hline := congrArg Position.line (behind_passed_withReturns hwf before rest)
  have hcolumn := congrArg Position.column (behind_passed_withReturns hwf before rest)
  have hwords := Program.wording_eq_ok_iff_forall₂.1 (Program.wording_item? rest hsource)
  have hwords' := Program.wording_eq_ok_iff_forall₂.1 (Program.wording_item? rest' hrest')
  cases p with
  | blank c => by_cases hc : c = '\n' <;> simp [withReturns, hc, item?]
  | comment remark => exact .nil
  | directive gap s => exact .cons (.section s) .nil
  | datum symbol gap value dropped =>
      exact .cons (.data ⟨⟨_, (List.forall₂_cons.1 hwords.1).1, (List.forall₂_cons.1 hwords'.1).1⟩,
        hline, hcolumn⟩) .nil
  | instruction label name operands trailing =>
      have hend : source = before ++ (instruction label name operands trailing).passed ++ rest := by
        rw [hsource, text]
        simp [unread]
      have hterminated := isTerminated_behind_iff
        (before ++ (instruction label name operands trailing).passed) hbounded
      rw [← hend] at hterminated
      have hsame : label.map Prod.fst =
          (label.map fun l => (l.1, Text.withReturns l.2)).map Prod.fst := by
        cases label <;> rfl
      have hfirst := (List.forall₂_cons.1 hwords'.2).1
      rw [← hsame] at hfirst
      refine .cons (.instruction ⟨⟨_, (List.forall₂_cons.1 hwords.2).1, hfirst⟩, hline, ?_, ?_⟩) .nil
      · intro h
        rw [hcolumn, returnBehind, returnBefore, if_pos (hterminated.1 h)]
        rfl
      · intro h
        rw [hcolumn, returnBehind, returnBefore, if_neg (mt hterminated.2 h)]
        rfl

end Phrase

/-! ## What outlines have in common -/

namespace Outline

variable {active : Option Section} {previous : Option Char}

/-- What an outline says behind some text: its items, and why it fails if it does. -/
def said (before : List Char) (o : Outline) : List Item × Option Phrase.Failure :=
  (Phrase.items before o.phrases, o.failure)

/-- Separators in front say nothing. -/
theorem said_separator {c : Char} (h : isSeparator c = true) (before t : List Char) :
    (of active previous (c :: t)).said before = (of active (some c) t).said (before ++ [c]) := by
  rw [of_of_ok (Phrase.first_of_isSeparator h active previous t)]
  rfl

/-- Behind a phrase with carriage returns the text with carriage returns goes on, as far as it says
something. -/
theorem said_rest (active : Option Section) {p : Phrase} {rest rest' : List Char} (h : p.WellFormed)
    (hrest' : (p.withReturns rest).text ++ rest' = Text.withReturns (p.text ++ rest))
    (before : List Char) :
    (of active (p.withReturns rest).text.getLast? rest').said (before ++ (p.withReturns rest).text) =
      (of active p.text.getLast? (Text.withReturns rest)).said (before ++ Text.withReturns p.text) := by
  rw [withReturns_append] at hrest'
  rcases Phrase.text_withReturns h rest with htext | ⟨hhead, htext⟩ | htext
  · rw [htext] at hrest' ⊢
    rw [List.append_cancel_left hrest', getLast?_withReturns]
  · -- The phrase took in the carriage return of the line feed that is ahead.
    obtain ⟨more, rfl⟩ := List.head?_eq_some_iff.1 hhead
    obtain rfl : rest' = '\n' :: Text.withReturns more := by
      rw [htext, List.append_assoc] at hrest'
      simpa using List.append_cancel_left hrest'
    rw [withReturns_cons_lineFeed, htext, said_separator rfl, said_separator rfl, said_separator rfl]
    simp only [List.append_assoc]
  · -- The phrase left the line feed for later.
    obtain rfl : rest' = '\n' :: Text.withReturns rest := by
      rw [← htext, List.append_assoc] at hrest'
      exact List.append_cancel_left hrest'
    have hlast : p.text.getLast? = some '\n' := by
      rw [← getLast?_withReturns, ← htext, List.getLast?_append]
      rfl
    rw [said_separator rfl, hlast, ← htext, List.append_assoc]

/-- The outline of a text with carriage returns says what the outline of the text says, and fails with
the same fault if that fails. -/
theorem returned_said (active : Option Section) (previous : Option Char) (before t : List Char) :
    List.Forall₂ (Item.Returned (before ++ t)) (Phrase.items before (of active previous t).phrases)
        (Phrase.items (Text.withReturns before)
          (of active previous (Text.withReturns t)).phrases) ∧
      (of active previous (Text.withReturns t)).failure.map (·.fault) =
        (of active previous t).failure.map (·.fault) := by
  induction active, previous, t using Outline.induction generalizing before with
  | nil active previous => simp [Phrase.items]
  | error active previous c cs f hfirst =>
      obtain ⟨c', cs', hcs, hreturns⟩ := Phrase.returns_first active previous c cs
      rw [hfirst] at hreturns
      obtain ⟨f', hfirst', hfault⟩ := hreturns
      rw [hcs, of_of_error hfirst, of_of_error hfirst']
      exact ⟨.nil, congrArg some hfault⟩
  | ok active previous c cs p rest hfirst ih =>
      obtain ⟨c', cs', hcs, hreturns⟩ := Phrase.returns_first active previous c cs
      rw [hfirst] at hreturns
      obtain ⟨rest', hfirst'⟩ := hreturns
      have hopens := Phrase.opens_of_first_eq_ok hfirst
      have hrest' : (p.withReturns rest).text ++ rest' = Text.withReturns (p.text ++ rest) := by
        rw [← hopens.text_append, hcs]
        exact (Phrase.opens_of_first_eq_ok hfirst').text_append.symm
      have hsource : before ++ c :: cs = before ++ p.text ++ rest := by
        rw [hopens.text_append, List.append_assoc]
      have hsource' : Text.withReturns (before ++ c :: cs) =
          Text.withReturns before ++ (p.withReturns rest).text ++ rest' := by
        rw [withReturns_append, hopens.text_append, ← hrest', List.append_assoc]
      have hitem := Phrase.returned_item? hopens.wellFormed (Phrase.bounded_of_first_eq_ok hfirst)
        hsource hsource'
      have hlater := said_rest (p.section?.or active) hopens.wellFormed hrest'
        (Text.withReturns before)
      rw [← withReturns_append] at hlater
      obtain ⟨hitems, hfailure⟩ := Prod.mk.inj hlater
      obtain ⟨hreturned, hfault⟩ := ih (before ++ p.text)
      rw [List.append_assoc, ← hopens.text_append] at hreturned
      rw [hcs, of_of_ok hfirst, of_of_ok hfirst', Phrase.section?_withReturns, Phrase.items,
        Phrase.items, hitems, hfailure]
      exact ⟨List.rel_append hitem hreturned, hfault⟩

end Outline

/-- Lines may end with a line feed or with a carriage return and a line feed. A text and the one with a
carriage return in front of each line feed both hold programs, whose entries agree one by one, or both
have the same fault. -/
theorem Program.read_withReturns (source : String) :
    match Program.read source, Program.read (String.ofList (Text.withReturns source.toList)) with
    | .ok p, .ok q => p.Returned source.toList q
    | .error e, .error f => f.fault = e.fault
    | _, _ => False := by
  rw [Program.read_eq_outline, Program.read_eq_outline, String.toList_ofList]
  obtain ⟨hitems, hfault⟩ := Outline.returned_said none none [] source.toList
  unfold Outline.read Outline.answer
  cases hfailure : (Outline.of none none source.toList).failure with
  | none =>
      rw [hfailure, Option.map_none, Option.map_eq_none_iff] at hfault
      rw [hfault]
      exact Program.returned_ofItems hitems
  | some f =>
      rw [hfailure, Option.map_some, Option.map_eq_some_iff] at hfault
      obtain ⟨f', hf', hsame⟩ := hfault
      rw [hf']
      exact hsame

/-- The line of the first instruction is ended by a line feed, which moves its column by one, and that of
the second by the end of the text. -/
theorem Program.read_withReturns_lastLine :
    let source := "section .text\nnop\nhlt"
    let returned := "section .text\r\nnop\r\nhlt"
    let p : Program := ⟨[], [⟨⟨14, 17⟩, [], none, 2, 3⟩, ⟨⟨18, 21⟩, [], none, 3, 3⟩]⟩
    Program.read source = .ok p ∧ ∃ q, Program.read returned = .ok q ∧ p.Returned source.toList q ∧
      q.text.map Instruction.column = [4, 3] := by
  intro source returned p
  have houtline : Outline.of none none source.toList =
      ⟨[.directive [' '] .text, .blank '\n', .instruction none ['n', 'o', 'p'] [] [], .blank '\n',
        .instruction none ['h', 'l', 't'] [] []], none⟩ := by
    cbv
  have hread : Program.read source = .ok p := by
    refine (Session.fst_read none source.toList).trans ?_
    rw [houtline]
    rfl
  have hreturns : Text.withReturns source.toList = returned.toList := by decide
  have hboth := Program.read_withReturns source
  rw [hread, hreturns, String.ofList_toList] at hboth
  cases hq : Program.read returned with
  | error e =>
      rw [hq] at hboth
      exact hboth.elim
  | ok q =>
      rw [hq] at hboth
      obtain ⟨i, later, hi, hlater, htext⟩ := List.forall₂_cons_left_iff.1 hboth.text
      obtain ⟨j, none, hj, hnone, rfl⟩ := List.forall₂_cons_left_iff.1 hlater
      obtain rfl := List.forall₂_nil_left_iff.1 hnone
      have hended : IsTerminated source.toList 2 :=
        ⟨"section .text\nnop".toList, "hlt".toList, by decide, by decide⟩
      have hlast : ¬IsTerminated source.toList 3 := by
        rintro ⟨a, b, hsource, hcount⟩
        have hfeeds : source.toList.count '\n' = 2 := by decide
        rw [hsource, List.count_append, List.count_cons_self] at hfeeds
        omega
      refine ⟨hread, q, rfl, hboth, ?_⟩
      rw [htext, List.map_cons, List.map_singleton, hi.column_eq_of_isTerminated hended,
        hj.column_eq_of_not_isTerminated hlast]

end Mnemonic
