import Mnemonic.Program.Listing
import Mnemonic.Proofs.Reading.Outline

set_option autoImplicit false

/-!
# The words of a program

A program holds spans; its words are the texts under them. They say what a program says without where it
was found, so programs that were read from different texts can be compared by them, and they can be
written down as a text again, with one statement on each line.

Main statement: the words of the program of some phrases are the words of the phrases
(`Program.wording_ofItems`).
-/

namespace Mnemonic

open Listing

/-- The words of a data entry. -/
structure Datum.Wording where
  symbol : List Char
  value : List Char
  deriving DecidableEq, Repr

/-- The words of an instruction. -/
structure Instruction.Wording where
  label : Option (List Char)
  name : List Char
  operands : List (List Char)
  deriving DecidableEq, Repr

/-- The words of a program. -/
structure Program.Wording where
  data : List Datum.Wording
  text : List Instruction.Wording
  deriving DecidableEq, Repr

/-- The texts of a data entry. -/
def Datum.wording (source : List Char) (e : Datum) : Except Misfit Datum.Wording :=
  return ⟨← e.symbol.slice source, ← e.value.slice source⟩

/-- The texts of an instruction. -/
def Instruction.wording (source : List Char) (i : Instruction) : Except Misfit Instruction.Wording :=
  return ⟨← i.label.mapM (·.slice source), ← i.name.slice source, ← i.operands.mapM (·.slice source)⟩

/-- The texts of all entries of a program. -/
def Program.wording (source : List Char) (p : Program) : Except Misfit Program.Wording :=
  return ⟨← p.data.mapM (·.wording source), ← p.text.mapM (·.wording source)⟩

/-! ## When a program has words -/

theorem Span.slice_behind_of_eq {t before word : List Char} (after : List Char)
    (h : t = before ++ word ++ after) :
    (Span.behind before word).slice t = .ok word := by
  rw [h]
  exact Span.slice_behind before word after

theorem Misfit.bind_eq_ok_iff {α β : Type} {x : Except Misfit α} {f : α → Except Misfit β} {b : β} :
    x >>= f = .ok b ↔ ∃ a, x = .ok a ∧ f a = .ok b := by
  cases x with
  | error e => simp [Bind.bind, Except.bind]
  | ok a => simp [Bind.bind, Except.bind]

theorem Datum.wording_eq_ok_iff {t : List Char} {e : Datum} {w : Datum.Wording} :
    e.wording t = .ok w ↔ e.symbol.slice t = .ok w.symbol ∧ e.value.slice t = .ok w.value := by
  obtain ⟨symbol, value⟩ := w
  simp [wording, Misfit.bind_eq_ok_iff, Pure.pure, Except.pure]

theorem Instruction.wording_eq_ok_iff {t : List Char} {i : Instruction} {w : Instruction.Wording} :
    i.wording t = .ok w ↔ i.label.mapM (·.slice t) = .ok w.label ∧ i.name.slice t = .ok w.name ∧
      i.operands.mapM (·.slice t) = .ok w.operands := by
  obtain ⟨label, name, operands⟩ := w
  simp [wording, Misfit.bind_eq_ok_iff, Pure.pure, Except.pure]

theorem Program.wording_eq_ok_iff {t : List Char} {p : Program} {w : Program.Wording} :
    p.wording t = .ok w ↔
      p.data.mapM (·.wording t) = .ok w.data ∧ p.text.mapM (·.wording t) = .ok w.text := by
  obtain ⟨data, text⟩ := w
  simp [wording, Misfit.bind_eq_ok_iff, Pure.pure, Except.pure]

/-! ## Words as a text -/

/-- Lines under the header of their section; nothing without lines. -/
def Section.withHeader (s : Section) (lines : List (List Char)) : List (List Char) :=
  if lines.isEmpty then [] else ("section ".toList ++ s.name.toList) :: lines

/-- The words of a data entry as a statement. -/
def Datum.Wording.statement (d : Datum.Wording) : List Char := d.symbol ++ ':' :: ' ' :: d.value

/-- The words as a listing shows them: the line feeds in the value are spelled out. -/
def Datum.Wording.spelled (d : Datum.Wording) : Datum.Wording :=
  { d with value := spellLineFeeds d.value }

/-- The label of an instruction as a statement has it. -/
def Instruction.Wording.labelText (i : Instruction.Wording) : List Char :=
  match i.label with
  | none => []
  | some label => label ++ [':', ' ']

/-- The words of an instruction as a statement. -/
def Instruction.Wording.statement (i : Instruction.Wording) : List Char :=
  i.labelText ++ i.name ++ i.operands.flatMap (' ' :: ·)

/-- Lines, each with a line feed at its end. -/
def Text.ofLines (lines : List (List Char)) : List Char := lines.flatMap (· ++ ['\n'])

theorem Text.ofLines_append (lines more : List (List Char)) :
    ofLines (lines ++ more) = ofLines lines ++ ofLines more :=
  List.flatMap_append

namespace Program.Wording

/-- The statements of a program, line by line. -/
def lines (w : Wording) : List (List Char) :=
  Section.data.withHeader (w.data.map (·.statement)) ++
    Section.text.withHeader (w.text.map (·.statement))

/-- A text that says the words. -/
def source (w : Wording) : List Char := Text.ofLines w.lines

/-- The words as a listing shows them: the line feeds in values are spelled out. -/
def spelled (w : Wording) : Wording :=
  { w with data := w.data.map (·.spelled) }

instance : Append Wording := ⟨fun w v => ⟨w.data ++ v.data, w.text ++ v.text⟩⟩

theorem append_def (w v : Wording) : w ++ v = ⟨w.data ++ v.data, w.text ++ v.text⟩ := rfl

theorem append_empty (w : Wording) : w ++ ⟨[], []⟩ = w := by
  simp [append_def]

end Program.Wording

/-! ## The words of phrases -/

namespace Phrase

/-- The words of the data entry that a phrase is. -/
def datumWording? : Phrase → Option Datum.Wording
  | datum symbol _ value _ => some ⟨symbol, value⟩
  | _ => none

/-- The words of the instruction that a phrase is. -/
def instructionWording? : Phrase → Option Instruction.Wording
  | instruction label name operands _ => some ⟨label.map Prod.fst, name, operands.map Prod.snd⟩
  | _ => none

/-- The words of phrases. -/
def wording (ps : List Phrase) : Program.Wording :=
  ⟨ps.filterMap datumWording?, ps.filterMap instructionWording?⟩

theorem wording_append (ps qs : List Phrase) : wording (ps ++ qs) = wording ps ++ wording qs := by
  simp only [wording, List.filterMap_append]
  rfl

end Phrase

namespace Program

theorem wording_append {p q : Program} {t : List Char} {w v : Wording} (hp : p.wording t = .ok w)
    (hq : q.wording t = .ok v) : (p ++ q).wording t = .ok (w ++ v) := by
  rw [wording_eq_ok_iff] at hp hq ⊢
  rw [append_def, Wording.append_def, List.mapM_append, List.mapM_append, hp.1, hp.2, hq.1, hq.2]
  exact ⟨rfl, rfl⟩

theorem mapM_slice_operandSpans {t before : List Char} {operands : List (List Char × List Char)}
    (after : List Char) (h : t = before ++ Phrase.operandText operands ++ after) :
    (Phrase.operandSpans before operands).mapM (·.slice t) = .ok (operands.map Prod.snd) := by
  induction operands generalizing before with
  | nil => rfl
  | cons o operands ih =>
      obtain ⟨gap, token⟩ := o
      have ht : t = before ++ gap ++ token ++ (Phrase.operandText operands ++ after) := by
        simpa [Phrase.operandText] using h
      have hlater : t = before ++ gap ++ token ++ Phrase.operandText operands ++ after := by
        rw [ht]
        simp
      rw [Phrase.operandSpans, List.mapM_cons, Span.slice_behind_of_eq _ ht, ih hlater]
      rfl

theorem wording_singleton_data {t : List Char} {e : Datum} {d : Datum.Wording}
    (h : e.wording t = .ok d) : (⟨[e], []⟩ : Program).wording t = .ok ⟨[d], []⟩ := by
  rw [wording_eq_ok_iff, List.mapM_cons, h]
  exact ⟨rfl, rfl⟩

theorem wording_singleton_text {t : List Char} {i : Instruction} {w : Instruction.Wording}
    (h : i.wording t = .ok w) : (⟨[], [i]⟩ : Program).wording t = .ok ⟨[], [w]⟩ := by
  rw [wording_eq_ok_iff, List.mapM_cons, h]
  exact ⟨rfl, rfl⟩

/-- The words of what one phrase says are the words of the phrase. -/
theorem wording_item? {t before : List Char} {p : Phrase} (after : List Char)
    (h : t = before ++ p.text ++ after) :
    (ofItems (p.item? before).toList).wording t = .ok (Phrase.wording [p]) := by
  cases p with
  | blank c => rfl
  | comment remark => rfl
  | directive gap s => rfl
  | datum symbol gap value dropped =>
      refine wording_singleton_data (Datum.wording_eq_ok_iff.2 ⟨?_, ?_⟩)
      · apply Span.slice_behind_of_eq (':' :: gap ++ value ++ dropped ++ after)
        simpa [Phrase.text, Phrase.passed, Phrase.unread] using h
      · apply Span.slice_behind_of_eq (dropped ++ after)
        simpa [Phrase.text, Phrase.passed, Phrase.unread] using h
  | instruction label name operands trailing =>
      refine wording_singleton_text (Instruction.wording_eq_ok_iff.2 ⟨?_, ?_, ?_⟩)
      · cases label with
        | none => rfl
        | some l =>
            have hlabel : (Span.behind before l.1).slice t = .ok l.1 := by
              apply Span.slice_behind_of_eq
                (':' :: l.2 ++ name ++ Phrase.operandText operands ++ trailing ++ after)
              simpa [Phrase.text, Phrase.passed, Phrase.unread, Phrase.labelText] using h
            change (some (Span.behind before l.1)).mapM (·.slice t) = .ok (some l.1)
            rw [Option.mapM_some, hlabel]
            rfl
      · apply Span.slice_behind_of_eq (Phrase.operandText operands ++ trailing ++ after)
        simpa [Phrase.text, Phrase.passed, Phrase.unread] using h
      · apply mapM_slice_operandSpans (trailing ++ after)
        simpa [Phrase.text, Phrase.passed, Phrase.unread] using h

/-- The words of the program of some phrases, in the text of the phrases, are the words of the
phrases. -/
theorem wording_ofItems {t before : List Char} {ps : List Phrase} (after : List Char)
    (h : t = before ++ ps.flatMap Phrase.text ++ after) :
    (ofItems (Phrase.items before ps)).wording t = .ok (Phrase.wording ps) := by
  induction ps generalizing before with
  | nil => rfl
  | cons p ps ih =>
      have hfirst : t = before ++ p.text ++ (ps.flatMap Phrase.text ++ after) := by simpa using h
      have hlater : t = before ++ p.text ++ ps.flatMap Phrase.text ++ after := by
        rw [hfirst]
        simp
      rw [Phrase.items, ofItems_append, ← List.singleton_append, Phrase.wording_append]
      exact wording_append (wording_item? _ hfirst) (ih hlater)

end Program

end Mnemonic
