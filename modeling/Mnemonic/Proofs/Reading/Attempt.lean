import Mnemonic.Proofs.Reading.Agreement
import Mnemonic.Reader.Session

set_option autoImplicit false

/-!
# Attempts

An attempt to read follows the outline of what is ahead, phrase by phrase. Each turn of the reading
loop reads one phrase and leaves the character behind it; when that character is a separator it is the
next phrase, so nothing of the text is lost.

Main statements: an attempt ends as the outline says (`ends_readItems`), with the program of the
outline at the end of the text or with its error where it fails; so reading a text with the cursor is
reading its outline (`read_eq_outline`).
-/

namespace Mnemonic

open Text Scanner

namespace Session

/-! ## One turn of the loop -/

theorem readItems_of_nil {s : Session} (h : s.scanner.ahead = []) :
    s.readItems = (.ok s.program, { s with program := .empty }) := by
  rw [readItems]
  split
  · rfl
  · rename_i heq
    simp [h] at heq

theorem readItems_of_error {s : Session} {c : Char} {cs : List Char} {e : SyntaxError}
    {moved : Scanner} (h : s.scanner.ahead = c :: cs)
    (hitem : Scan.item s.active c s.scanner = .error e moved) :
    s.readItems = (.error e, { s with scanner := moved }) := by
  rw [readItems]
  split
  · rename_i heq
    simp [h] at heq
  · rename_i c' cs' heq
    obtain ⟨rfl, rfl⟩ := List.cons.inj (h.symm.trans heq)
    split
    · rename_i e' moved' hitem'
      obtain ⟨rfl, rfl⟩ := EStateM.Result.error.inj (hitem.symm.trans hitem')
      rfl
    · rename_i hitem'
      simp [hitem] at hitem'

theorem readItems_of_ok {s : Session} {c : Char} {cs : List Char} {found : Option Item}
    {moved : Scanner} (h : s.scanner.ahead = c :: cs)
    (hitem : Scan.item s.active c s.scanner = .ok found moved) :
    s.readItems = readItems { s.recordIfAny found with scanner := moved.skip } := by
  rw [readItems]
  split
  · rename_i heq
    simp [h] at heq
  · rename_i c' cs' heq
    obtain ⟨rfl, rfl⟩ := List.cons.inj (h.symm.trans heq)
    split
    · rename_i hitem'
      simp [hitem] at hitem'
    · rename_i found' moved' hitem'
      obtain ⟨rfl, rfl⟩ := EStateM.Result.ok.inj (hitem.symm.trans hitem')
      rfl

/-- To record what a phrase says is to add it to the program and to the active section. -/
theorem recordIfAny_item? (s : Session) (before : List Char) (p : Phrase) :
    s.recordIfAny (p.item? before) =
      ⟨s.scanner, p.section?.or s.active, s.program ++ .ofItems (p.item? before).toList⟩ := by
  cases p <;>
    simp [recordIfAny, record, Phrase.item?, Phrase.section?, Program.append_def, Program.ofItems,
      Program.pushData, Program.pushInstruction, List.filterMap_cons, Item.datum?, Item.instruction?]

/-- A separator says nothing, so leaving it unread changes nothing that is read. -/
theorem readItems_skip {before : List Char} {c : Char} (cs : List Char) (h : isSeparator c = true)
    (active : Option Section) (program : Program) :
    readItems ⟨(between before (c :: cs)).skip, active, program⟩ =
      readItems ⟨between before (c :: cs), active, program⟩ := by
  have hitem : Scan.item active c (between before (c :: cs)) =
      .ok none (between before (c :: cs)) := by
    rw [Scan.item, if_pos h]
    rfl
  rw [readItems_of_ok (s := ⟨between before (c :: cs), active, program⟩) rfl hitem]
  rfl

/-! ## A whole attempt -/

/-- How an attempt ends behind some text, when the rest of the text has a given outline. -/
inductive Ends (active : Option Section) (program : Program) (before : List Char) (o : Outline) :
    Except SyntaxError Program × Session → Prop
  | finished {scanner : Scanner} (h : o.failure = none) (hspent : scanner.Spent) :
      Ends active program before o
        (.ok (program ++ .ofItems (Phrase.items before o.phrases)),
          ⟨scanner, Section.activeAfter active (Phrase.items before o.phrases), .empty⟩)
  | stopped {f : Phrase.Failure} (h : o.failure = some f) :
      Ends active program before o
        (.error (f.error (before ++ o.text)),
          ⟨between (before ++ o.text ++ f.passed) f.ahead,
            Section.activeAfter active (Phrase.items before o.phrases),
            program ++ .ofItems (Phrase.items before o.phrases)⟩)

/-- One phrase more in front. -/
theorem Ends.cons {active : Option Section} {program : Program} {before : List Char} {p : Phrase}
    {later : Outline} {r : Except SyntaxError Program × Session}
    (h : Ends (p.section?.or active) (program ++ .ofItems (p.item? before).toList)
      (before ++ p.text) later r) :
    Ends active program before ⟨p :: later.phrases, later.failure⟩ r := by
  have htext : before ++ Outline.text ⟨p :: later.phrases, later.failure⟩ =
      before ++ p.text ++ later.text := by
    rw [Outline.text_cons, List.append_assoc]
  rw [← Section.activeAfter_item? active before p] at h
  cases h with
  | finished hfailure hspent =>
      rw [Program.append_assoc, ← Program.ofItems_append, ← Section.activeAfter_append]
      exact .finished hfailure hspent
  | stopped hfailure =>
      rw [Program.append_assoc, ← Program.ofItems_append, ← Section.activeAfter_append, ← htext]
      exact .stopped hfailure

/-- With nothing ahead there is nothing to read. -/
theorem ends_of_spent {scanner : Scanner} (h : scanner.Spent) (active : Option Section)
    (program : Program) (before : List Char) :
    Ends active program before ⟨[], none⟩ (readItems ⟨scanner, active, program⟩) := by
  rw [readItems_of_nil h.ahead_eq]
  have hend : Ends active program before ⟨[], none⟩
      (.ok (program ++ .ofItems []), ⟨scanner, Section.activeAfter active [], .empty⟩) :=
    .finished rfl h
  rwa [Program.append_ofItems_nil, Section.activeAfter_nil] at hend

/-- The loop reads what the outline of the text ahead says. -/
theorem ends_readItems (active : Option Section) (program : Program) (before t : List Char) :
    Ends active program before (.of active before.getLast? t)
      (readItems ⟨between before t, active, program⟩) := by
  generalize hprevious : before.getLast? = previous
  induction active, previous, t using Outline.induction generalizing before program with
  | nil active previous =>
      rw [Outline.of_nil]
      exact ends_of_spent (spent_between before) active program before
  | error active previous c cs f hfirst =>
      have hagrees := Scan.agrees_item active before c cs
      rw [hprevious, hfirst] at hagrees
      have hitem : Scan.item active c (between before (c :: cs)) =
          .error (f.error before) (between (before ++ f.passed) f.ahead) := hagrees
      rw [readItems_of_error (s := ⟨between before (c :: cs), active, program⟩) rfl hitem,
        Outline.of_of_error hfirst]
      have hend : Ends active program before ⟨[], some f⟩ (.error (f.error (before ++ [])),
          ⟨between (before ++ [] ++ f.passed) f.ahead, Section.activeAfter active [],
            program ++ .ofItems []⟩) :=
        .stopped rfl
      rwa [Program.append_ofItems_nil, Section.activeAfter_nil, List.append_nil] at hend
  | ok active previous c cs p rest hfirst ih =>
      have hagrees := Scan.agrees_item active before c cs
      rw [hprevious, hfirst] at hagrees
      obtain ⟨found, hitem, hfound⟩ := hagrees
      obtain rfl : found = p.item? before := hfound
      have hopens := Phrase.opens_of_first_eq_ok hfirst
      have hlast : (before ++ p.text).getLast? = p.text.getLast? :=
        List.getLast?_append_of_ne_nil before (Phrase.text_ne_nil hopens.wellFormed)
      have hlater := ih (program ++ .ofItems (p.item? before).toList) (before ++ p.text) hlast
      rw [readItems_of_ok (s := ⟨between before (c :: cs), active, program⟩) rfl hitem,
        recordIfAny_item?, Outline.of_of_ok hfirst]
      refine Ends.cons ?_
      -- What stands behind the phrase is the character that is left unread, if the phrase has one.
      rcases Phrase.unread_eq_nil_or_singleton hopens.wellFormed with hunread | ⟨d, hunread⟩
      · have htext : p.text = p.passed := by
          rw [Phrase.text, hunread, List.append_nil]
        rw [hunread, List.nil_append, ← htext]
        cases rest with
        | nil =>
            rw [Outline.of_nil]
            exact ends_of_spent (spent_between _).skip _ _ _
        | cons d rest =>
            have hd : isSeparator d = true := hopens.maximal hunread d rfl
            rw [readItems_skip rest hd]
            exact hlater
      · have htext : p.text = p.passed ++ [d] := by
          rw [Phrase.text, hunread]
        rw [hunread, List.singleton_append, skip_between, List.append_assoc, ← htext]
        exact hlater

/-- The session at the start of a text, in a section. -/
def inSection (active : Option Section) (t : List Char) : Session := ⟨.ofText t, active, .empty⟩

/-- The first attempt reads the outline of the whole text. -/
theorem ends_read (active : Option Section) (t : List Char) :
    Ends active .empty [] (.of active none t) (read (inSection active t)) := by
  have hends := ends_readItems active .empty [] t
  rwa [← leave_ofText] at hends

theorem fst_read (active : Option Section) (t : List Char) :
    (read (inSection active t)).1 = (Outline.of active none t).answer := by
  have hends := ends_read active t
  rw [Outline.answer]
  generalize read (inSection active t) = outcome at hends
  cases hends with
  | finished h hspent => simp only [h, Program.empty_append]
  | stopped h => simp only [h, List.nil_append]

theorem active_read (active : Option Section) (t : List Char) :
    (read (inSection active t)).2.active =
      Section.activeAfter active (Phrase.items [] (Outline.of active none t).phrases) := by
  have hends := ends_read active t
  generalize read (inSection active t) = outcome at hends
  cases hends with
  | finished => rfl
  | stopped => rfl

end Session

/-- To read a text with the cursor is to read its outline. -/
theorem Program.read_eq_outline (source : String) :
    Program.read source = Outline.read source.toList :=
  Session.fst_read none source.toList

end Mnemonic
