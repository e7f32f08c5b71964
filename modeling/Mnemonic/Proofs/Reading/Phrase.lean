import Mathlib.Data.List.Basic
import Mathlib.Data.List.TakeWhile
import Mnemonic.Proofs.Reading.Motion
import Mnemonic.Reader.Statement

set_option autoImplicit false

/-!
# Phrases

What a text says can be told without a cursor, from the remaining text alone. At each statement
position stands a *phrase*: a separator, a comment, a section directive, a data entry or an
instruction. A phrase is kept as the parts of the text that it is made of, so it knows no offsets;
these follow from the length of the text in front of it.

Main statements: the phrase that is read at the start of a text opens it, which means that the phrase
and what remains make up the text, that the parts of the phrase are what their names say, and that the
phrase could not have been longer (`opens_of_first_eq_ok`); and where no phrase can be read, what was
passed and what is ahead make up the text (`append_of_first_eq_error`).
-/

namespace Mnemonic

open Text

/-- What stands at one statement position of a text, cut into its parts. -/
inductive Phrase where
  /-- a separator, or a slash that starts no comment -/
  | blank (c : Char)
  /-- a comment, up to its line feed -/
  | comment (remark : List Char)
  /-- the keyword, separators, the name of a section -/
  | directive (gap : List Char) (s : Section)
  /-- a symbol, a colon, separators, a value, and the character behind a closing quote -/
  | datum (symbol gap value dropped : List Char)
  /-- a label, a colon and separators, if there is a label; then a name, operands, each behind its
  blanks, and the blanks at the end of the line -/
  | instruction (label : Option (List Char × List Char)) (name : List Char)
      (operands : List (List Char × List Char)) (trailing : List Char)

namespace Phrase

/-- Why no phrase can be read: the fault, the bytes in front of the place that is reported, the text
that was passed until the fault was noticed, and what is ahead then. -/
structure Failure where
  fault : SyntaxFault
  reported : List UInt8
  passed : List Char
  ahead : List Char

namespace Failure

/-- The text ends behind a word that needs another one. The last byte is reported, unless the word
itself is what the text ends with. -/
def atEnd (word ahead : List Char) : Failure where
  fault := .unexpectedEnd
  reported := if ahead = [] then encode word else (encode (word ++ ahead)).dropLast
  passed := word ++ ahead
  ahead := []

/-- The error that a failure is, behind some text. -/
def error (f : Failure) (before : List Char) : SyntaxError :=
  ⟨f.fault, Position.behind (encode before ++ f.reported)⟩

end Failure

/-! ## The parts of a phrase -/

/-- A label with its colon and the separators behind it. -/
def labelText : Option (List Char × List Char) → List Char
  | none => []
  | some (label, gap) => label ++ ':' :: gap

/-- Operands, each behind its blanks. -/
def operandText (operands : List (List Char × List Char)) : List Char :=
  operands.flatMap fun (gap, token) => gap ++ token

/-- The part of a phrase that is passed over when it is read. -/
def passed : Phrase → List Char
  | blank _ => []
  | comment remark => remark
  | directive gap s => sectionKeyword ++ gap ++ s.name.toList
  | datum symbol gap value _ => symbol ++ ':' :: gap ++ value
  | instruction label name operands trailing =>
      labelText label ++ name ++ operandText operands ++ trailing

/-- The part of a phrase that is left unread. -/
def unread : Phrase → List Char
  | blank c => [c]
  | datum _ _ _ dropped => dropped
  | _ => []

/-- The text of a phrase. -/
def text (p : Phrase) : List Char := p.passed ++ p.unread

/-- The section that is active behind a phrase, if the phrase says so. -/
def section? : Phrase → Option Section
  | directive _ s => some s
  | _ => none

/-! ## Well-formed phrases -/

/-- Characters that part two words. -/
def IsGap (t : List Char) : Prop := t ≠ [] ∧ ∀ c ∈ t, isSeparator c = true

/-- Characters without a separator among them. -/
def IsUnparted (t : List Char) : Prop := ∀ c ∈ t, isSeparator c = false

/-- A word, or a quoted string with the character that is dropped behind it. -/
def IsValue (value dropped : List Char) : Prop :=
  (value ≠ [] ∧ IsUnparted value ∧ dropped = []) ∨
    ∃ quote body, (quote = '\'' ∨ quote = '"') ∧ value = quote :: body ++ [quote] ∧
      dropped.length ≤ 1

/-- An operand behind its blanks. -/
def IsOperand (operand : List Char × List Char) : Prop :=
  operand.1 ≠ [] ∧ (∀ c ∈ operand.1, isBlank c = true ∧ c ≠ '\n') ∧
    operand.2 ≠ [] ∧ ∀ c ∈ operand.2, isOperandChar c = true

/-- The parts of a phrase are what their names say. -/
def WellFormed : Phrase → Prop
  | blank c => isSeparator c = true ∨ c = '/'
  | comment remark => remark ≠ [] ∧ '\n' ∉ remark
  | directive gap _ => IsGap gap
  | datum symbol gap value dropped => IsUnparted symbol ∧ IsGap gap ∧ IsValue value dropped
  | instruction label name operands trailing =>
      (∀ l ∈ label, IsUnparted l.1 ∧ IsGap l.2) ∧ name ≠ [] ∧ IsUnparted name ∧
        (∀ o ∈ operands, IsOperand o) ∧ ∀ c ∈ trailing, isBlank c = true ∧ c ≠ '\n'

/-- The text is at its end or goes on with a separator. -/
def AtSeparator (t : List Char) : Prop := ∀ c ∈ t.head?, isSeparator c = true

/-- The phrase stands at the start of a text and is as long as it can be there. -/
structure Opens (p : Phrase) (t rest : List Char) : Prop where
  text_append : t = p.text ++ rest
  wellFormed : p.WellFormed
  maximal : p.unread = [] → AtSeparator rest

/-! ## Reading a phrase -/

/-- The separators at the start of a text, the word behind them, and what remains; there is no such
word in a text of separators only. -/
def nextWord? (t : List Char) : Option (List Char × List Char × List Char) :=
  match t.dropWhile isSeparator with
  | [] => none
  | c :: cs =>
      some (t.takeWhile isSeparator, (c :: cs).takeWhile (!isSeparator ·),
        (c :: cs).dropWhile (!isSeparator ·))

/-- The characters of an instruction's line. -/
def fitsLine (c : Char) : Bool := isBlank c || isOperandChar c

/-- No operand holds a blank. -/
theorem isBlank_of_isOperandChar {c : Char} (h : isOperandChar c = true) : isBlank c = false := by
  have hcodes : (decide (65 ≤ c.val ∧ c.val ≤ 90) || 97 ≤ c.val && c.val ≤ 122 ||
      48 ≤ c.val && c.val ≤ 57 || c == '_' || c == '-') = true := h
  simp only [Bool.or_eq_true, Bool.and_eq_true, decide_eq_true_eq, beq_iff_eq,
    UInt32.le_iff_toNat_le] at hcodes
  have hrange : (65 ≤ c.toNat ∧ c.toNat ≤ 90) ∨ (97 ≤ c.toNat ∧ c.toNat ≤ 122) ∨
      (48 ≤ c.toNat ∧ c.toNat ≤ 57) ∨ c.toNat = 95 ∨ c.toNat = 45 := by
    rcases hcodes with (((hupper | hlower) | hdigit) | rfl) | rfl
    · exact .inl hupper
    · exact .inr (.inl hlower)
    · exact .inr (.inr (.inl hdigit))
    · exact .inr (.inr (.inr (.inl rfl)))
    · exact .inr (.inr (.inr (.inr rfl)))
  simp only [isBlank, blankRanges, List.any_cons, List.any_nil, Bool.or_false, Bool.or_eq_false_iff,
    Bool.and_eq_false_iff, decide_eq_false_iff_not, not_le]
  omega

/-- A run that was dropped ends where its property does. -/
theorem eq_false_of_dropWhile {p : Char → Bool} {t cs : List Char} {c : Char}
    (h : t.dropWhile p = c :: cs) : p c = false := by
  have hhead := List.head_dropWhile_not p (l := t) (by simp [h])
  simpa [h] using hhead

theorem eq_false_of_mem_head?_dropWhile {p : Char → Bool} {t : List Char} :
    ∀ c ∈ (t.dropWhile p).head?, p c = false := by
  intro c hc
  obtain ⟨cs, hcs⟩ := List.head?_eq_some_iff.1 hc
  exact eq_false_of_dropWhile hcs

/-- A line is made of the blanks in front, the run behind them, and what remains. -/
theorem line_eq_of_dropWhile {line cs : List Char} {c : Char}
    (h : line.dropWhile isBlank = c :: cs) :
    line = line.takeWhile isBlank ++ (c :: cs).takeWhile (!isBlank ·) ++
      (c :: cs).dropWhile (!isBlank ·) := by
  rw [List.append_assoc, List.takeWhile_append_dropWhile, ← h, List.takeWhile_append_dropWhile]

theorem length_afterToken_lt {line cs : List Char} {c : Char}
    (h : line.dropWhile isBlank = c :: cs) :
    ((c :: cs).dropWhile (!isBlank ·)).length < line.length := by
  have hc : isBlank c = false := eq_false_of_dropWhile h
  have hcs := cs.length_dropWhile_le (!isBlank ·)
  have hline := line.length_dropWhile_le isBlank
  rw [h, List.length_cons] at hline
  rw [List.dropWhile_cons_of_pos (by simp [hc])]
  omega

/-- The maximal runs of a line that hold no blank, each with the blanks in front of it, and the blanks
at the end. -/
def cutAtBlanks (line : List Char) : List (List Char × List Char) × List Char :=
  match _h : line.dropWhile isBlank with
  | [] => ([], line)
  | c :: cs =>
      let later := cutAtBlanks ((c :: cs).dropWhile (!isBlank ·))
      ((line.takeWhile isBlank, (c :: cs).takeWhile (!isBlank ·)) :: later.1, later.2)
termination_by line.length
decreasing_by exact length_afterToken_lt _h

/-- The text up to the first quote that does not follow a backslash, and what remains behind it. -/
def closeQuote? (quote previous : Char) : List Char → Option (List Char × List Char)
  | [] => none
  | c :: cs =>
      if c = quote ∧ previous ≠ '\\' then
        some ([], cs)
      else
        (closeQuote? quote c cs).map fun (body, rest) => (c :: body, rest)

/-- A section directive, behind its keyword. -/
def directiveFrom (active : Option Section) (rest : List Char) :
    Except Failure (Phrase × List Char) :=
  match nextWord? rest with
  | none => .error (.atEnd sectionKeyword rest)
  | some (gap, name, rest) =>
      let passed := sectionKeyword ++ gap ++ name
      match Section.ofName? (String.ofList name) with
      | none => .error ⟨.invalidSectionName (String.ofList name), encode passed, passed, rest⟩
      | some s =>
          if active = some s then
            .error ⟨.sectionRedefinition (String.ofList name), encode passed, passed, rest⟩
          else
            .ok (directive gap s, rest)

/-- An instruction, behind its name: the operands are on the rest of the line. -/
def operandsFrom (label : Option (List Char × List Char)) (name rest : List Char) :
    Except Failure (Phrase × List Char) :=
  let head := labelText label ++ name
  let line := rest.takeWhile (· != '\n')
  let rest := rest.dropWhile (· != '\n')
  match line.dropWhile fitsLine with
  | bad :: _ =>
      .error ⟨.invalidOperandCharacter bad, encode (head ++ line.takeWhile fitsLine), head ++ line,
        rest⟩
  | [] => .ok (instruction label name (cutAtBlanks line).1 (cutAtBlanks line).2, rest)

/-- An instruction, behind its first word. -/
def instructionFrom (word rest : List Char) : Except Failure (Phrase × List Char) :=
  if word.getLast? = some ':' then
    match nextWord? rest with
    | none => .error (.atEnd word rest)
    | some (gap, name, rest) =>
        if name = sectionKeyword then
          let passed := word ++ gap ++ name
          .error ⟨.illegalInstruction, encode passed, passed, rest⟩
        else
          operandsFrom (some (word.dropLast, gap)) name rest
  else
    operandsFrom none word rest

/-- A data entry, behind its first word. The character behind a closing quote goes with the entry. -/
def datumFrom (word rest : List Char) : Except Failure (Phrase × List Char) :=
  if word.getLast? = some ':' then
    let gap := rest.takeWhile isSeparator
    match rest.dropWhile isSeparator with
    | [] => .error (.atEnd word rest)
    | c :: cs =>
        if c = '\'' ∨ c = '"' then
          match closeQuote? c c cs with
          | none => .error (.atEnd word rest)
          | some (body, rest) =>
              .ok (datum word.dropLast gap (c :: body ++ [c]) (rest.take 1), rest.drop 1)
        else
          .ok (datum word.dropLast gap ((c :: cs).takeWhile (!isSeparator ·)) [],
            (c :: cs).dropWhile (!isSeparator ·))
  else
    .error ⟨.missingDataSymbol, encode word, word, rest⟩

/-- A statement, behind its first word. -/
def statementFrom (active : Option Section) (word rest : List Char) :
    Except Failure (Phrase × List Char) :=
  if word = sectionKeyword then
    directiveFrom active rest
  else
    match active with
    | none => .error ⟨.statementBeforeSection, encode word, word, rest⟩
    | some .text => instructionFrom word rest
    | some .data => datumFrom word rest

/-- The character starts a comment: a slash does so behind another slash. -/
def startsComment (previous : Option Char) (c : Char) : Bool :=
  c == '#' || c == ';' || (c == '/' && previous == some '/')

/-- The phrase at the start of a text, behind a given character, and what remains. -/
def first (active : Option Section) (previous : Option Char) (c : Char) (cs : List Char) :
    Except Failure (Phrase × List Char) :=
  if isSeparator c then
    .ok (blank c, cs)
  else if startsComment previous c then
    .ok (comment ((c :: cs).takeWhile (· != '\n')), (c :: cs).dropWhile (· != '\n'))
  else if c = '/' then
    .ok (blank c, cs)
  else
    statementFrom active ((c :: cs).takeWhile (!isSeparator ·)) ((c :: cs).dropWhile (!isSeparator ·))

theorem first_of_isSeparator {c : Char} (h : isSeparator c = true) (active : Option Section)
    (previous : Option Char) (cs : List Char) : first active previous c cs = .ok (blank c, cs) := by
  rw [first, if_pos h]

/-! ## What is read opens the text -/

theorem atSeparator_dropWhile_word (t : List Char) :
    AtSeparator (t.dropWhile (!isSeparator ·)) := by
  intro c hc
  simpa using eq_false_of_mem_head?_dropWhile c hc

theorem atSeparator_dropWhile_line (t : List Char) : AtSeparator (t.dropWhile (· != '\n')) := by
  intro c hc
  have hlf : c = '\n' := by simpa using eq_false_of_mem_head?_dropWhile c hc
  rw [hlf]
  rfl

theorem isUnparted_takeWhile (t : List Char) : IsUnparted (t.takeWhile (!isSeparator ·)) := by
  intro c hc
  simpa using List.mem_takeWhile_imp hc

theorem isUnparted_dropLast {t : List Char} (h : IsUnparted t) : IsUnparted t.dropLast :=
  fun c hc => h c (List.dropLast_subset t hc)

theorem lineFeed_notMem_of_isUnparted {t : List Char} (h : IsUnparted t) : '\n' ∉ t :=
  fun hmem => absurd (h '\n' hmem) (by decide)

/-- Separators that something follows, where a word has just ended, are a gap. -/
theorem isGap_of_append {gap t : List Char} {c : Char} {cs : List Char} (hat : AtSeparator t)
    (ht : t = gap ++ c :: cs) (hc : isSeparator c = false)
    (hgap : ∀ d ∈ gap, isSeparator d = true) : IsGap gap := by
  refine ⟨?_, hgap⟩
  rintro rfl
  have hsep : isSeparator c = true := hat c (by simp [ht])
  rw [hc] at hsep
  exact Bool.false_ne_true hsep

theorem isSeparator_of_mem_takeWhile {t : List Char} :
    ∀ c ∈ t.takeWhile isSeparator, isSeparator c = true :=
  fun _ hc => List.mem_takeWhile_imp hc

theorem nextWord?_eq_some {t gap word rest : List Char}
    (h : nextWord? t = some (gap, word, rest)) (hat : AtSeparator t) :
    t = gap ++ word ++ rest ∧ IsGap gap ∧ word ≠ [] ∧ IsUnparted word ∧ AtSeparator rest := by
  unfold nextWord? at h
  split at h
  · simp at h
  · rename_i c cs hdrop
    obtain ⟨rfl, rfl, rfl⟩ : t.takeWhile isSeparator = gap ∧
        (c :: cs).takeWhile (!isSeparator ·) = word ∧
        (c :: cs).dropWhile (!isSeparator ·) = rest := by simpa using h
    have hc := eq_false_of_dropWhile hdrop
    have ht : t = t.takeWhile isSeparator ++ c :: cs := by
      rw [← hdrop, List.takeWhile_append_dropWhile]
    refine ⟨?_, isGap_of_append hat ht hc isSeparator_of_mem_takeWhile, ?_,
      isUnparted_takeWhile _, atSeparator_dropWhile_word _⟩
    · rw [List.append_assoc, List.takeWhile_append_dropWhile, ← ht]
    · rw [List.takeWhile_cons_of_pos (by simp [hc])]
      exact List.cons_ne_nil _ _

theorem cutAtBlanks_of_nil {line : List Char} (h : line.dropWhile isBlank = []) :
    cutAtBlanks line = ([], line) := by
  rw [cutAtBlanks]
  split
  · rfl
  · rename_i heq
    simp [h] at heq

theorem cutAtBlanks_of_cons {line : List Char} {c : Char} {cs : List Char}
    (h : line.dropWhile isBlank = c :: cs) :
    cutAtBlanks line =
      ((line.takeWhile isBlank, (c :: cs).takeWhile (!isBlank ·)) ::
          (cutAtBlanks ((c :: cs).dropWhile (!isBlank ·))).1,
        (cutAtBlanks ((c :: cs).dropWhile (!isBlank ·))).2) := by
  rw [cutAtBlanks]
  split
  · rename_i heq
    simp [h] at heq
  · rename_i c' cs' heq
    obtain ⟨rfl, rfl⟩ := List.cons.inj (h.symm.trans heq)
    rfl

theorem text_cutAtBlanks (line : List Char) :
    operandText (cutAtBlanks line).1 ++ (cutAtBlanks line).2 = line := by
  induction line using cutAtBlanks.induct with
  | case1 line h =>
      rw [cutAtBlanks_of_nil h]
      rfl
  | case2 line c cs h ih =>
      rw [cutAtBlanks_of_cons h, operandText, List.flatMap_cons, List.append_assoc, ← operandText,
        ih, List.append_assoc, List.takeWhile_append_dropWhile, ← h,
        List.takeWhile_append_dropWhile]

/-- In a line that fits, every run between blanks is an operand. -/
theorem isOperand_of_mem_cutAtBlanks {line : List Char}
    (hfits : ∀ c ∈ line, fitsLine c = true ∧ c ≠ '\n')
    (hhead : ∀ c ∈ line.head?, isBlank c = true) :
    ∀ o ∈ (cutAtBlanks line).1, IsOperand o := by
  induction line using cutAtBlanks.induct with
  | case1 line h =>
      rw [cutAtBlanks_of_nil h]
      intro o ho
      simp at ho
  | case2 line c cs h ih =>
      have hc : isBlank c = false := eq_false_of_dropWhile h
      have hmem : ∀ d ∈ c :: cs, d ∈ line := fun d hd =>
        List.dropWhile_subset isBlank (by rw [h]; exact hd)
      rw [cutAtBlanks_of_cons h]
      intro o ho
      rcases List.mem_cons.1 ho with rfl | ho
      · refine ⟨?_, ?_, ?_, ?_⟩
        · intro hnil
          cases line with
          | nil => simp at h
          | cons d line =>
              have hd : isBlank d = true := hhead d rfl
              simp [List.takeWhile_cons_of_pos hd] at hnil
        · intro d hd
          exact ⟨List.mem_takeWhile_imp hd, (hfits d (List.takeWhile_subset isBlank hd)).2⟩
        · rw [List.takeWhile_cons_of_pos (by simp [hc])]
          exact List.cons_ne_nil _ _
        · intro d hd
          have hblank : isBlank d = false := by simpa using List.mem_takeWhile_imp hd
          have hfit := (hfits d (hmem d (List.takeWhile_subset (!isBlank ·) hd))).1
          simpa [fitsLine, hblank] using hfit
      · refine ih (fun d hd => hfits d (hmem d (List.dropWhile_subset _ hd))) ?_ o ho
        intro d hd
        simpa using eq_false_of_mem_head?_dropWhile d hd

theorem isBlank_of_mem_trailing {line : List Char} :
    ∀ c ∈ (cutAtBlanks line).2, isBlank c = true ∧ c ∈ line := by
  induction line using cutAtBlanks.induct with
  | case1 line h =>
      rw [cutAtBlanks_of_nil h]
      exact fun c hc => ⟨List.dropWhile_eq_nil_iff.1 h c hc, hc⟩
  | case2 line c cs h ih =>
      rw [cutAtBlanks_of_cons h]
      intro d hd
      refine ⟨(ih d hd).1, List.dropWhile_subset isBlank ?_⟩
      rw [h]
      exact List.dropWhile_subset _ (ih d hd).2

theorem closeQuote?_eq_some {quote previous : Char} {t body rest : List Char}
    (h : closeQuote? quote previous t = some (body, rest)) : t = body ++ quote :: rest := by
  induction t generalizing previous body with
  | nil => simp [closeQuote?] at h
  | cons c cs ih =>
      unfold closeQuote? at h
      split at h
      · rename_i hclose
        obtain ⟨rfl, rfl⟩ : [] = body ∧ cs = rest := by simpa using h
        rw [hclose.1, List.nil_append]
      · obtain ⟨⟨body', rest'⟩, hlater, heq⟩ := Option.map_eq_some_iff.1 h
        obtain ⟨rfl, rfl⟩ := Prod.mk.inj heq
        rw [ih hlater, List.cons_append]

/-- Behind the keyword of a section directive. -/
theorem opens_of_directiveFrom {active : Option Section} {rest rest' : List Char} {p : Phrase}
    (hat : AtSeparator rest) (h : directiveFrom active rest = .ok (p, rest')) :
    Opens p (sectionKeyword ++ rest) rest' := by
  unfold directiveFrom at h
  split at h
  · simp at h
  · rename_i gap name ahead hword
    obtain ⟨rfl, hgap, -, -, hstop⟩ := nextWord?_eq_some hword hat
    dsimp only at h
    split at h
    · simp at h
    · rename_i s hs
      split at h
      · simp at h
      · obtain ⟨rfl, rfl⟩ : directive gap s = p ∧ ahead = rest' := by simpa using h
        have hname : name = s.name.toList := by
          rw [Section.ofName?_eq_some_iff] at hs
          rw [← hs, String.toList_ofList]
        refine ⟨?_, hgap, fun _ => hstop⟩
        simp [text, passed, unread, hname]

/-- Behind the name of an instruction. -/
theorem opens_of_operandsFrom {label : Option (List Char × List Char)}
    {name rest rest' : List Char} {p : Phrase} (hname : name ≠ []) (hword : IsUnparted name)
    (hlabel : ∀ l ∈ label, IsUnparted l.1 ∧ IsGap l.2) (hat : AtSeparator rest)
    (h : operandsFrom label name rest = .ok (p, rest')) :
    Opens p (labelText label ++ name ++ rest) rest' := by
  unfold operandsFrom at h
  dsimp only at h
  split at h
  · simp at h
  · rename_i hfit
    obtain ⟨rfl, rfl⟩ : instruction label name (cutAtBlanks (rest.takeWhile (· != '\n'))).1
        (cutAtBlanks (rest.takeWhile (· != '\n'))).2 = p ∧
        rest.dropWhile (· != '\n') = rest' := by simpa using h
    have hfits : ∀ c ∈ rest.takeWhile (· != '\n'), fitsLine c = true ∧ c ≠ '\n' := by
      intro c hc
      refine ⟨List.dropWhile_eq_nil_iff.1 hfit c hc, ?_⟩
      simpa using List.mem_takeWhile_imp hc
    have hhead : ∀ c ∈ (rest.takeWhile (· != '\n')).head?, isBlank c = true := by
      intro c hc
      cases rest with
      | nil => simp at hc
      | cons d rest =>
          rw [List.takeWhile_cons] at hc
          split at hc
          · obtain rfl : d = c := by simpa using hc
            exact isBlank_of_isSeparator (hat d rfl)
          · simp at hc
    refine ⟨?_, ⟨hlabel, hname, hword, isOperand_of_mem_cutAtBlanks hfits hhead, ?_⟩,
      fun _ => atSeparator_dropWhile_line rest⟩
    · have hline := text_cutAtBlanks (rest.takeWhile (· != '\n'))
      simp only [text, passed, unread, List.append_nil, List.append_assoc]
      rw [← List.append_assoc (operandText _), hline, List.takeWhile_append_dropWhile]
    · intro c hc
      obtain ⟨hblank, hmem⟩ := isBlank_of_mem_trailing c hc
      exact ⟨hblank, (hfits c hmem).2⟩

theorem dropLast_append_colon {word : List Char} (h : word.getLast? = some ':') :
    word.dropLast ++ [':'] = word :=
  List.dropLast_append_getLast? ':' h

/-- Behind the first word of an instruction. -/
theorem opens_of_instructionFrom {word rest rest' : List Char} {p : Phrase} (hne : word ≠ [])
    (hword : IsUnparted word) (hat : AtSeparator rest)
    (h : instructionFrom word rest = .ok (p, rest')) : Opens p (word ++ rest) rest' := by
  unfold instructionFrom at h
  split at h
  · rename_i hcolon
    split at h
    · simp at h
    · rename_i gap name ahead hnext
      obtain ⟨rfl, hgap, hname, hunparted, hstop⟩ := nextWord?_eq_some hnext hat
      split at h
      · simp at h
      · have hlabel : ∀ l ∈ some (word.dropLast, gap), IsUnparted l.1 ∧ IsGap l.2 := by
          intro l hl
          obtain rfl : (word.dropLast, gap) = l := by simpa using hl
          exact ⟨isUnparted_dropLast hword, hgap⟩
        have hopens := opens_of_operandsFrom hname hunparted hlabel hstop h
        have htext : word ++ (gap ++ name ++ ahead) =
            labelText (some (word.dropLast, gap)) ++ name ++ ahead :=
          calc word ++ (gap ++ name ++ ahead)
              = word.dropLast ++ [':'] ++ (gap ++ name ++ ahead) := by
                rw [dropLast_append_colon hcolon]
            _ = labelText (some (word.dropLast, gap)) ++ name ++ ahead := by simp [labelText]
        rwa [htext]
  · have hopens : Opens p (labelText none ++ word ++ rest) rest' :=
      opens_of_operandsFrom hne hword (by simp) hat h
    exact hopens

/-- Behind the first word of a data entry. -/
theorem opens_of_datumFrom {word rest rest' : List Char} {p : Phrase} (hword : IsUnparted word)
    (hat : AtSeparator rest) (h : datumFrom word rest = .ok (p, rest')) :
    Opens p (word ++ rest) rest' := by
  unfold datumFrom at h
  split at h
  · rename_i hcolon
    dsimp only at h
    split at h
    · simp at h
    · rename_i c cs hdrop
      have hc := eq_false_of_dropWhile hdrop
      have hrest : rest = rest.takeWhile isSeparator ++ c :: cs := by
        rw [← hdrop, List.takeWhile_append_dropWhile]
      have hgap := isGap_of_append hat hrest hc isSeparator_of_mem_takeWhile
      have hsymbol := isUnparted_dropLast hword
      have htext : word ++ rest =
          word.dropLast ++ ':' :: (rest.takeWhile isSeparator ++ c :: cs) := by
        rw [← hrest, ← List.singleton_append, ← List.append_assoc, dropLast_append_colon hcolon]
      rw [htext]
      split at h
      · rename_i hquote
        split at h
        · simp at h
        · rename_i body ahead hclose
          obtain ⟨rfl, rfl⟩ : datum word.dropLast (rest.takeWhile isSeparator)
              (c :: body ++ [c]) (ahead.take 1) = p ∧ ahead.drop 1 = rest' := by simpa using h
          refine ⟨?_, ⟨hsymbol, hgap, Or.inr ⟨c, body, hquote, rfl, ?_⟩⟩, ?_⟩
          · rw [closeQuote?_eq_some hclose]
            cases ahead <;> simp [text, passed, unread]
          · exact List.length_take_le 1 ahead
          · intro hdropped
            have hahead : ahead = [] := by
              cases ahead with
              | nil => rfl
              | cons d ahead => simp [unread] at hdropped
            rw [hahead]
            intro d hd
            simp at hd
      · obtain ⟨rfl, rfl⟩ : datum word.dropLast (rest.takeWhile isSeparator)
            ((c :: cs).takeWhile (!isSeparator ·)) [] = p ∧
            (c :: cs).dropWhile (!isSeparator ·) = rest' := by simpa using h
        refine ⟨?_, ⟨hsymbol, hgap, Or.inl ⟨?_, isUnparted_takeWhile _, rfl⟩⟩,
          fun _ => atSeparator_dropWhile_word _⟩
        · simp only [text, passed, unread, List.append_nil, List.append_assoc, List.cons_append]
          rw [List.takeWhile_append_dropWhile]
        · rw [List.takeWhile_cons_of_pos (by simp [hc])]
          exact List.cons_ne_nil _ _
  · simp at h

theorem opens_of_statementFrom {active : Option Section} {word rest rest' : List Char} {p : Phrase}
    (hne : word ≠ []) (hword : IsUnparted word) (hat : AtSeparator rest)
    (h : statementFrom active word rest = .ok (p, rest')) : Opens p (word ++ rest) rest' := by
  unfold statementFrom at h
  split at h
  · rename_i hsection
    rw [hsection]
    exact opens_of_directiveFrom hat h
  · split at h
    · simp at h
    · exact opens_of_instructionFrom hne hword hat h
    · exact opens_of_datumFrom hword hat h

/-- The phrase that is read at the start of a text opens it. -/
theorem opens_of_first_eq_ok {active : Option Section} {previous : Option Char} {c : Char}
    {cs rest : List Char} {p : Phrase} (h : first active previous c cs = .ok (p, rest)) :
    Opens p (c :: cs) rest := by
  unfold first at h
  split at h
  · rename_i hsep
    obtain ⟨rfl, rfl⟩ : blank c = p ∧ cs = rest := by simpa using h
    exact ⟨rfl, Or.inl hsep, fun hnil => by simp [unread] at hnil⟩
  · rename_i hsep
    split at h
    · rename_i hstarts
      obtain ⟨rfl, rfl⟩ : comment ((c :: cs).takeWhile (· != '\n')) = p ∧
          (c :: cs).dropWhile (· != '\n') = rest := by simpa using h
      have hlf : (c != '\n') = true := by
        rw [bne_iff_ne]
        rintro rfl
        exact hsep rfl
      refine ⟨?_, ⟨?_, ?_⟩, fun _ => atSeparator_dropWhile_line _⟩
      · simp only [text, passed, unread, List.append_nil]
        rw [List.takeWhile_append_dropWhile]
      · rw [List.takeWhile_cons, if_pos hlf]
        exact List.cons_ne_nil _ _
      · intro hmem
        simpa using List.mem_takeWhile_imp hmem
    · split at h
      · rename_i hslash
        obtain ⟨rfl, rfl⟩ : blank c = p ∧ cs = rest := by simpa using h
        exact ⟨rfl, Or.inr hslash, fun hnil => by simp [unread] at hnil⟩
      · have hc : isSeparator c = false := by simpa using hsep
        have hne : (c :: cs).takeWhile (!isSeparator ·) ≠ [] := by
          rw [List.takeWhile_cons_of_pos (by simp [hc])]
          exact List.cons_ne_nil _ _
        have hopens := opens_of_statementFrom hne (isUnparted_takeWhile _)
          (atSeparator_dropWhile_word _) h
        rwa [List.takeWhile_append_dropWhile] at hopens

/-! ## Where no phrase can be read -/

theorem append_of_directiveFrom {active : Option Section} {rest : List Char} {f : Failure}
    (hat : AtSeparator rest) (h : directiveFrom active rest = .error f) :
    sectionKeyword ++ rest = f.passed ++ f.ahead := by
  unfold directiveFrom at h
  split at h
  · obtain rfl := Except.error.inj h
    simp [Failure.atEnd]
  · rename_i gap name ahead hword
    obtain ⟨rfl, -⟩ := nextWord?_eq_some hword hat
    dsimp only at h
    split at h
    · obtain rfl := Except.error.inj h
      simp
    · split at h
      · obtain rfl := Except.error.inj h
        simp
      · simp at h

theorem append_of_operandsFrom {label : Option (List Char × List Char)} {name rest : List Char}
    {f : Failure} (h : operandsFrom label name rest = .error f) :
    labelText label ++ name ++ rest = f.passed ++ f.ahead := by
  unfold operandsFrom at h
  dsimp only at h
  split at h
  · obtain rfl := Except.error.inj h
    simp only [List.append_assoc]
    rw [List.takeWhile_append_dropWhile]
  · simp at h

theorem append_of_instructionFrom {word rest : List Char} {f : Failure} (hat : AtSeparator rest)
    (h : instructionFrom word rest = .error f) : word ++ rest = f.passed ++ f.ahead := by
  unfold instructionFrom at h
  split at h
  · rename_i hcolon
    split at h
    · obtain rfl := Except.error.inj h
      simp [Failure.atEnd]
    · rename_i gap name ahead hnext
      obtain ⟨rfl, -⟩ := nextWord?_eq_some hnext hat
      split at h
      · obtain rfl := Except.error.inj h
        simp
      · rw [← append_of_operandsFrom h, ← dropLast_append_colon hcolon]
        simp [labelText]
  · exact append_of_operandsFrom h

theorem append_of_datumFrom {word rest : List Char} {f : Failure}
    (h : datumFrom word rest = .error f) : word ++ rest = f.passed ++ f.ahead := by
  unfold datumFrom at h
  split at h
  · dsimp only at h
    split at h
    · obtain rfl := Except.error.inj h
      simp [Failure.atEnd]
    · split at h
      · split at h
        · obtain rfl := Except.error.inj h
          simp [Failure.atEnd]
        · simp at h
      · simp at h
  · obtain rfl := Except.error.inj h
    rfl

theorem append_of_statementFrom {active : Option Section} {word rest : List Char} {f : Failure}
    (hat : AtSeparator rest) (h : statementFrom active word rest = .error f) :
    word ++ rest = f.passed ++ f.ahead := by
  unfold statementFrom at h
  split at h
  · rename_i hsection
    rw [hsection]
    exact append_of_directiveFrom hat h
  · split at h
    · obtain rfl := Except.error.inj h
      rfl
    · exact append_of_instructionFrom hat h
    · exact append_of_datumFrom h

/-- What was passed until a fault was noticed and what is ahead then make up the text. -/
theorem append_of_first_eq_error {active : Option Section} {previous : Option Char} {c : Char}
    {cs : List Char} {f : Failure} (h : first active previous c cs = .error f) :
    c :: cs = f.passed ++ f.ahead := by
  unfold first at h
  split at h
  · simp at h
  · split at h
    · simp at h
    · split at h
      · simp at h
      · rw [← append_of_statementFrom (atSeparator_dropWhile_word _) h,
          List.takeWhile_append_dropWhile]

theorem text_ne_nil {p : Phrase} (h : p.WellFormed) : p.text ≠ [] := by
  cases p with
  | blank c => simp [text, passed, unread]
  | comment remark => simpa [text, passed, unread] using h.1
  | directive gap s => simp [text, passed, unread, sectionKeyword]
  | datum symbol gap value dropped => simp [text, passed]
  | instruction label name operands trailing =>
      intro hnil
      simp only [text, passed, unread, List.append_eq_nil_iff] at hnil
      exact h.2.1 hnil.1.1.1.2

/-- At most one character of a phrase is left unread. -/
theorem unread_eq_nil_or_singleton {p : Phrase} (h : p.WellFormed) :
    p.unread = [] ∨ ∃ d, p.unread = [d] := by
  cases p with
  | blank c => exact Or.inr ⟨c, rfl⟩
  | comment remark => exact Or.inl rfl
  | directive gap s => exact Or.inl rfl
  | instruction label name operands trailing => exact Or.inl rfl
  | datum symbol gap value dropped =>
      obtain ⟨-, -, hvalue⟩ := h
      rcases hvalue with ⟨-, -, hnil⟩ | ⟨quote, body, -, -, hlength⟩
      · exact Or.inl hnil
      · cases dropped with
        | nil => exact Or.inl rfl
        | cons d more =>
            obtain rfl : more = [] := by
              rw [← List.length_eq_zero_iff]
              simp only [List.length_cons] at hlength
              omega
            exact Or.inr ⟨d, rfl⟩

theorem length_rest_lt_of_first {active : Option Section} {previous : Option Char} {c : Char}
    {cs rest : List Char} {p : Phrase} (h : first active previous c cs = .ok (p, rest)) :
    rest.length < (c :: cs).length := by
  have hopens := opens_of_first_eq_ok h
  have hpos := List.length_pos_iff.2 (text_ne_nil hopens.wellFormed)
  rw [hopens.text_append, List.length_append]
  omega

end Phrase

end Mnemonic
