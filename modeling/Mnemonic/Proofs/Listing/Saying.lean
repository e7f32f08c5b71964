import Mnemonic.Proofs.Listing.Readable
import Mnemonic.Proofs.Reading.Lines

set_option autoImplicit false

/-!
# Texts that say words

Words that can be read are written down as statements, one on each line, under the headers of their
sections. Each of these lines is read by itself: a header makes its section active, and a statement
becomes the phrase with its words, whatever follows the line.

Main statement: the text of words that can be read says them (`Outline.says_source`).
-/

namespace Mnemonic

open Text

namespace Phrase

/-! ## Words and single blanks -/

theorem atSeparator_cons {c : Char} (hc : isSeparator c = true) (cs : List Char) :
    AtSeparator (c :: cs) := by
  intro d hd
  obtain rfl : c = d := by simpa using hd
  exact hc

/-- A run without characters of a kind, up to one of that kind. -/
theorem run_of_forall {p : Char → Bool} {word rest : List Char} (hword : ∀ c ∈ word, p c = false)
    (hrest : ∀ c ∈ rest.head?, p c = true) :
    (word ++ rest).takeWhile (!p ·) = word ∧ (word ++ rest).dropWhile (!p ·) = rest := by
  have hpass : ∀ c ∈ word, (!p c) = true := by
    intro c hc
    rw [hword c hc]
    rfl
  rw [List.takeWhile_append_of_pos hpass, List.dropWhile_append_of_pos hpass]
  cases rest with
  | nil => simp
  | cons c cs => simp [hrest c rfl]

/-- One blank, up to a character of another kind. -/
theorem blank_of_not {p : Char → Bool} (hblank : p ' ' = true) {c : Char} (hc : p c = false)
    (cs : List Char) :
    (' ' :: c :: cs).takeWhile p = [' '] ∧ (' ' :: c :: cs).dropWhile p = c :: cs := by
  have hneg : ¬p c = true := by simp [hc]
  constructor
  · rw [List.takeWhile_cons_of_pos hblank, List.takeWhile_cons_of_neg hneg]
  · rw [List.dropWhile_cons_of_pos hblank, List.dropWhile_cons_of_neg hneg]

/-- Where a word stands that a statement can start with, a statement is read. -/
theorem first_of_isFirstWord {word : List Char} (hword : IsFirstWord word) {rest : List Char}
    (hat : AtSeparator rest) (active : Option Section) (previous : Option Char) :
    ∃ c cs, word ++ rest = c :: cs ∧ first active previous c cs = statementFrom active word rest := by
  obtain ⟨hunparted, c, cs, rfl, hhash, hsemicolon, hslash⟩ := hword
  refine ⟨c, cs ++ rest, rfl, ?_⟩
  have hsep : isSeparator c = false := hunparted c List.mem_cons_self
  have hcomment : startsComment previous c = false := by
    simp [startsComment, hhash, hsemicolon, hslash]
  obtain ⟨htake, hdrop⟩ := run_of_forall hunparted hat
  rw [first, hsep, hcomment, if_neg Bool.false_ne_true, if_neg Bool.false_ne_true, if_neg hslash,
    ← List.cons_append, htake, hdrop]

/-- The word behind one blank is the next word. -/
theorem nextWord?_of_isUnparted {word rest : List Char} (hne : word ≠ []) (hword : IsUnparted word)
    (hat : AtSeparator rest) : nextWord? (' ' :: word ++ rest) = some ([' '], word, rest) := by
  obtain ⟨htake, hdrop⟩ := run_of_forall hword hat
  obtain ⟨c, cs, rfl⟩ := List.exists_cons_of_ne_nil hne
  obtain ⟨hgap, hbehind⟩ := blank_of_not (p := isSeparator) rfl (hword c List.mem_cons_self)
    (cs ++ rest)
  rw [List.cons_append] at htake hdrop
  rw [nextWord?, List.cons_append, List.cons_append, hbehind]
  simp only [hgap, htake, hdrop]

/-! ## Statements of one line -/

/-- A section directive. -/
theorem statementFrom_header {active : Option Section} {s : Section} (hactive : active ≠ some s)
    (more : List Char) :
    statementFrom active sectionKeyword (' ' :: s.name.toList ++ '\n' :: more) =
      .ok (directive [' '] s, '\n' :: more) := by
  have hname : s.name.toList ≠ [] ∧ IsUnparted s.name.toList := by
    cases s with
    | text => exact ⟨by decide, by simp [IsUnparted, Section.name, isSeparator]⟩
    | data => exact ⟨by decide, by simp [IsUnparted, Section.name, isSeparator]⟩
  have hnext := nextWord?_of_isUnparted hname.1 hname.2 (atSeparator_cons (c := '\n') rfl more)
  have hsection : Section.ofName? (String.ofList s.name.toList) = some s := by
    rw [Section.ofName?_eq_some_iff, String.ofList_toList]
  unfold statementFrom directiveFrom
  rw [if_pos rfl, hnext]
  simp only [hsection, if_neg hactive]

/-- A data entry whose value is a word. -/
theorem datumFrom_plain {symbol value : List Char} (h : IsPlainValue value) (more : List Char) :
    datumFrom (symbol ++ [':']) (' ' :: value ++ '\n' :: more) =
      .ok (datum symbol [' '] value [], '\n' :: more) := by
  obtain ⟨hunparted, c, cs, rfl, hsingle, hdouble⟩ := h
  obtain ⟨htake, hdrop⟩ := run_of_forall hunparted (atSeparator_cons (c := '\n') rfl more)
  obtain ⟨hgap, hbehind⟩ := blank_of_not (p := isSeparator) rfl (hunparted c List.mem_cons_self)
    (cs ++ '\n' :: more)
  rw [List.cons_append] at htake hdrop
  rw [datumFrom, if_pos (by simp), List.cons_append, List.cons_append, hbehind]
  simp only [hgap, htake, hdrop, List.dropLast_concat, hsingle, hdouble, or_self, if_false]

/-- A data entry whose value is quoted. The line feed goes with it. -/
theorem datumFrom_quoted {symbol value : List Char} (h : IsQuotedValue value) (more : List Char) :
    datumFrom (symbol ++ [':']) (' ' :: value ++ '\n' :: more) =
      .ok (datum symbol [' '] value ['\n'], more) := by
  obtain ⟨quote, body, hquote, rfl, hbody⟩ := h
  have hsep : isSeparator quote = false := by rcases hquote with rfl | rfl <;> rfl
  -- The character that is dropped behind the closing quote is the line feed.
  have htail : ' ' :: (quote :: body ++ [quote]) ++ '\n' :: more =
      ' ' :: quote :: (body ++ quote :: '\n' :: more) := by simp
  obtain ⟨hgap, hbehind⟩ :=
    blank_of_not (p := isSeparator) rfl hsep (body ++ quote :: '\n' :: more)
  rw [datumFrom, if_pos (by simp), htail, hbehind]
  simp only [hgap, if_pos hquote, closeQuote?_of_isQuotedBody hbody, List.dropLast_concat]
  rfl

/-- Operands behind single blanks are cut at these. -/
theorem cutAtBlanks_of_operands {operands : List (List Char)}
    (h : ∀ o ∈ operands, o ≠ [] ∧ ∀ c ∈ o, isOperandChar c = true) :
    cutAtBlanks (operands.flatMap (' ' :: ·)) = (operands.map ([' '], ·), []) := by
  induction operands with
  | nil => exact cutAtBlanks_of_nil rfl
  | cons o operands ih =>
      obtain ⟨hne, hchars⟩ := h o List.mem_cons_self
      have hlater := ih fun o' ho' => h o' (List.mem_cons_of_mem o ho')
      have hword : ∀ c ∈ o, isBlank c = false := fun c hc => isBlank_of_isOperandChar (hchars c hc)
      have hstop : ∀ d ∈ (operands.flatMap (' ' :: ·)).head?, isBlank d = true := by
        cases operands with
        | nil => simp
        | cons o' operands => simp [isBlank, blankRanges]
      obtain ⟨htake, hdrop⟩ := run_of_forall hword hstop
      obtain ⟨c, cs, rfl⟩ := List.exists_cons_of_ne_nil hne
      obtain ⟨hgap, hbehind⟩ := blank_of_not (p := isBlank) rfl (hword c List.mem_cons_self)
        (cs ++ operands.flatMap (' ' :: ·))
      rw [List.cons_append] at htake hdrop
      rw [List.flatMap_cons, List.cons_append, List.cons_append, cutAtBlanks_of_cons hbehind, hgap,
        htake, hdrop, hlater]
      rfl

/-- The operands of an instruction. -/
theorem operandsFrom_operands {operands : List (List Char)}
    (h : ∀ o ∈ operands, o ≠ [] ∧ ∀ c ∈ o, isOperandChar c = true)
    (label : Option (List Char × List Char)) (name more : List Char) :
    operandsFrom label name (operands.flatMap (' ' :: ·) ++ '\n' :: more) =
      .ok (instruction label name (operands.map ([' '], ·)) [], '\n' :: more) := by
  have hline : ∀ c ∈ operands.flatMap (' ' :: ·), fitsLine c = true ∧ (c != '\n') = true := by
    intro c hc
    obtain ⟨o, ho, hc⟩ := List.mem_flatMap.1 hc
    rcases List.mem_cons.1 hc with rfl | hc
    · exact ⟨rfl, rfl⟩
    · have hchar := (h o ho).2 c hc
      refine ⟨by simp [fitsLine, hchar], ?_⟩
      rw [bne_iff_ne]
      rintro rfl
      exact absurd hchar (by decide)
  have htake : (operands.flatMap (' ' :: ·) ++ '\n' :: more).takeWhile (· != '\n') =
      operands.flatMap (' ' :: ·) := by
    rw [List.takeWhile_append_of_pos fun c hc => (hline c hc).2]
    simp
  have hdrop : (operands.flatMap (' ' :: ·) ++ '\n' :: more).dropWhile (· != '\n') = '\n' :: more := by
    rw [List.dropWhile_append_of_pos fun c hc => (hline c hc).2]
    rfl
  have hfits : (operands.flatMap (' ' :: ·)).dropWhile fitsLine = [] :=
    List.dropWhile_eq_nil_iff.2 fun c hc => (hline c hc).1
  rw [operandsFrom, htake, hdrop]
  simp only [hfits, cutAtBlanks_of_operands h]

theorem append_colon_ne_keyword (t : List Char) : t ++ [':'] ≠ sectionKeyword := by
  intro h
  have hlast := congrArg List.getLast? h
  simp [sectionKeyword] at hlast

/-- The operands behind single blanks start with a blank, if there are any. -/
theorem atSeparator_operands (operands : List (List Char)) :
    AtSeparator (operands.flatMap (' ' :: ·)) := by
  cases operands with
  | nil => simp [AtSeparator]
  | cons o operands => exact atSeparator_cons rfl _

/-- What stands in front of the end of a line stands at a separator when the line is at its end. -/
theorem AtSeparator.append_lineFeed {t : List Char} (h : AtSeparator t) (more : List Char) :
    AtSeparator (t ++ '\n' :: more) := by
  cases t with
  | nil => exact atSeparator_cons rfl more
  | cons c cs => exact atSeparator_cons (h c rfl) (cs ++ '\n' :: more)

end Phrase

/-! ## Texts that say words -/

namespace Outline

open Phrase

/-- A text, read from the start of a line in a section, says words and leaves what follows to be read
from the start of a line in another section. -/
def Says (active : Option Section) (t : List Char) (w : Program.Wording) (after : Option Section) :
    Prop :=
  ∀ more, ∃ ps, wording ps = w ∧ of active (some '\n') (t ++ more) =
    ⟨ps ++ (of after (some '\n') more).phrases, (of after (some '\n') more).failure⟩

/-- The phrase of a statement comes first. -/
theorem of_of_statementFrom {active : Option Section} {word rest rest' : List Char} {p : Phrase}
    (hword : IsFirstWord word) (hat : AtSeparator rest)
    (h : statementFrom active word rest = .ok (p, rest')) (previous : Option Char) :
    of active previous (word ++ rest) =
      ⟨p :: (of (p.section?.or active) p.text.getLast? rest').phrases,
        (of (p.section?.or active) p.text.getLast? rest').failure⟩ := by
  obtain ⟨c, cs, htext, hfirst⟩ := first_of_isFirstWord hword hat active previous
  rw [h] at hfirst
  rw [htext, of_of_ok hfirst]

namespace Says

variable {active after later : Option Section}

theorem nil (active : Option Section) : Says active [] ⟨[], []⟩ active :=
  fun _ => ⟨[], rfl, rfl⟩

theorem append {t u : List Char} {w v : Program.Wording} (ht : Says active t w after)
    (hu : Says after u v later) : Says active (t ++ u) (w ++ v) later := by
  intro more
  obtain ⟨ps, hps, hfirst⟩ := ht (u ++ more)
  obtain ⟨qs, hqs, hsecond⟩ := hu more
  refine ⟨ps ++ qs, by rw [wording_append, hps, hqs], ?_⟩
  rw [List.append_assoc, hfirst, hsecond, List.append_assoc]

/-- Complete lines that can be read say what is read. -/
theorem of_lines {t : List Char} {o : Outline} {w : Program.Wording} (h : EndsLine t)
    (houtline : of active none t = o) (hfailure : o.failure = none) (hwords : wording o.phrases = w)
    (hafter : Section.activeAfter active (Phrase.items [] o.phrases) = after) :
    Says active t w after := by
  subst houtline
  intro more
  have hprevious : t.getLast?.or none = some '\n' := by
    rw [Option.or_none]
    exact h
  have hlater := of_append (.inr h) more hfailure []
  rw [hprevious, hafter] at hlater
  exact ⟨_, hwords, (of_previous (by decide) _).trans hlater⟩

/-- A statement that takes its line feed with it. -/
theorem of_statementFrom {word tail : List Char} {p : Phrase} (hword : IsFirstWord word)
    (htail : AtSeparator tail) (hlast : p.text.getLast? = some '\n')
    (h : ∀ more, statementFrom active word (tail ++ '\n' :: more) = .ok (p, more)) :
    Says active (word ++ tail ++ ['\n']) (wording [p]) (p.section?.or active) := by
  intro more
  refine ⟨[p], rfl, ?_⟩
  rw [List.append_assoc, List.append_assoc, List.singleton_append,
    of_of_statementFrom hword (htail.append_lineFeed more) (h more), hlast]
  rfl

/-- A statement that leaves its line feed unread. -/
theorem of_statementFrom_lineFeed {word tail : List Char} {p : Phrase} (hword : IsFirstWord word)
    (htail : AtSeparator tail)
    (h : ∀ more, statementFrom active word (tail ++ '\n' :: more) = .ok (p, '\n' :: more)) :
    Says active (word ++ tail ++ ['\n']) (wording [p]) (p.section?.or active) := by
  intro more
  have hblank : first (p.section?.or active) p.text.getLast? '\n' more = .ok (.blank '\n', more) := rfl
  refine ⟨[p, .blank '\n'], ?_, ?_⟩
  · rw [← List.singleton_append, wording_append]
    exact Program.Wording.append_empty _
  · rw [List.append_assoc, List.append_assoc, List.singleton_append,
      of_of_statementFrom hword (htail.append_lineFeed more) (h more), of_of_ok hblank]
    rfl

/-- The header of another section than the active one makes it active. -/
theorem header {s : Section} (hactive : active ≠ some s) :
    Says active ("section ".toList ++ s.name.toList ++ ['\n']) ⟨[], []⟩ (some s) := by
  have hword : IsFirstWord sectionKeyword :=
    ⟨by simp [IsUnparted, sectionKeyword, isSeparator], 's', _, rfl, by decide, by decide, by decide⟩
  have htext : "section ".toList ++ s.name.toList = sectionKeyword ++ (' ' :: s.name.toList) := rfl
  rw [htext]
  exact of_statementFrom_lineFeed hword (atSeparator_cons rfl _) (statementFrom_header hactive)

/-- The statement of a data entry says its words. -/
theorem datum {d : Datum.Wording} (h : d.Readable) :
    Says (some .data) (d.statement ++ ['\n']) ⟨[d], []⟩ (some .data) := by
  obtain ⟨hsymbol, hvalue⟩ := h
  have hstatement (rest : List Char) :
      statementFrom (some .data) (d.symbol ++ [':']) rest = datumFrom (d.symbol ++ [':']) rest := by
    rw [statementFrom, if_neg (append_colon_ne_keyword d.symbol)]
  have htext : d.statement = d.symbol ++ [':'] ++ (' ' :: d.value) := by
    simp [Datum.Wording.statement]
  have htail : AtSeparator (' ' :: d.value) := atSeparator_cons rfl d.value
  rw [htext]
  rcases hvalue with hplain | hquoted
  · refine of_statementFrom_lineFeed (p := .datum d.symbol [' '] d.value []) hsymbol htail ?_
    intro more
    rw [hstatement]
    exact datumFrom_plain hplain more
  · refine of_statementFrom (p := .datum d.symbol [' '] d.value ['\n']) hsymbol htail ?_ ?_
    · simp [Phrase.text, Phrase.unread]
    · intro more
      rw [hstatement]
      exact datumFrom_quoted hquoted more

/-- The statement of an instruction says its words. -/
theorem instruction {i : Instruction.Wording} (h : i.Readable) :
    Says (some .text) (i.statement ++ ['\n']) ⟨[], [i]⟩ (some .text) := by
  obtain ⟨hlabel, hunlabelled, hne, hname, hkey, hoperands⟩ := h
  obtain ⟨label, name, operands⟩ := i
  have htail := atSeparator_operands operands
  have hwords (l : Option (List Char)) : wording [.instruction (l.map (·, [' '])) name
      (operands.map ([' '], ·)) []] = ⟨[], [⟨l, name, operands⟩]⟩ := by
    simp [wording, datumWording?, instructionWording?, Function.comp_def]
  rw [← hwords]
  cases label with
  | none =>
      obtain ⟨hword, hcolon⟩ := hunlabelled rfl
      have htext : Instruction.Wording.statement ⟨none, name, operands⟩ =
          name ++ operands.flatMap (' ' :: ·) := rfl
      rw [htext]
      refine of_statementFrom_lineFeed hword htail fun more => ?_
      rw [statementFrom, if_neg hkey, instructionFrom, if_neg hcolon]
      exact operandsFrom_operands hoperands none name more
  | some l =>
      have htext : Instruction.Wording.statement ⟨some l, name, operands⟩ =
          l ++ [':'] ++ (' ' :: name ++ operands.flatMap (' ' :: ·)) := by
        simp [Instruction.Wording.statement, Instruction.Wording.labelText]
      rw [htext]
      refine of_statementFrom_lineFeed (hlabel l rfl) (atSeparator_cons rfl _) fun more => ?_
      have hnext := nextWord?_of_isUnparted hne hname (htail.append_lineFeed more)
      rw [statementFrom, if_neg (append_colon_ne_keyword l), instructionFrom, if_pos (by simp),
        List.append_assoc, hnext]
      simp only [if_neg hkey, List.dropLast_concat]
      exact operandsFrom_operands hoperands (some (l, [' '])) name more

/-- The lines of a section under its header say what the lines say. -/
theorem withHeader {α : Type} (s : Section) (line : α → List Char)
    (said : List α → Program.Wording) (hnil : said [] = ⟨[], []⟩)
    (hcons : ∀ a entries, said (a :: entries) = said [a] ++ said entries) {entries : List α}
    (h : ∀ a ∈ entries, Says (some s) (line a ++ ['\n']) (said [a]) (some s))
    (hactive : active ≠ some s) :
    Says active (ofLines (s.withHeader (entries.map line))) (said entries)
      (if entries = [] then active else some s) := by
  -- The induction is on the lines alone: the header is read once, in the section that was active.
  have hlines : Says (some s) (ofLines (entries.map line)) (said entries) (some s) := by
    induction entries with
    | nil =>
        rw [hnil]
        exact nil (some s)
    | cons a entries ih =>
        have hlater := ih fun b hb => h b (List.mem_cons_of_mem a hb)
        rw [hcons, List.map_cons, ofLines, List.flatMap_cons]
        exact (h a List.mem_cons_self).append hlater
  cases entries with
  | nil =>
      rw [hnil]
      exact nil active
  | cons a entries =>
      have hempty (w : Program.Wording) : (⟨[], []⟩ : Program.Wording) ++ w = w := rfl
      have hboth := (header hactive).append hlines
      rwa [hempty] at hboth

end Says

/-- The text of words that can be read says them. -/
theorem says_source {w : Program.Wording} (h : w.Readable) : ∃ after, Says none w.source w after := by
  have hnone : none ≠ some Section.data := by decide
  have hdata := Says.withHeader .data Datum.Wording.statement (fun ds => ⟨ds, []⟩) rfl
    (fun _ _ => rfl) (fun d hd => Says.datum (h.data d hd)) hnone
  have hactive : (if w.data = [] then none else some Section.data) ≠ some .text := by
    split <;> decide
  have htext := Says.withHeader .text Instruction.Wording.statement (fun is => ⟨[], is⟩) rfl
    (fun _ _ => rfl) (fun i hi => Says.instruction (h.text i hi)) hactive
  have hwords : (⟨w.data, []⟩ : Program.Wording) ++ ⟨[], w.text⟩ = w := by
    simp [Program.Wording.append_def]
  have hboth := hdata.append htext
  rw [hwords, ← ofLines_append] at hboth
  exact ⟨_, hboth⟩

end Outline

end Mnemonic
