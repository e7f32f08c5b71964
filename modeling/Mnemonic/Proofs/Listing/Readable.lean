import Mnemonic.Proofs.Listing.Wording

set_option autoImplicit false

/-!
# Words that can be read

Not every text is the name of an instruction, or a value. What the words of a phrase can be is said
here of the words alone. It is enough to read them back, and it stays so when the line feeds in values
are spelled out.

Main statements: the words of every outline can be read (`readable_of`), and so they can when their line
feeds are spelled out (`Program.Wording.Readable.spelled`), which makes each statement one line
(`Datum.Wording.Readable.lineFeed_not_mem`, `Instruction.Wording.Readable.lineFeed_not_mem`).
-/

namespace Mnemonic

open Text Listing Phrase

/-- A word that a statement can start with. -/
structure IsFirstWord (word : List Char) : Prop where
  unparted : IsUnparted word
  starts : ∃ c cs, word = c :: cs ∧ c ≠ '#' ∧ c ≠ ';' ∧ c ≠ '/'

/-- A word that is a value. -/
structure IsPlainValue (value : List Char) : Prop where
  unparted : IsUnparted value
  starts : ∃ c cs, value = c :: cs ∧ c ≠ '\'' ∧ c ≠ '"'

/-- The text between a quote and the next one that does not follow a backslash, behind a given
character. -/
def IsQuotedBody (quote previous : Char) : List Char → Prop
  | [] => previous ≠ '\\'
  | c :: cs => ¬(c = quote ∧ previous ≠ '\\') ∧ IsQuotedBody quote c cs

/-- A quoted string that is a value. -/
def IsQuotedValue (value : List Char) : Prop :=
  ∃ quote body, (quote = '\'' ∨ quote = '"') ∧ value = quote :: body ++ [quote] ∧
    IsQuotedBody quote quote body

/-- The words of a data entry can be read. -/
structure Datum.Wording.Readable (d : Datum.Wording) : Prop where
  symbol : IsFirstWord (d.symbol ++ [':'])
  value : IsPlainValue d.value ∨ IsQuotedValue d.value

/-- The words of an instruction can be read. -/
structure Instruction.Wording.Readable (i : Instruction.Wording) : Prop where
  label : ∀ l ∈ i.label, IsFirstWord (l ++ [':'])
  unlabelled : i.label = none → IsFirstWord i.name ∧ i.name.getLast? ≠ some ':'
  name_ne_nil : i.name ≠ []
  name_unparted : IsUnparted i.name
  name_ne_keyword : i.name ≠ sectionKeyword
  operands : ∀ o ∈ i.operands, o ≠ [] ∧ ∀ c ∈ o, isOperandChar c = true

/-- The words of a program can be read. -/
structure Program.Wording.Readable (w : Program.Wording) : Prop where
  data : ∀ d ∈ w.data, d.Readable
  text : ∀ i ∈ w.text, i.Readable

/-! ## Closing quotes -/

theorem isQuotedBody_of_closeQuote? {quote previous : Char} {t body rest : List Char}
    (h : closeQuote? quote previous t = some (body, rest)) : IsQuotedBody quote previous body := by
  induction t generalizing previous body with
  | nil => simp [closeQuote?] at h
  | cons c cs ih =>
      unfold closeQuote? at h
      by_cases hclose : c = quote ∧ previous ≠ '\\'
      · rw [if_pos hclose] at h
        obtain ⟨rfl, -⟩ : [] = body ∧ cs = rest := by simpa using h
        exact hclose.2
      · rw [if_neg hclose] at h
        obtain ⟨⟨body', rest'⟩, hlater, heq⟩ := Option.map_eq_some_iff.1 h
        obtain ⟨rfl, rfl⟩ := Prod.mk.inj heq
        exact ⟨hclose, ih hlater⟩

theorem closeQuote?_of_isQuotedBody {quote previous : Char} {body : List Char}
    (h : IsQuotedBody quote previous body) (rest : List Char) :
    closeQuote? quote previous (body ++ quote :: rest) = some (body, rest) := by
  induction body generalizing previous with
  | nil => rw [List.nil_append, closeQuote?, if_pos ⟨rfl, h⟩]
  | cons c cs ih =>
      rw [List.cons_append, closeQuote?, if_neg h.1, ih h.2]
      rfl

/-! ## Words that are read -/

theorem Program.Wording.Readable.append {w v : Program.Wording} (hw : w.Readable) (hv : v.Readable) :
    (w ++ v).Readable where
  data d hd := (List.mem_append.1 hd).elim (hw.data d) (hv.data d)
  text i hi := (List.mem_append.1 hi).elim (hw.text i) (hv.text i)

/-- Phrases that are no entries have no words. -/
theorem readable_of_silent {p : Phrase} (hdatum : p.datumWording? = none)
    (hinstruction : p.instructionWording? = none) : (wording [p]).Readable where
  data := by simp [wording, hdatum]
  text := by simp [wording, hinstruction]

theorem readable_of_datum {d : Datum.Wording} (h : d.Readable) :
    (⟨[d], []⟩ : Program.Wording).Readable where
  data _ hd := List.mem_singleton.1 hd ▸ h
  text := by simp

theorem readable_of_instruction {i : Instruction.Wording} (h : i.Readable) :
    (⟨[], [i]⟩ : Program.Wording).Readable where
  data := by simp
  text _ hi := List.mem_singleton.1 hi ▸ h

theorem readable_of_directiveFrom {active : Option Section} {rest rest' : List Char} {p : Phrase}
    (h : directiveFrom active rest = .ok (p, rest')) : (wording [p]).Readable := by
  unfold directiveFrom at h
  split at h
  · simp at h
  · dsimp only at h
    split at h
    · simp at h
    · split at h
      · simp at h
      · obtain ⟨rfl, -⟩ := Prod.mk.inj (Except.ok.inj h)
        exact readable_of_silent rfl rfl

theorem readable_of_datumFrom {word rest rest' : List Char} {p : Phrase} (hword : IsFirstWord word)
    (h : datumFrom word rest = .ok (p, rest')) : (wording [p]).Readable := by
  unfold datumFrom at h
  split at h
  · rename_i hcolon
    have hsymbol : IsFirstWord (word.dropLast ++ [':']) := by
      rwa [dropLast_append_colon hcolon]
    dsimp only at h
    split at h
    · simp at h
    · rename_i c cs hdrop
      have hc := eq_false_of_dropWhile hdrop
      split at h
      · rename_i hquote
        split at h
        · simp at h
        · rename_i body ahead hclose
          obtain ⟨rfl, -⟩ : datum word.dropLast (rest.takeWhile isSeparator) (c :: body ++ [c])
              (ahead.take 1) = p ∧ ahead.drop 1 = rest' := by simpa using h
          exact readable_of_datum
            ⟨hsymbol, .inr ⟨c, body, hquote, rfl, isQuotedBody_of_closeQuote? hclose⟩⟩
      · rename_i hquote
        obtain ⟨rfl, -⟩ : datum word.dropLast (rest.takeWhile isSeparator)
            ((c :: cs).takeWhile (!isSeparator ·)) [] = p ∧
            (c :: cs).dropWhile (!isSeparator ·) = rest' := by simpa using h
        have hstarts : (c :: cs).takeWhile (!isSeparator ·) = c :: cs.takeWhile (!isSeparator ·) :=
          List.takeWhile_cons_of_pos (by simp [hc])
        exact readable_of_datum
          ⟨hsymbol, .inl ⟨isUnparted_takeWhile _, c, _, hstarts, not_or.1 hquote⟩⟩
  · simp at h

theorem exists_of_operandsFrom {label : Option (List Char × List Char)}
    {name rest rest' : List Char} {p : Phrase} (h : operandsFrom label name rest = .ok (p, rest')) :
    ∃ operands trailing, p = instruction label name operands trailing := by
  unfold operandsFrom at h
  dsimp only at h
  split at h
  · simp at h
  · obtain ⟨rfl, -⟩ := Prod.mk.inj (Except.ok.inj h)
    exact ⟨_, _, rfl⟩

theorem operandChars_of_mem_map {operands : List (List Char × List Char)}
    (h : ∀ o ∈ operands, IsOperand o) :
    ∀ o ∈ operands.map Prod.snd, o ≠ [] ∧ ∀ c ∈ o, isOperandChar c = true := by
  intro o ho
  obtain ⟨operand, hmem, rfl⟩ := List.mem_map.1 ho
  exact (h operand hmem).2.2

theorem readable_of_instructionFrom {word rest rest' : List Char} {p : Phrase}
    (hword : IsFirstWord word) (hkey : word ≠ sectionKeyword) (hwellFormed : p.WellFormed)
    (h : instructionFrom word rest = .ok (p, rest')) : (wording [p]).Readable := by
  unfold instructionFrom at h
  split at h
  · rename_i hcolon
    split at h
    · simp at h
    · rename_i gap name ahead hnext
      split at h
      · simp at h
      · rename_i hname
        obtain ⟨operands, trailing, rfl⟩ := exists_of_operandsFrom h
        obtain ⟨-, hne, hunparted, hoperands, -⟩ := hwellFormed
        apply readable_of_instruction
        refine ⟨?_, by simp, hne, hunparted, hname, operandChars_of_mem_map hoperands⟩
        intro l hl
        obtain rfl : word.dropLast = l := by simpa using hl
        rwa [dropLast_append_colon hcolon]
  · rename_i hcolon
    obtain ⟨operands, trailing, rfl⟩ := exists_of_operandsFrom h
    obtain ⟨-, hne, hunparted, hoperands, -⟩ := hwellFormed
    apply readable_of_instruction
    exact ⟨by simp, fun _ => ⟨hword, hcolon⟩, hne, hunparted, hkey, operandChars_of_mem_map hoperands⟩

/-- The words of a phrase that is read can be read. -/
theorem readable_of_first {active : Option Section} {previous : Option Char} {c : Char}
    {cs rest : List Char} {p : Phrase} (h : first active previous c cs = .ok (p, rest)) :
    (wording [p]).Readable := by
  have hwellFormed := (opens_of_first_eq_ok h).wellFormed
  unfold first at h
  split at h
  · obtain ⟨rfl, -⟩ := Prod.mk.inj (Except.ok.inj h)
    exact readable_of_silent rfl rfl
  · rename_i hsep
    split at h
    · obtain ⟨rfl, -⟩ := Prod.mk.inj (Except.ok.inj h)
      exact readable_of_silent rfl rfl
    · rename_i hcomment
      split at h
      · obtain ⟨rfl, -⟩ := Prod.mk.inj (Except.ok.inj h)
        exact readable_of_silent rfl rfl
      · rename_i hslash
        have hstarts : (c :: cs).takeWhile (!isSeparator ·) = c :: cs.takeWhile (!isSeparator ·) :=
          List.takeWhile_cons_of_pos (by simp [hsep])
        have hmarks : c ≠ '#' ∧ c ≠ ';' := by
          constructor
          · rintro rfl
            simp [startsComment] at hcomment
          · rintro rfl
            simp [startsComment] at hcomment
        have hword : IsFirstWord ((c :: cs).takeWhile (!isSeparator ·)) :=
          ⟨isUnparted_takeWhile _, c, _, hstarts, hmarks.1, hmarks.2, hslash⟩
        unfold statementFrom at h
        split at h
        · exact readable_of_directiveFrom h
        · rename_i hkey
          split at h
          · simp at h
          · exact readable_of_instructionFrom hword hkey hwellFormed h
          · exact readable_of_datumFrom hword h

/-- The words of every outline can be read. -/
theorem readable_of (active : Option Section) (previous : Option Char) (t : List Char) :
    (wording (Outline.of active previous t).phrases).Readable := by
  induction active, previous, t using Outline.induction with
  | nil active previous =>
      rw [Outline.of_nil]
      exact ⟨by simp [wording], by simp [wording]⟩
  | error active previous c cs f hfirst =>
      rw [Outline.of_of_error hfirst]
      exact ⟨by simp [wording], by simp [wording]⟩
  | ok active previous c cs p rest hfirst ih =>
      rw [Outline.of_of_ok hfirst]
      dsimp only
      rw [← List.singleton_append, wording_append]
      exact (readable_of_first hfirst).append ih

/-! ## Line feeds spelled out -/

theorem lineFeed_not_mem_spellLineFeeds (value : List Char) : '\n' ∉ spellLineFeeds value := by
  intro hmem
  obtain ⟨c, -, hc⟩ := List.mem_flatMap.1 hmem
  split at hc
  · simp at hc
  · rename_i hne
    exact hne (List.mem_singleton.1 hc).symm

theorem spellLineFeeds_of_not_mem {value : List Char} (h : '\n' ∉ value) :
    spellLineFeeds value = value := by
  induction value with
  | nil => rfl
  | cons c cs ih =>
      rw [List.mem_cons, not_or] at h
      rw [spellLineFeeds, List.flatMap_cons, if_neg (Ne.symm h.1)]
      exact congrArg (c :: ·) (ih h.2)

/-- A spelled line feed neither escapes what follows it nor closes the quotes. -/
theorem IsQuotedBody.spellLineFeeds {quote previous previous' : Char} {body : List Char}
    (hquote : quote = '\'' ∨ quote = '"') (hprevious : previous = '\\' ↔ previous' = '\\')
    (h : IsQuotedBody quote previous body) :
    IsQuotedBody quote previous' (spellLineFeeds body) := by
  induction body generalizing previous previous' with
  | nil => exact fun heq => h (hprevious.2 heq)
  | cons c cs ih =>
      by_cases hc : c = '\n'
      · -- Neither character of the spelling is a quote, and what follows stands behind a letter now,
        -- where it stood behind a line feed: neither of them escapes it.
        subst hc
        have hlater : IsQuotedBody quote 'n' (Listing.spellLineFeeds cs) := ih (by decide) h.2
        have hbackslash : '\\' ≠ quote := by rcases hquote with rfl | rfl <;> decide
        have hn : 'n' ≠ quote := by rcases hquote with rfl | rfl <;> decide
        exact ⟨fun heq => hbackslash heq.1, fun heq => hn heq.1, hlater⟩
      · have hlater : IsQuotedBody quote c (Listing.spellLineFeeds cs) := ih Iff.rfl h.2
        have hspell : Listing.spellLineFeeds (c :: cs) = c :: Listing.spellLineFeeds cs := by
          simp [Listing.spellLineFeeds, hc]
        rw [hspell]
        exact ⟨fun ⟨heq, hne⟩ => h.1 ⟨heq, fun hback => hne (hprevious.1 hback)⟩, hlater⟩

theorem IsQuotedValue.spellLineFeeds {value : List Char} (h : IsQuotedValue value) :
    IsQuotedValue (spellLineFeeds value) := by
  obtain ⟨quote, body, hquote, rfl, hbody⟩ := h
  refine ⟨quote, Listing.spellLineFeeds body, hquote, ?_, hbody.spellLineFeeds hquote Iff.rfl⟩
  have hne : quote ≠ '\n' := by rcases hquote with rfl | rfl <;> decide
  simp [Listing.spellLineFeeds, hne]

namespace Datum.Wording

theorem Readable.spelled {d : Wording} (h : d.Readable) : d.spelled.Readable := by
  obtain ⟨hsymbol, hvalue⟩ := h
  refine ⟨hsymbol, ?_⟩
  rcases hvalue with hplain | hquoted
  · have hsame := spellLineFeeds_of_not_mem (lineFeed_notMem_of_isUnparted hplain.unparted)
    rw [Wording.spelled, hsame]
    exact .inl hplain
  · exact .inr hquoted.spellLineFeeds

theorem spelled_spelled (d : Wording) : d.spelled.spelled = d.spelled := by
  simp only [spelled, spellLineFeeds_of_not_mem (lineFeed_not_mem_spellLineFeeds d.value)]

/-- The statement of an entry with its line feeds spelled out is one line. -/
theorem Readable.lineFeed_not_mem {d : Wording} (h : d.Readable) : '\n' ∉ d.spelled.statement := by
  have hsymbol := lineFeed_notMem_of_isUnparted h.symbol.unparted
  have hvalue := lineFeed_not_mem_spellLineFeeds d.value
  rw [List.mem_append, not_or] at hsymbol
  simp [statement, Wording.spelled, hsymbol.1, hvalue]

end Datum.Wording

namespace Instruction.Wording

/-- The statement of an instruction is one line. -/
theorem Readable.lineFeed_not_mem {i : Wording} (h : i.Readable) : '\n' ∉ i.statement := by
  obtain ⟨hlabel, -, -, hname, -, hoperands⟩ := h
  have hhead : '\n' ∉ i.labelText := by
    unfold labelText
    cases hl : i.label with
    | none => simp
    | some l =>
        have hword := lineFeed_notMem_of_isUnparted (hlabel l hl).unparted
        rw [List.mem_append, not_or] at hword
        simp [hword.1]
  have hoperand : ∀ o ∈ i.operands, '\n' ∉ o :=
    fun o ho hmem => absurd ((hoperands o ho).2 '\n' hmem) (by decide)
  have htail : '\n' ∉ i.operands.flatMap (' ' :: ·) := by
    intro hmem
    obtain ⟨o, ho, hmem⟩ := List.mem_flatMap.1 hmem
    exact (List.not_mem_cons_of_ne_of_not_mem (by decide) (hoperand o ho)) hmem
  simp [statement, hhead, lineFeed_notMem_of_isUnparted hname, htail]

end Instruction.Wording

namespace Program.Wording

/-- Words that can be read can still be read when their line feeds are spelled out. -/
theorem Readable.spelled {w : Wording} (h : w.Readable) : w.spelled.Readable where
  data := by
    intro d hd
    obtain ⟨d, hmem, rfl⟩ := List.mem_map.1 hd
    exact (h.data d hmem).spelled
  text := h.text

theorem spelled_spelled (w : Wording) : w.spelled.spelled = w.spelled := by
  simp [spelled, Datum.Wording.spelled_spelled]

end Program.Wording

end Mnemonic
