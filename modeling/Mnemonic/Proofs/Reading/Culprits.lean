import Mathlib
import Mnemonic.Proofs.Reading.Offsets
import Mnemonic.Proofs.Reading.Standing

set_option autoImplicit false

/-!
# The culprits of errors

What is wrong with a statement that cannot be read is told by the text from the statement on and the
section it stands in. The culprit is a word, a character on an instruction's line, or the end of the
text, and the error is placed at an offset of it: behind the word, in front of the character, behind the
last byte if it belongs to a word that needs another one, else in front of that byte.

Main statements: a statement that cannot be read has a culprit (`culprit_of_first_eq_error`); and the
error of each attempt that fails is placed at the culprit of the statement that the attempt stopped in,
without any walk back ending in front of its line (`culprit_of_read`).
-/

namespace Mnemonic

open Text

namespace Phrase

/-! ## What is wrong with a statement -/

/-- The word stands in front of what remains, and is as long as it can be there. -/
structure Heads (word rest : List Char) : Prop where
  ne_nil : word ≠ []
  unparted : IsUnparted word
  ends : AtSeparator rest

/-- Another word has to follow: the word is the keyword of a directive, or a label or a symbol. -/
def NeedsWord (active : Option Section) (word : List Char) : Prop :=
  word = sectionKeyword ∨ (active.isSome = true ∧ word.getLast? = some ':')

/-- No quote closes the text behind its opening one: each follows a backslash. -/
def IsUnclosed (quote : Char) (body : List Char) : Prop :=
  ∀ front back, body = front ++ quote :: back → (quote :: front).getLast? = some '\\'

/-- What is wrong with the statement at the start of a text, and at which offset from there. -/
inductive Culprit (active : Option Section) : List Char → SyntaxFault → Nat → Prop
  /-- behind a word in front of the first section directive -/
  | beforeSection {word rest : List Char} (hactive : active = none) (hword : Heads word rest)
      (hkeyword : word ≠ sectionKeyword) :
      Culprit active (word ++ rest) .statementBeforeSection (byteLength word)
  /-- behind a word of a data section that ends in no colon -/
  | missingSymbol {word rest : List Char} (hactive : active = some .data) (hword : Heads word rest)
      (hkeyword : word ≠ sectionKeyword) (hcolon : word.getLast? ≠ some ':') :
      Culprit active (word ++ rest) .missingDataSymbol (byteLength word)
  /-- behind the keyword of a directive that stands behind a label -/
  | labelledDirective {label gap rest : List Char} (hactive : active = some .text)
      (hlabel : IsUnparted label) (hgap : IsGap gap) (hrest : AtSeparator rest) :
      Culprit active (labelText (some (label, gap)) ++ sectionKeyword ++ rest) .illegalInstruction
        (byteLength (labelText (some (label, gap)) ++ sectionKeyword))
  /-- behind the name of no section -/
  | unknownSection {gap name rest : List Char} (hgap : IsGap gap) (hname : Heads name rest)
      (hunknown : ∀ s : Section, String.ofList name ≠ s.name) :
      Culprit active (sectionKeyword ++ gap ++ name ++ rest) (.invalidSectionName (.ofList name))
        (byteLength (sectionKeyword ++ gap ++ name))
  /-- behind the name of the section that is active already -/
  | activeSection {gap name rest : List Char} {s : Section} (hactive : active = some s)
      (hgap : IsGap gap) (hname : Heads name rest) (hsame : String.ofList name = s.name) :
      Culprit active (sectionKeyword ++ gap ++ name ++ rest) (.sectionRedefinition (.ofList name))
        (byteLength (sectionKeyword ++ gap ++ name))
  /-- in front of the first character behind the name of an instruction, on its line, that is neither
  blank nor fit for an operand -/
  | operandCharacter {label : Option (List Char × List Char)} {name good more : List Char} {bad : Char}
      (hactive : active = some .text) (hlabel : ∀ l ∈ label, IsUnparted l.1 ∧ IsGap l.2)
      (hname : Heads name (good ++ bad :: more)) (hkeyword : name ≠ sectionKeyword)
      (hcolon : label = none → name.getLast? ≠ some ':')
      (hgood : ∀ c ∈ good, c ≠ '\n' ∧ (isBlank c = true ∨ isOperandChar c = true))
      (hblank : isBlank bad = false) (hbad : isOperandChar bad = false) :
      Culprit active (labelText label ++ name ++ good ++ bad :: more) (.invalidOperandCharacter bad)
        (byteLength (labelText label ++ name ++ good))
  /-- at the end of the text, where it ends with a word that needs another one -/
  | endBehindWord {word : List Char} (hneeds : NeedsWord active word) (hword : Heads word []) :
      Culprit active word .unexpectedEnd (byteLength word)
  /-- at the last byte of the text, where only separators follow a word that needs another one -/
  | endBehindGap {word gap : List Char} (hneeds : NeedsWord active word) (hword : IsUnparted word)
      (hgap : IsGap gap) :
      Culprit active (word ++ gap) .unexpectedEnd (byteLength (word ++ gap) - 1)
  /-- at the last byte of the text, where a value in quotes is not closed -/
  | endInQuotes {symbol gap body : List Char} {quote : Char} (hactive : active = some .data)
      (hsymbol : IsUnparted symbol) (hgap : IsGap gap) (hquote : quote = '\'' ∨ quote = '"')
      (hbody : IsUnclosed quote body) :
      Culprit active (symbol ++ ':' :: gap ++ quote :: body) .unexpectedEnd
        (byteLength (symbol ++ ':' :: gap ++ quote :: body) - 1)

/-- The culprit of a statement stands in the text. -/
theorem Culprit.le_byteLength {active : Option Section} {t : List Char} {fault : SyntaxFault}
    {offset : Nat} (h : Culprit active t fault offset) : offset ≤ byteLength t := by
  cases h with
  | endBehindWord | endBehindGap | endInQuotes => omega
  | _ =>
      simp only [byteLength_append]
      omega

namespace Failure

variable {active : Option Section}

/-- The failure reports the culprit of the statement at the start of a text, at an offset from there.
Unless it is the end of the text, the rest of what was passed is on its line. -/
structure PointsAt (active : Option Section) (t : List Char) (f : Failure) (offset : Nat) : Prop where
  culprit : Culprit active t f.fault offset
  reported_eq : f.reported = (encode t).take offset
  passed_eq : f.fault ≠ .unexpectedEnd →
    ∃ line, '\n' ∉ line ∧ encode f.passed = f.reported ++ encode line

/-- The statement at the start of a text has a culprit that the failure reports. -/
def HasCulprit (active : Option Section) (t : List Char) (f : Failure) : Prop :=
  ∃ offset, f.PointsAt active t offset

/-- The place behind a part of the statement is reported. -/
theorem hasCulprit_within {fault : SyntaxFault} {front rest line ahead : List Char}
    (h : Culprit active (front ++ rest) fault (byteLength front)) (hline : '\n' ∉ line) :
    HasCulprit active (front ++ rest) ⟨fault, encode front, front ++ line, ahead⟩ := by
  refine ⟨byteLength front, h, ?_, fun _ => ⟨line, hline, encode_append front line⟩⟩
  rw [encode_append, ← length_encode, List.take_left]

/-- The place behind all that was passed is reported. -/
theorem hasCulprit_behind {fault : SyntaxFault} {front rest ahead : List Char}
    (h : Culprit active (front ++ rest) fault (byteLength front)) :
    HasCulprit active (front ++ rest) ⟨fault, encode front, front, ahead⟩ := by
  have hwithin : HasCulprit active (front ++ rest) ⟨fault, encode front, front ++ [], ahead⟩ :=
    hasCulprit_within h (by simp)
  rwa [List.append_nil] at hwithin

/-- The place of the last byte is reported. -/
theorem hasCulprit_atEnd {word ahead : List Char} (hahead : ahead ≠ [])
    (h : Culprit active (word ++ ahead) .unexpectedEnd (byteLength (word ++ ahead) - 1)) :
    (atEnd word ahead).HasCulprit active (word ++ ahead) := by
  refine ⟨byteLength (word ++ ahead) - 1, h, ?_, fun hend => absurd rfl hend⟩
  rw [atEnd, if_neg hahead, List.dropLast_eq_take, length_encode]

/-- Where a word that needs another one is followed by separators at most, that is what is wrong. -/
theorem hasCulprit_of_separators {word rest : List Char} (hneeds : NeedsWord active word)
    (hword : Heads word rest) (hrest : ∀ c ∈ rest, isSeparator c = true) :
    (atEnd word rest).HasCulprit active (word ++ rest) := by
  by_cases hnil : rest = []
  · rw [hnil] at hword ⊢
    have hculprit : Culprit active (word ++ []) .unexpectedEnd (byteLength word) := by
      rw [List.append_nil]
      exact .endBehindWord hneeds hword
    have hwithin : HasCulprit active (word ++ []) ⟨.unexpectedEnd, encode word, word ++ [], []⟩ :=
      hasCulprit_within hculprit (by simp)
    exact hwithin
  · exact hasCulprit_atEnd hnil (.endBehindGap hneeds hword.unparted ⟨hnil, hrest⟩)

end Failure

theorem isSeparator_of_nextWord?_eq_none {t : List Char} (h : nextWord? t = none) :
    ∀ c ∈ t, isSeparator c = true := by
  unfold nextWord? at h
  split at h
  · rename_i hdrop
    exact List.dropWhile_eq_nil_iff.1 hdrop
  · simp at h

/-- Behind an opening quote that is not closed each quote follows a backslash. -/
theorem getLast?_of_closeQuote?_eq_none {quote previous : Char} {t : List Char}
    (h : closeQuote? quote previous t = none) :
    ∀ front back, t = front ++ quote :: back → (previous :: front).getLast? = some '\\' := by
  induction t generalizing previous with
  | nil => simp
  | cons c cs ih =>
      unfold closeQuote? at h
      split at h
      · simp at h
      · rename_i hclose
        have hlater := ih (Option.map_eq_none_iff.1 h)
        intro front back ht
        cases front with
        | nil =>
            obtain ⟨rfl, -⟩ := List.cons.inj ht
            have hprevious : previous = '\\' := by simpa using hclose
            rw [hprevious]
            rfl
        | cons d front =>
            obtain ⟨rfl, hcs⟩ := List.cons.inj ht
            rw [List.getLast?_cons_cons]
            exact hlater front back hcs

/-! ## What cannot be read has a culprit -/

theorem culprit_of_directiveFrom {active : Option Section} {rest : List Char} {f : Failure}
    (hat : AtSeparator rest) (h : directiveFrom active rest = .error f) :
    f.HasCulprit active (sectionKeyword ++ rest) := by
  unfold directiveFrom at h
  split at h
  · rename_i hnone
    obtain rfl := Except.error.inj h
    have hunparted : IsUnparted sectionKeyword := by simp [IsUnparted, sectionKeyword, isSeparator]
    have hword : Heads sectionKeyword rest := ⟨List.cons_ne_nil _ _, hunparted, hat⟩
    exact Failure.hasCulprit_of_separators (.inl rfl) hword (isSeparator_of_nextWord?_eq_none hnone)
  · rename_i gap name ahead hnext
    obtain ⟨rfl, hgap, hne, hunparted, hstop⟩ := nextWord?_eq_some hnext hat
    have hname : Heads name ahead := ⟨hne, hunparted, hstop⟩
    rw [← List.append_assoc, ← List.append_assoc]
    dsimp only at h
    split at h
    · rename_i hunknown
      obtain rfl := Except.error.inj h
      refine Failure.hasCulprit_behind (.unknownSection hgap hname fun s hs => ?_)
      rw [Section.ofName?_eq_some_iff.2 hs] at hunknown
      simp at hunknown
    · rename_i s hs
      split at h
      · rename_i hactive
        obtain rfl := Except.error.inj h
        exact Failure.hasCulprit_behind
          (.activeSection hactive hgap hname (Section.ofName?_eq_some_iff.1 hs))
      · simp at h

theorem culprit_of_operandsFrom {label : Option (List Char × List Char)} {name rest : List Char}
    {f : Failure} (hlabel : ∀ l ∈ label, IsUnparted l.1 ∧ IsGap l.2) (hname : Heads name rest)
    (hkeyword : name ≠ sectionKeyword) (hcolon : label = none → name.getLast? ≠ some ':')
    (h : operandsFrom label name rest = .error f) :
    f.HasCulprit (some .text) (labelText label ++ name ++ rest) := by
  unfold operandsFrom at h
  dsimp only at h
  split at h
  · rename_i bad more hdrop
    obtain rfl := Except.error.inj h
    generalize hline : rest.takeWhile (· != '\n') = line at hdrop ⊢
    have hnone : '\n' ∉ line := by
      rw [← hline]
      exact fun hmem => absurd (List.mem_takeWhile_imp hmem) (by decide)
    have hcut : line = line.takeWhile fitsLine ++ bad :: more := by
      rw [← hdrop, List.takeWhile_append_dropWhile]
    have hbad : fitsLine bad = false := eq_false_of_dropWhile hdrop
    obtain ⟨hblank, hchar⟩ : isBlank bad = false ∧ isOperandChar bad = false := by
      simpa [fitsLine] using hbad
    have hgood : ∀ c ∈ line.takeWhile fitsLine,
        c ≠ '\n' ∧ (isBlank c = true ∨ isOperandChar c = true) := by
      intro c hc
      refine ⟨?_, by simpa [fitsLine] using List.mem_takeWhile_imp hc⟩
      rintro rfl
      exact hnone (List.takeWhile_subset _ hc)
    generalize line.takeWhile fitsLine = good at hcut hgood ⊢
    have hrest : rest = good ++ bad :: (more ++ rest.dropWhile (· != '\n')) := by
      rw [← List.cons_append, ← List.append_assoc, ← hcut, ← hline, List.takeWhile_append_dropWhile]
    have hmore : '\n' ∉ bad :: more := fun hmem =>
      hnone (hcut ▸ List.mem_append_right good hmem)
    have hpassed : labelText label ++ name ++ line = labelText label ++ name ++ good ++ bad :: more := by
      rw [List.append_assoc _ good, ← hcut]
    rw [hpassed]
    rw [hrest] at hname ⊢
    rw [← List.append_assoc]
    exact Failure.hasCulprit_within
      (.operandCharacter rfl hlabel hname hkeyword hcolon hgood hblank hchar) hmore
  · simp at h

theorem culprit_of_instructionFrom {word rest : List Char} {f : Failure} (hword : Heads word rest)
    (hkeyword : word ≠ sectionKeyword) (h : instructionFrom word rest = .error f) :
    f.HasCulprit (some .text) (word ++ rest) := by
  unfold instructionFrom at h
  split at h
  · rename_i hcolon
    split at h
    · rename_i hnone
      obtain rfl := Except.error.inj h
      exact Failure.hasCulprit_of_separators (.inr ⟨rfl, hcolon⟩) hword
        (isSeparator_of_nextWord?_eq_none hnone)
    · rename_i gap name ahead hnext
      obtain ⟨rfl, hgap, hne, hunparted, hstop⟩ := nextWord?_eq_some hnext hword.ends
      have hlabel := isUnparted_dropLast hword.unparted
      have hhead : word ++ gap = labelText (some (word.dropLast, gap)) := by
        rw [labelText, ← List.singleton_append, ← List.append_assoc, dropLast_append_colon hcolon]
      rw [← List.append_assoc, ← List.append_assoc, hhead]
      split at h
      · rename_i hname
        obtain rfl := Except.error.inj h
        rw [hname, hhead]
        exact Failure.hasCulprit_behind (.labelledDirective rfl hlabel hgap hstop)
      · rename_i hname
        refine culprit_of_operandsFrom ?_ ⟨hne, hunparted, hstop⟩ hname (by simp) h
        intro l hl
        obtain rfl := Option.some.inj hl
        exact ⟨hlabel, hgap⟩
  · rename_i hcolon
    have hlabel : ∀ l ∈ (none : Option (List Char × List Char)), IsUnparted l.1 ∧ IsGap l.2 := by simp
    exact culprit_of_operandsFrom hlabel hword hkeyword (fun _ => hcolon) h

theorem culprit_of_datumFrom {word rest : List Char} {f : Failure} (hword : Heads word rest)
    (hkeyword : word ≠ sectionKeyword) (h : datumFrom word rest = .error f) :
    f.HasCulprit (some .data) (word ++ rest) := by
  unfold datumFrom at h
  split at h
  · rename_i hcolon
    dsimp only at h
    split at h
    · rename_i hdrop
      obtain rfl := Except.error.inj h
      exact Failure.hasCulprit_of_separators (.inr ⟨rfl, hcolon⟩) hword
        (List.dropWhile_eq_nil_iff.1 hdrop)
    · rename_i c cs hdrop
      split at h
      · rename_i hquote
        split at h
        · rename_i hopen
          obtain rfl := Except.error.inj h
          have hc := eq_false_of_dropWhile hdrop
          have hrest : rest = rest.takeWhile isSeparator ++ c :: cs := by
            rw [← hdrop, List.takeWhile_append_dropWhile]
          have hgap := isGap_of_append hword.ends hrest hc isSeparator_of_mem_takeWhile
          have htext : word ++ rest =
              word.dropLast ++ ':' :: rest.takeWhile isSeparator ++ c :: cs := by
            rw [← List.singleton_append, ← List.append_assoc, dropLast_append_colon hcolon,
              List.append_assoc, ← hrest]
          refine Failure.hasCulprit_atEnd (by rw [hrest]; simp) ?_
          rw [htext]
          exact .endInQuotes rfl (isUnparted_dropLast hword.unparted) hgap hquote
            (getLast?_of_closeQuote?_eq_none hopen)
        · simp at h
      · simp at h
  · rename_i hcolon
    obtain rfl := Except.error.inj h
    exact Failure.hasCulprit_behind (.missingSymbol rfl hword hkeyword hcolon)

/-- A statement that cannot be read has a culprit. -/
theorem culprit_of_first_eq_error {active : Option Section} {previous : Option Char} {c : Char}
    {cs : List Char} {f : Failure} (h : first active previous c cs = .error f) :
    f.HasCulprit active (c :: cs) := by
  unfold first at h
  split at h
  · simp at h
  · rename_i hseparator
    split at h
    · simp at h
    · split at h
      · simp at h
      · have hne : (c :: cs).takeWhile (!isSeparator ·) ≠ [] := by
          rw [List.takeWhile_cons_of_pos (by simpa using hseparator)]
          exact List.cons_ne_nil _ _
        have hword : Heads ((c :: cs).takeWhile (!isSeparator ·))
            ((c :: cs).dropWhile (!isSeparator ·)) :=
          ⟨hne, isUnparted_takeWhile _, atSeparator_dropWhile_word _⟩
        rw [← List.takeWhile_append_dropWhile (p := (!isSeparator ·)) (l := c :: cs)]
        unfold statementFrom at h
        split at h
        · rename_i hkeyword
          rw [hkeyword]
          exact culprit_of_directiveFrom hword.ends h
        · rename_i hkeyword
          split at h
          · obtain rfl := Except.error.inj h
            exact Failure.hasCulprit_behind (.beforeSection rfl hword hkeyword)
          · exact culprit_of_instructionFrom hword hkeyword h
          · exact culprit_of_datumFrom hword hkeyword h

end Phrase

/-- Where an outline fails, the culprit is that of the statement behind its phrases. -/
theorem Outline.hasCulprit_of_failure {active : Option Section} {previous : Option Char}
    {t : List Char} {f : Phrase.Failure} (before : List Char)
    (h : (of active previous t).failure = some f) :
    ∃ ahead, t = (of active previous t).text ++ ahead ∧
      f.HasCulprit (Section.activeAfter active
        (Phrase.items before (of active previous t).phrases)) ahead := by
  induction active, previous, t using Outline.induction generalizing before with
  | nil active previous => simp at h
  | error active previous c cs f' hfirst =>
      rw [of_of_error hfirst] at h ⊢
      obtain rfl : f' = f := by simpa using h
      exact ⟨c :: cs, rfl, Phrase.culprit_of_first_eq_error hfirst⟩
  | ok active previous c cs p rest hfirst ih =>
      rw [of_of_ok hfirst] at h ⊢
      obtain ⟨ahead, hrest, hculprit⟩ := ih (before ++ p.text) h
      refine ⟨ahead, ?_, ?_⟩
      · rw [(Phrase.opens_of_first_eq_ok hfirst).text_append, text_cons, List.append_assoc]
        exact congrArg (p.text ++ ·) hrest
      · rw [Phrase.items, Section.activeAfter_append, Section.activeAfter_item?]
        exact hculprit

namespace Session

open Scanner Phrase

/-- Unless the text ends, a failure is noticed on the line that it reports, so walking back from the
cursor leads to the reported place and does not end in front of the line. -/
theorem walk_back_of_pointsAt {active : Option Section} {front ahead : List Char} {f : Failure}
    {offset : Nat} (h : f.PointsAt active ahead offset) (hend : f.fault ≠ .unexpectedEnd)
    (rest : List Char) :
    let cursor := (between (front ++ f.passed) rest).cursor
    byteLength front + offset ≤ cursor.offset ∧
      cursor.offset - (byteLength front + offset) ≤ cursor.position.column ∧
      (f.error front).position = ⟨cursor.position.line,
        cursor.position.column - (cursor.offset - (byteLength front + offset))⟩ := by
  intro cursor
  obtain ⟨line, hline, hpassed⟩ := h.passed_eq hend
  have hreported : f.reported.length = offset := by
    rw [h.reported_eq, List.length_take, length_encode, Nat.min_eq_left h.culprit.le_byteLength]
  have hbytes : encode (front ++ f.passed) = encode front ++ f.reported ++ encode line := by
    rw [encode_append, hpassed, List.append_assoc]
  have hoffset : cursor.offset = byteLength front + offset + (encode line).length := by
    rw [offset_cursor_between, ← length_encode, hbytes, List.length_append, List.length_append,
      length_encode, hreported]
  have hposition : cursor.position = .behind (encode front ++ f.reported ++ encode line) := by
    rw [← hbytes]
    exact Cursor.position_behind _ _
  have hdistance : cursor.offset - (byteLength front + offset) = (encode line).length := by
    rw [hoffset, Nat.add_sub_cancel_left]
  have hnone : Cursor.lineFeed ∉ encode line := lineFeed_notMem_encode hline
  refine ⟨hoffset ▸ Nat.le_add_right _ _, ?_, ?_⟩
  · rw [hdistance, hposition, Position.behind_append_of_notMem hnone]
    exact Nat.le_add_left _ _
  · rw [hdistance, hposition, Position.walk_back hnone]
    rfl

/-- The error of an attempt that fails is placed at the culprit of the statement that the attempt
stopped in. Unless the culprit is the end of the text, the attempt stops on the line of the culprit:
walking back from the cursor leads to the place, and does not end in front of the line. -/
theorem culprit_of_read (source : String) (attempts : Nat) (e : SyntaxError)
    (h : ((ofString source).after attempts).read.1 = .error e) :
    let s := (ofString source).after attempts
    let stopped := (ofString source).after (attempts + 1)
    let cursor := stopped.scanner.cursor
    let front := s.scanner.leave.passed ++ s.upcoming.text
    ∃ ahead offset, source.toList = front ++ ahead ∧ Culprit stopped.active ahead e.fault offset ∧
      byteLength front + offset ≤ byteLength source.toList ∧
      e.position = .ofOffset (encode source.toList) (byteLength front + offset) ∧
      (e.fault ≠ .unexpectedEnd →
        byteLength front + offset ≤ cursor.offset ∧
        cursor.offset - (byteLength front + offset) ≤ cursor.position.column ∧
        e.position = ⟨cursor.position.line,
          cursor.position.column - (cursor.offset - (byteLength front + offset))⟩) := by
  intro s stopped cursor front
  have hstands : Stands source.toList s.scanner := (sound_after source.toList attempts).stands
  obtain ⟨f, hfailure, rfl, hleft⟩ := read_of_error hstands h
  have hscanner : stopped.scanner = between (front ++ f.passed) f.ahead :=
    congrArg Session.scanner hleft
  have hactive : stopped.active = Section.activeAfter s.active s.completed :=
    congrArg Session.active hleft
  rcases hstands.leave with ⟨before, rest, hsource, hleave⟩ | hspent
  · obtain ⟨ahead, hrest, offset, hpoints⟩ :=
      Outline.hasCulprit_of_failure s.scanner.leave.passed hfailure
    have hahead : s.scanner.leave.ahead = s.upcoming.text ++ ahead := hrest
    have htext : source.toList = front ++ ahead := by
      rw [List.append_assoc, ← hahead, hleave, passed_between]
      exact hsource.symm
    have hle := hpoints.culprit.le_byteLength
    refine ⟨ahead, offset, htext, ?_, ?_, ?_, fun hend => ?_⟩
    · rw [hactive]
      exact hpoints.culprit
    · rw [htext, byteLength_append front]
      exact Nat.add_le_add_left hle _
    · rw [htext, Position.ofOffset_take front ahead hle, ← hpoints.reported_eq]
      rfl
    · have hcursor : cursor = (between (front ++ f.passed) f.ahead).cursor :=
        congrArg Scanner.cursor hscanner
      rw [hcursor]
      exact walk_back_of_pointsAt hpoints hend f.ahead
  · simp [upcoming, hspent.ahead_eq] at hfailure

/-- A question mark in an operand, behind a name of two bytes. -/
theorem culprit_of_read_questionMark :
    let source := "section .text\nl: é a?b"
    let e : SyntaxError := ⟨.invalidOperandCharacter '?', ⟨2, 7⟩⟩
    ((ofString source).after 0).read.1 = .error e ∧
      ∃ offset, Culprit (some .text) "l: é a?b".toList e.fault offset ∧
        e.position = .ofOffset (encode source.toList) (14 + offset) := by
  intro source e
  have houtline : Outline.of none none source.toList =
      ⟨[.directive [' '] .text, .blank '\n'],
        some ⟨.invalidOperandCharacter '?', encode "l: é a".toList, "l: é a?b".toList, []⟩⟩ := by
    cbv
  have hread : ((ofString source).after 0).read.1 = .error e := by
    refine (fst_read none source.toList).trans ?_
    rw [houtline]
    rfl
  have hactive : ((ofString source).after 1).active = some .text := by
    refine (active_read none source.toList).trans ?_
    rw [houtline]
    rfl
  have hfront : ((ofString source).after 0).scanner.leave.passed ++
      ((ofString source).after 0).upcoming.text = "section .text\n".toList := by
    have hstart : ((ofString source).after 0).scanner.leave = between [] source.toList :=
      leave_ofText _
    have hupcoming : ((ofString source).after 0).upcoming = Outline.of none none source.toList := by
      rw [upcoming, hstart]
      rfl
    rw [hstart, passed_between, hupcoming, houtline]
    cbv
  obtain ⟨ahead, offset, htext, hculprit, -, hposition, -⟩ := culprit_of_read source 0 e hread
  rw [hfront] at htext hposition
  obtain rfl : ahead = "l: é a?b".toList := by
    have hsource : source.toList = "section .text\n".toList ++ "l: é a?b".toList := by cbv
    exact List.append_cancel_left (htext.symm.trans hsource)
  rw [hactive] at hculprit
  exact ⟨hread, offset, hculprit, hposition⟩

end Session

end Mnemonic
