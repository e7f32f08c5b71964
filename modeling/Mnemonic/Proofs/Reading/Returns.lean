import Mnemonic.Proofs.Reading.Lines
import Mnemonic.Proofs.Reading.Positions

set_option autoImplicit false

/-!
# Carriage returns in front of line feeds

A carriage return parts words and is a blank, but it does not end a line. So a text in which one stands
in front of each line feed is cut into the same phrases, which differ in little: gaps and quoted values
hold the carriage returns, a comment and the last blanks of an instruction take in the one at the end of
their line, and where a phrase was a line feed, or had one behind its quote, there is the carriage
return instead and the line feed is left for later.

Main statements: reading a phrase in the text with carriage returns gives the phrase with carriage
returns, or the same fault (`returns_first`); and its text is that of the phrase with carriage returns,
up to one carriage return more or one line feed less at its end (`text_withReturns`).
-/

namespace Mnemonic

open Text

namespace Text

/-- The text with a carriage return in front of each line feed. -/
def withReturns (t : List Char) : List Char :=
  t.flatMap fun c => if c = '\n' then ['\r', '\n'] else [c]

/-- The carriage return at the end of a line, if a line feed ends it. -/
def returnBefore (rest : List Char) : List Char :=
  if rest.head? = some '\n' then ['\r'] else []

@[simp] theorem withReturns_nil : withReturns [] = [] := rfl

@[simp] theorem withReturns_cons_lineFeed (t : List Char) :
    withReturns ('\n' :: t) = '\r' :: '\n' :: withReturns t := rfl

theorem withReturns_cons_of_ne {c : Char} (h : c ≠ '\n') (t : List Char) :
    withReturns (c :: t) = c :: withReturns t := by
  rw [withReturns, List.flatMap_cons, if_neg h]
  rfl

@[simp] theorem withReturns_append (a b : List Char) :
    withReturns (a ++ b) = withReturns a ++ withReturns b :=
  List.flatMap_append

theorem withReturns_of_notMem {t : List Char} (h : '\n' ∉ t) : withReturns t = t := by
  induction t with
  | nil => rfl
  | cons c t ih =>
      have hc : c ≠ '\n' := fun heq => h (heq ▸ List.mem_cons_self)
      rw [withReturns_cons_of_ne hc, ih fun hmem => h (List.mem_cons_of_mem c hmem)]

/-- Both texts end with the same character. -/
theorem getLast?_withReturns (t : List Char) : (withReturns t).getLast? = t.getLast? := by
  induction t using List.reverseRecOn with
  | nil => rfl
  | append_singleton t c _ =>
      have hlast : (withReturns [c]).getLast? = some c := by
        by_cases hc : c = '\n'
        · rw [hc]
          rfl
        · rw [withReturns_cons_of_ne hc]
          rfl
      rw [withReturns_append, List.getLast?_append, hlast, List.getLast?_append]
      rfl

/-! ## Runs of characters -/

variable {p : Char → Bool}

/-- A run goes as far with carriage returns when it treats them as line feeds. -/
theorem takeWhile_withReturns (hp : p '\r' = p '\n') (t : List Char) :
    (withReturns t).takeWhile p = withReturns (t.takeWhile p) := by
  induction t with
  | nil => rfl
  | cons c t ih =>
      by_cases hc : c = '\n'
      · rw [hc, withReturns_cons_lineFeed, List.takeWhile_cons, List.takeWhile_cons, hp, ih,
          List.takeWhile_cons]
        cases p '\n' <;> rfl
      · rw [withReturns_cons_of_ne hc, List.takeWhile_cons, List.takeWhile_cons, ih]
        cases p c
        · rfl
        · exact (withReturns_cons_of_ne hc _).symm

theorem dropWhile_withReturns (hp : p '\r' = p '\n') (t : List Char) :
    (withReturns t).dropWhile p = withReturns (t.dropWhile p) := by
  have hsplit : withReturns (t.takeWhile p) ++ (withReturns t).dropWhile p =
      withReturns (t.takeWhile p) ++ withReturns (t.dropWhile p) := by
    rw [← takeWhile_withReturns hp, List.takeWhile_append_dropWhile, takeWhile_withReturns hp,
      ← withReturns_append, List.takeWhile_append_dropWhile]
  exact List.append_cancel_left hsplit

/-- The rest of the line takes in the carriage return at its end. -/
theorem takeWhile_line_withReturns (t : List Char) :
    (withReturns t).takeWhile (· != '\n') =
      t.takeWhile (· != '\n') ++ returnBefore (t.dropWhile (· != '\n')) := by
  induction t with
  | nil => rfl
  | cons c t ih =>
      by_cases hc : c = '\n'
      · rw [hc]
        rfl
      · have hpass : (c != '\n') = true := bne_iff_ne.2 hc
        rw [withReturns_cons_of_ne hc, List.takeWhile_cons_of_pos (p := (· != '\n')) hpass, ih,
          List.takeWhile_cons_of_pos (p := (· != '\n')) hpass,
          List.dropWhile_cons_of_pos (p := (· != '\n')) hpass, List.cons_append]

/-- A run stops where something stands behind it that it cannot pass. -/
theorem takeWhile_append_of_stop {more : List Char} (h : ∀ c ∈ more.head?, p c = false)
    (t : List Char) : (t ++ more).takeWhile p = t.takeWhile p := by
  have hmore : more.takeWhile p = [] := by
    cases more with
    | nil => rfl
    | cons c more => exact List.takeWhile_cons_of_neg (by simp [h c rfl])
  rw [List.takeWhile_append, hmore, List.append_nil]
  split
  · rename_i hall
    exact ((List.takeWhile_prefix p).eq_of_length hall).symm
  · rfl

theorem dropWhile_append_of_stop {more : List Char} (h : ∀ c ∈ more.head?, p c = false)
    (t : List Char) : (t ++ more).dropWhile p = t.dropWhile p ++ more := by
  have hsplit : t.takeWhile p ++ (t ++ more).dropWhile p = t.takeWhile p ++ (t.dropWhile p ++ more) := by
    rw [← takeWhile_append_of_stop h t, List.takeWhile_append_dropWhile, takeWhile_append_of_stop h,
      ← List.append_assoc, List.takeWhile_append_dropWhile]
  exact List.append_cancel_left hsplit

end Text

namespace Phrase

/-! ## The phrase with carriage returns -/

/-- The phrase that is read in place of a phrase when carriage returns stand in front of the line feeds,
in the phrase and at the start of what remains behind it. -/
def withReturns (rest : List Char) : Phrase → Phrase
  | blank c => if c = '\n' then blank '\r' else blank c
  | comment remark => comment (remark ++ returnBefore rest)
  | directive gap s => directive (Text.withReturns gap) s
  | datum symbol gap value dropped =>
      datum symbol (Text.withReturns gap) (Text.withReturns value) ((Text.withReturns dropped).take 1)
  | instruction label name operands trailing =>
      instruction (label.map fun l => (l.1, Text.withReturns l.2)) name operands
        (trailing ++ returnBefore rest)

/-- What a phrase takes in of the end of its line. -/
def returnBehind (rest : List Char) : Phrase → List Char
  | comment _ => returnBefore rest
  | instruction _ _ _ _ => returnBefore rest
  | _ => []

/-- It is a carriage return at most, and then a line feed is ahead. -/
theorem returnBehind_eq_nil_or (rest : List Char) (p : Phrase) :
    p.returnBehind rest = [] ∨ (rest.head? = some '\n' ∧ p.returnBehind rest = ['\r']) := by
  by_cases hrest : rest.head? = some '\n' <;> cases p <;> simp [returnBehind, returnBefore, hrest]

@[simp] theorem section?_withReturns (rest : List Char) (p : Phrase) :
    (p.withReturns rest).section? = p.section? := by
  cases p with
  | blank c => by_cases hc : c = '\n' <;> simp [withReturns, hc, section?]
  | _ => rfl

theorem withReturns_labelText {label : Option (List Char × List Char)}
    (h : ∀ l ∈ label, IsUnparted l.1) :
    labelText (label.map fun l => (l.1, Text.withReturns l.2)) =
      Text.withReturns (labelText label) := by
  cases label with
  | none => rfl
  | some l =>
      have hword := withReturns_of_notMem (lineFeed_notMem_of_isUnparted (h l rfl))
      simp only [Option.map_some, labelText, withReturns_append, hword]
      rw [withReturns_cons_of_ne (by decide)]

/-- The part that is passed over has the carriage returns, with the one at the end of the line. -/
theorem passed_withReturns {p : Phrase} (h : p.WellFormed) (rest : List Char) :
    (p.withReturns rest).passed = Text.withReturns p.passed ++ p.returnBehind rest := by
  cases p with
  | blank c => by_cases hc : c = '\n' <;> simp [withReturns, hc, passed, returnBehind]
  | comment remark =>
      rw [passed, withReturns_of_notMem h.2]
      rfl
  | directive gap s =>
      have hname : Text.withReturns s.name.toList = s.name.toList := by cases s <;> rfl
      have hkeyword : Text.withReturns sectionKeyword = sectionKeyword := rfl
      simp [withReturns, passed, returnBehind, hname, hkeyword]
  | datum symbol gap value dropped =>
      have hsymbol := withReturns_of_notMem (lineFeed_notMem_of_isUnparted h.1)
      have hcolon (t : List Char) : Text.withReturns (':' :: t) = ':' :: Text.withReturns t :=
        withReturns_cons_of_ne (by decide) t
      simp [withReturns, passed, returnBehind, hsymbol, hcolon]
  | instruction label name operands trailing =>
      obtain ⟨hlabel, -, hname, hoperands, htrailing⟩ := h
      have hword := withReturns_of_notMem (lineFeed_notMem_of_isUnparted hname)
      have hline := withReturns_of_notMem (lineFeed_notMem_operandText hoperands htrailing)
      have hfront := withReturns_labelText fun l hl => (hlabel l hl).1
      simp only [withReturns, passed, returnBehind, hfront, List.append_assoc, withReturns_append,
        hword] at hline ⊢
      rw [← List.append_assoc (Text.withReturns (operandText operands)), hline, List.append_assoc]

/-- Of a line feed that is left unread the carriage return is left, and the line feed comes later. -/
theorem unread_withReturns (rest : List Char) (p : Phrase) :
    (p.withReturns rest).unread = (Text.withReturns p.unread).take 1 := by
  cases p with
  | blank c =>
      by_cases hc : c = '\n'
      · simp [withReturns, hc, unread]
      · simp [withReturns, hc, unread, withReturns_cons_of_ne hc]
  | _ => rfl

/-- The text of the phrase with carriage returns is the text of the phrase with carriage returns, or the
phrase takes in the one of the line feed that is ahead too, or it leaves its own line feed for later. -/
theorem text_withReturns {p : Phrase} (h : p.WellFormed) (rest : List Char) :
    (p.withReturns rest).text = Text.withReturns p.text ∨
      (rest.head? = some '\n' ∧ (p.withReturns rest).text = Text.withReturns p.text ++ ['\r']) ∨
      (p.withReturns rest).text ++ ['\n'] = Text.withReturns p.text := by
  rw [text, passed_withReturns h, unread_withReturns, text, withReturns_append]
  rcases unread_eq_nil_or_singleton h with hnil | ⟨d, hd⟩
  · rw [hnil]
    rcases returnBehind_eq_nil_or rest p with hbehind | ⟨hrest, hbehind⟩
    · exact .inl (by simp [hbehind])
    · exact .inr (.inl ⟨hrest, by simp [hbehind]⟩)
  · have hbehind : p.returnBehind rest = [] := by
      cases p with
      | blank c => rfl
      | datum symbol gap value dropped => rfl
      | _ => simp [unread] at hd
    rw [hd, hbehind]
    by_cases hlf : d = '\n'
    · exact .inr (.inr (by simp [hlf]))
    · exact .inl (by simp [withReturns_cons_of_ne hlf])

/-! ## Reading a phrase -/

/-- What is read with carriage returns: the phrase with carriage returns, or the same fault. -/
def Returns (r r' : Except Failure (Phrase × List Char)) : Prop :=
  match r with
  | .ok (p, rest) => ∃ rest', r' = .ok (p.withReturns rest, rest')
  | .error f => ∃ f', r' = .error f' ∧ f'.fault = f.fault

theorem returns_error {f f' : Failure} (h : f'.fault = f.fault) :
    Returns (.error f) (.error f') :=
  ⟨f', rfl, h⟩

theorem takeWhile_word_withReturns (t : List Char) :
    (Text.withReturns t).takeWhile (!isSeparator ·) = t.takeWhile (!isSeparator ·) := by
  rw [takeWhile_withReturns (p := (!isSeparator ·)) rfl]
  exact withReturns_of_notMem (lineFeed_notMem_of_isUnparted (isUnparted_takeWhile t))

theorem dropWhile_word_withReturns (t : List Char) :
    (Text.withReturns t).dropWhile (!isSeparator ·) =
      Text.withReturns (t.dropWhile (!isSeparator ·)) :=
  dropWhile_withReturns (p := (!isSeparator ·)) rfl t

/-- No line feed stands directly behind separators. -/
theorem ne_lineFeed_of_dropWhile {t cs : List Char} {c : Char}
    (h : t.dropWhile isSeparator = c :: cs) : c ≠ '\n' := by
  rintro rfl
  exact absurd (eq_false_of_dropWhile h) (by decide)

theorem withReturns_of_dropWhile {t cs : List Char} {c : Char}
    (h : t.dropWhile isSeparator = c :: cs) :
    (Text.withReturns t).dropWhile isSeparator = c :: Text.withReturns cs := by
  rw [dropWhile_withReturns rfl, h, withReturns_cons_of_ne (ne_lineFeed_of_dropWhile h)]

theorem nextWord?_withReturns (t : List Char) :
    nextWord? (Text.withReturns t) = (nextWord? t).map fun (gap, word, rest) =>
      (Text.withReturns gap, word, Text.withReturns rest) := by
  unfold nextWord?
  cases hdrop : t.dropWhile isSeparator with
  | nil =>
      rw [dropWhile_withReturns rfl, hdrop]
      rfl
  | cons c cs =>
      have hc := ne_lineFeed_of_dropWhile hdrop
      rw [withReturns_of_dropWhile hdrop, takeWhile_withReturns rfl]
      simp only [Option.map_some]
      rw [← withReturns_cons_of_ne hc, takeWhile_word_withReturns, dropWhile_word_withReturns]

theorem returns_directiveFrom (active : Option Section) (rest : List Char) :
    Returns (directiveFrom active rest) (directiveFrom active (Text.withReturns rest)) := by
  unfold directiveFrom
  rw [nextWord?_withReturns]
  cases nextWord? rest with
  | none => exact returns_error rfl
  | some found =>
      obtain ⟨gap, name, rest⟩ := found
      dsimp only [Option.map_some]
      cases Section.ofName? (String.ofList name) with
      | none => exact returns_error rfl
      | some s =>
          by_cases hactive : active = some s
          · simp only [if_pos hactive]
            exact returns_error rfl
          · simp only [if_neg hactive]
            exact ⟨_, rfl⟩

theorem isBlank_of_mem_returnBefore (rest : List Char) : ∀ c ∈ returnBefore rest, isBlank c = true := by
  intro c hc
  unfold returnBefore at hc
  split at hc
  · obtain rfl := List.mem_singleton.1 hc
    rfl
  · simp at hc

/-- Blanks at the end of a line go to its last blanks. -/
theorem cutAtBlanks_append (line : List Char) {blanks : List Char}
    (h : ∀ c ∈ blanks, isBlank c = true) :
    cutAtBlanks (line ++ blanks) = ((cutAtBlanks line).1, (cutAtBlanks line).2 ++ blanks) := by
  induction line using cutAtBlanks.induct with
  | case1 line hdrop =>
      have hall : (line ++ blanks).dropWhile isBlank = [] := by
        rw [List.dropWhile_eq_nil_iff] at hdrop ⊢
        intro c hc
        exact (List.mem_append.1 hc).elim (hdrop c) (h c)
      rw [cutAtBlanks_of_nil hall, cutAtBlanks_of_nil hdrop]
  | case2 line c cs hdrop ih =>
      have hroom : line.dropWhile isBlank ≠ [] := by
        rw [hdrop]
        exact List.cons_ne_nil c cs
      have hmore : (line ++ blanks).dropWhile isBlank = c :: (cs ++ blanks) := by
        rw [dropWhile_append_of_ne hroom, hdrop, List.cons_append]
      have hstop : ∀ d ∈ blanks.head?, (!isBlank d) = false := by
        intro d hd
        rw [h d (List.mem_of_mem_head? hd), Bool.not_true]
      rw [cutAtBlanks_of_cons hmore, cutAtBlanks_of_cons hdrop, takeWhile_append_of_ne hroom,
        ← List.cons_append, takeWhile_append_of_stop (p := (!isBlank ·)) hstop,
        dropWhile_append_of_stop (p := (!isBlank ·)) hstop, ih]

theorem returns_operandsFrom (label : Option (List Char × List Char)) (name rest : List Char) :
    Returns (operandsFrom label name rest)
      (operandsFrom (label.map fun l => (l.1, Text.withReturns l.2)) name (Text.withReturns rest)) := by
  have hblanks := isBlank_of_mem_returnBefore (rest.dropWhile (· != '\n'))
  unfold operandsFrom
  rw [takeWhile_line_withReturns]
  dsimp only
  cases hdrop : (rest.takeWhile (· != '\n')).dropWhile fitsLine with
  | nil =>
      have hfits : (rest.takeWhile (· != '\n') ++
          returnBefore (rest.dropWhile (· != '\n'))).dropWhile fitsLine = [] := by
        rw [List.dropWhile_eq_nil_iff] at hdrop ⊢
        intro c hc
        rcases List.mem_append.1 hc with hc | hc
        · exact hdrop c hc
        · rw [fitsLine, hblanks c hc, Bool.true_or]
      rw [hfits, cutAtBlanks_append _ hblanks]
      exact ⟨_, rfl⟩
  | cons bad cs =>
      have hroom : (rest.takeWhile (· != '\n')).dropWhile fitsLine ≠ [] := by
        rw [hdrop]
        exact List.cons_ne_nil bad cs
      rw [dropWhile_append_of_ne hroom, hdrop]
      exact returns_error rfl

theorem returns_instructionFrom (word rest : List Char) :
    Returns (instructionFrom word rest) (instructionFrom word (Text.withReturns rest)) := by
  unfold instructionFrom
  by_cases hcolon : word.getLast? = some ':'
  · simp only [if_pos hcolon]
    rw [nextWord?_withReturns]
    cases nextWord? rest with
    | none => exact returns_error rfl
    | some found =>
        obtain ⟨gap, name, rest⟩ := found
        dsimp only [Option.map_some]
        by_cases hkey : name = sectionKeyword
        · simp only [if_pos hkey]
          exact returns_error rfl
        · simp only [if_neg hkey]
          exact returns_operandsFrom (some (word.dropLast, gap)) name rest
  · simp only [if_neg hcolon]
    exact returns_operandsFrom none word rest

/-- The quote is closed at the same place: it is no carriage return, and what matters in front of it is
a backslash. -/
theorem closeQuote?_withReturns {quote : Char} (hquote : quote = '\'' ∨ quote = '"') (previous : Char)
    (t : List Char) :
    closeQuote? quote previous (Text.withReturns t) = (closeQuote? quote previous t).map
      fun (body, rest) => (Text.withReturns body, Text.withReturns rest) := by
  induction t generalizing previous with
  | nil => rfl
  | cons c t ih =>
      by_cases hc : c = '\n'
      · have hlf : '\n' ≠ quote := by rcases hquote with rfl | rfl <;> decide
        have hcr : '\r' ≠ quote := by rcases hquote with rfl | rfl <;> decide
        rw [hc, withReturns_cons_lineFeed, closeQuote?, if_neg fun h => hcr h.1, closeQuote?,
          if_neg fun h => hlf h.1, ih, closeQuote?, if_neg fun h => hlf h.1]
        cases closeQuote? quote '\n' t <;> rfl
      · rw [withReturns_cons_of_ne hc, closeQuote?, closeQuote?]
        by_cases hclose : c = quote ∧ previous ≠ '\\'
        · rw [if_pos hclose, if_pos hclose]
          rfl
        · rw [if_neg hclose, if_neg hclose, ih]
          cases closeQuote? quote c t with
          | none => rfl
          | some found => simp [withReturns_cons_of_ne hc]

/-- Of two characters at the front, a line feed and its carriage return, the latter comes first. -/
theorem take_one_withReturns (t : List Char) :
    (Text.withReturns t).take 1 = (Text.withReturns (t.take 1)).take 1 := by
  cases t with
  | nil => rfl
  | cons c t =>
      by_cases hc : c = '\n'
      · rw [hc]
        rfl
      · simp [withReturns_cons_of_ne hc]

theorem returns_datumFrom (word rest : List Char) :
    Returns (datumFrom word rest) (datumFrom word (Text.withReturns rest)) := by
  unfold datumFrom
  by_cases hcolon : word.getLast? = some ':'
  · simp only [if_pos hcolon]
    cases hdrop : rest.dropWhile isSeparator with
    | nil =>
        rw [dropWhile_withReturns rfl, hdrop]
        exact returns_error rfl
    | cons c cs =>
        have hc := ne_lineFeed_of_dropWhile hdrop
        rw [withReturns_of_dropWhile hdrop, takeWhile_withReturns rfl]
        dsimp only
        by_cases hquote : c = '\'' ∨ c = '"'
        · simp only [if_pos hquote]
          rw [closeQuote?_withReturns hquote]
          cases closeQuote? c c cs with
          | none => exact returns_error rfl
          | some found =>
              obtain ⟨body, ahead⟩ := found
              have hvalue : c :: Text.withReturns body ++ [c] = Text.withReturns (c :: body ++ [c]) := by
                simp [withReturns_cons_of_ne hc]
              dsimp only [Option.map_some]
              rw [take_one_withReturns, hvalue]
              exact ⟨_, rfl⟩
        · simp only [if_neg hquote]
          have hvalue : (c :: cs).takeWhile (!isSeparator ·) =
              Text.withReturns ((c :: cs).takeWhile (!isSeparator ·)) :=
            (withReturns_of_notMem (lineFeed_notMem_of_isUnparted (isUnparted_takeWhile _))).symm
          rw [← withReturns_cons_of_ne hc, takeWhile_word_withReturns]
          refine ⟨(Text.withReturns (c :: cs)).dropWhile (!isSeparator ·), ?_⟩
          rw [withReturns, ← hvalue]
          rfl
  · simp only [if_neg hcolon]
    exact returns_error rfl

theorem returns_statementFrom (active : Option Section) (word rest : List Char) :
    Returns (statementFrom active word rest) (statementFrom active word (Text.withReturns rest)) := by
  unfold statementFrom
  by_cases hkey : word = sectionKeyword
  · simp only [if_pos hkey]
    exact returns_directiveFrom active rest
  · simp only [if_neg hkey]
    cases active with
    | none => exact returns_error rfl
    | some s =>
        cases s with
        | text => exact returns_instructionFrom word rest
        | data => exact returns_datumFrom word rest

/-- Reading a phrase in the text with carriage returns gives the phrase with carriage returns, or the
same fault. -/
theorem returns_first (active : Option Section) (previous : Option Char) (c : Char) (cs : List Char) :
    ∃ c' cs', Text.withReturns (c :: cs) = c' :: cs' ∧
      Returns (first active previous c cs) (first active previous c' cs') := by
  by_cases hc : c = '\n'
  · subst hc
    exact ⟨'\r', '\n' :: Text.withReturns cs, rfl, '\n' :: Text.withReturns cs, rfl⟩
  · refine ⟨c, Text.withReturns cs, withReturns_cons_of_ne hc cs, ?_⟩
    unfold first
    by_cases hsep : isSeparator c = true
    · simp only [if_pos hsep]
      exact ⟨Text.withReturns cs, by simp [withReturns, hc]⟩
    · simp only [if_neg hsep]
      by_cases hstarts : startsComment previous c = true
      · simp only [if_pos hstarts]
        rw [← withReturns_cons_of_ne hc, takeWhile_line_withReturns]
        exact ⟨_, rfl⟩
      · simp only [if_neg hstarts]
        by_cases hslash : c = '/'
        · simp only [if_pos hslash]
          exact ⟨Text.withReturns cs, by simp [withReturns, hc]⟩
        · simp only [if_neg hslash]
          rw [← withReturns_cons_of_ne hc, takeWhile_word_withReturns, dropWhile_word_withReturns]
          exact returns_statementFrom active _ _

end Phrase

end Mnemonic
