import Mnemonic.Proofs.Reading.Operands

set_option autoImplicit false

/-!
# The scanner reads phrases

Each action of the reader that starts at the beginning of a word does with the scanner what the
reading of phrases does with the remaining text: it finds the same item, or fails with the same fault
at the same place, and leaves the scanner behind what the phrase passes over.

Main statement: reading an item agrees with reading a phrase (`agrees_item`). It is put together from
one such statement for each kind of phrase, and from the two ways in which a next word can be read
(`word_true_of_some`, `word_true_of_none`).
-/

namespace Mnemonic

open Text Scanner

namespace Phrase

/-- The outcome of a scan is what the reading of a phrase behind some text makes of it. -/
def Agrees {α : Type} (before : List Char) (item : α → Option Item)
    (reading : Except Failure (Phrase × List Char)) (outcome : EStateM.Result SyntaxError Scanner α) :
    Prop :=
  match reading with
  | .error f => outcome = .error (f.error before) (between (before ++ f.passed) f.ahead)
  | .ok (p, rest) => ∃ a, outcome = .ok a (between (before ++ p.passed) (p.unread ++ rest)) ∧
      item a = p.item? before

theorem Agrees.of_ok {α : Type} {before rest : List Char} {item : α → Option Item} {p : Phrase}
    {outcome : EStateM.Result SyntaxError Scanner α} {a : α}
    (h : outcome = .ok a (between (before ++ p.passed) (p.unread ++ rest)))
    (hitem : item a = p.item? before) : Agrees before item (.ok (p, rest)) outcome :=
  ⟨a, h, hitem⟩

/-- A result that is only wrapped up agrees when it agrees unwrapped. -/
theorem Agrees.map {α β : Type} {before : List Char} {item : α → Option Item} {item' : β → Option Item}
    {reading : Except Failure (Phrase × List Char)} {x : Scan α} {s : Scanner} {wrap : α → β}
    (h : Agrees before item reading (x s)) (hitem : ∀ a, item' (wrap a) = item a) :
    Agrees before item' reading ((x >>= fun a => pure (wrap a)) s) := by
  cases reading with
  | error f => exact Scan.bind_of_error h
  | ok found =>
      obtain ⟨p, rest⟩ := found
      obtain ⟨a, hx, ha⟩ := h
      refine Agrees.of_ok ?_ ((hitem a).trans ha)
      rw [Scan.bind_of_ok hx]
      rfl

namespace Failure

theorem error_encode (fault : SyntaxFault) (passed ahead before : List Char) :
    (Failure.mk fault (encode passed) passed ahead).error before =
      ⟨fault, Position.behind (encode (before ++ passed))⟩ := by
  rw [error, encode_append]

theorem error_atEnd_nil (word before : List Char) :
    (atEnd word []).error before = ⟨.unexpectedEnd, Position.behind (encode (before ++ word))⟩ := by
  simp [atEnd, error]

theorem error_atEnd {word ahead : List Char} (h : ahead ≠ []) (before : List Char) :
    (atEnd word ahead).error before =
      ⟨.unexpectedEnd, Position.behind (encode (before ++ word ++ ahead)).dropLast⟩ := by
  have hne : encode (word ++ ahead) ≠ [] := by
    rw [Ne, encode_eq_nil_iff, List.append_eq_nil_iff]
    exact fun hnil => h hnil.2
  simp only [atEnd, error, if_neg h]
  rw [List.append_assoc, encode_append before, List.dropLast_append_of_ne_nil hne]

end Failure

end Phrase

namespace Scan

open Phrase

/-! ## Words -/

theorem word_false (before : List Char) {t : List Char} (h : ∀ c ∈ t.head?, isSeparator c = false) :
    word false (between before t) =
      .ok ⟨t.takeWhile (!isSeparator ·), .behind before (t.takeWhile (!isSeparator ·))⟩
        (between (before ++ t.takeWhile (!isSeparator ·)) (t.dropWhile (!isSeparator ·))) := by
  have hgap : t.takeWhile isSeparator = [] ∧ t.dropWhile isSeparator = t := by
    cases t with
    | nil => exact ⟨rfl, rfl⟩
    | cons c cs => simp [h c rfl]
  rw [word, bind_of_ok (passWhile_between _ before t (Or.inl rfl)), hgap.1, hgap.2, List.append_nil,
    bind_of_ok (offset_between _ _), bind_of_ok (passWhile_between _ before t (Or.inl rfl)),
    bind_of_ok (offset_between _ _)]
  simp only [Bool.false_and, Bool.false_eq_true, if_false, byteLength_append]
  exact bind_of_ok (slice_between rfl)

/-- A next word is read over the separators in front of it. -/
theorem word_true_of_some (before : List Char) {t gap name rest : List Char}
    (h : nextWord? t = some (gap, name, rest)) :
    word true (between before t) =
      .ok ⟨name, .behind (before ++ gap) name⟩ (between (before ++ gap ++ name) rest) := by
  unfold nextWord? at h
  split at h
  · simp at h
  · rename_i c cs hdrop
    obtain ⟨rfl, rfl, rfl⟩ : t.takeWhile isSeparator = gap ∧
        (c :: cs).takeWhile (!isSeparator ·) = name ∧
        (c :: cs).dropWhile (!isSeparator ·) = rest := by simpa using h
    have hc : isSeparator c = false := eq_false_of_dropWhile hdrop
    have hroom : t.dropWhile isSeparator ≠ [] := by
      rw [hdrop]
      exact List.cons_ne_nil c cs
    have hname : (c :: cs).takeWhile (!isSeparator ·) ≠ [] := by
      rw [List.takeWhile_cons_of_pos (by simp [hc])]
      exact List.cons_ne_nil _ _
    have hfull : (Span.behind (before ++ t.takeWhile isSeparator)
        ((c :: cs).takeWhile (!isSeparator ·))).isEmpty = false := by
      rw [Bool.eq_false_iff, Ne, Span.isEmpty_behind_iff]
      exact hname
    rw [word, bind_of_ok (passWhile_between _ before t (Or.inr (Or.inl hroom))), hdrop,
      bind_of_ok (offset_between _ _), bind_of_ok (passWhile_between _ _ _ (Or.inl rfl)),
      bind_of_ok (offset_between _ _)]
    rw [Span.behind] at hfull
    simp only [byteLength_append (before ++ _), hfull, Bool.and_false, Bool.false_eq_true, if_false]
    exact bind_of_ok (slice_between rfl)

/-- Separators that nothing follows are passed over up to the end, which is a failure there. -/
theorem passSeparators_of_end (before word : List Char) {t : List Char} (hne : t ≠ [])
    (h : t.dropWhile isSeparator = []) :
    passWhile true isSeparator (between (before ++ word) t) =
      .error ((Failure.atEnd word t).error before)
        (between (before ++ (Failure.atEnd word t).passed) (Failure.atEnd word t).ahead) := by
  rw [passWhile_end _ _ hne h, Failure.error_atEnd hne, List.append_assoc before word t]
  rfl

/-- Where there is no next word, the end of the text is reported. -/
theorem word_true_of_none (before first : List Char) {t : List Char} (h : nextWord? t = none) :
    word true (between (before ++ first) t) =
      .error ((Failure.atEnd first t).error before)
        (between (before ++ (Failure.atEnd first t).passed) (Failure.atEnd first t).ahead) := by
  have hdrop : t.dropWhile isSeparator = [] := by
    unfold nextWord? at h
    split at h
    · assumption
    · simp at h
  by_cases ht : t = []
  · subst ht
    have hempty : (Span.mk (byteLength (before ++ first)) (byteLength (before ++ first))).isEmpty =
        true := by
      rw [Span.isEmpty_iff]
    rw [word, bind_of_ok (passWhile_between _ _ _ (Or.inr (Or.inr rfl)))]
    simp only [List.takeWhile_nil, List.dropWhile_nil, List.append_nil]
    rw [bind_of_ok (offset_between _ _), bind_of_ok (passWhile_between _ _ _ (Or.inl rfl))]
    simp only [List.takeWhile_nil, List.dropWhile_nil, List.append_nil]
    rw [bind_of_ok (offset_between _ _)]
    simp only [hempty, Bool.and_true, if_true]
    rw [fail_between, Failure.error_atEnd_nil]
    simp [Failure.atEnd]
  · rw [word]
    exact bind_of_error (passSeparators_of_end before first ht hdrop)

/-! ## Section directives -/

theorem agrees_sectionName (active : Option Section) (before rest : List Char) :
    Agrees before (fun s => some (.section s)) (directiveFrom active rest)
      (sectionName active (between (before ++ sectionKeyword) rest)) := by
  unfold directiveFrom
  cases hnext : nextWord? rest with
  | none => exact bind_of_error (word_true_of_none before sectionKeyword hnext)
  | some found =>
      obtain ⟨gap, name, ahead⟩ := found
      have hplace : before ++ sectionKeyword ++ gap ++ name =
          before ++ (sectionKeyword ++ gap ++ name) := by
        simp only [List.append_assoc]
      rw [sectionName, bind_of_ok (word_true_of_some (before ++ sectionKeyword) hnext), hplace]
      dsimp only
      cases hname : Section.ofName? (String.ofList name) with
      | none =>
          refine (fail_between _ _ _).trans ?_
          rw [Failure.error_encode]
      | some s =>
          have hs : String.ofList name = s.name := Section.ofName?_eq_some_iff.1 hname
          by_cases hactive : active = some s
          · simp only [if_pos hactive]
            refine (fail_between _ _ _).trans ?_
            rw [Failure.error_encode, hs]
          · simp only [if_neg hactive]
            refine ⟨s, ?_, rfl⟩
            have htext : name = s.name.toList := by
              rw [← hs, String.toList_ofList]
            rw [htext]
            rfl

/-! ## Instructions -/

/-- The spaces in front of the operands are part of the line like any other blanks. -/
theorem operands_between (before rest : List Char) :
    operands (between before rest) =
      operandList (operandSpans before (cutAtBlanks (rest.takeWhile (· != '\n'))).1)
        (between (before ++ rest.takeWhile (· != '\n')) (rest.dropWhile (· != '\n'))) := by
  have hspace : ∀ c ∈ rest.takeWhile (· == ' '), (c != '\n') = true ∧ isBlank c = true := by
    intro c hc
    have hc' : c = ' ' := by simpa using List.mem_takeWhile_imp hc
    rw [hc']
    exact ⟨rfl, by decide⟩
  have hrest : rest = rest.takeWhile (· == ' ') ++ rest.dropWhile (· == ' ') :=
    List.takeWhile_append_dropWhile.symm
  rw [operands, bind_of_ok (passWhile_between _ before rest (Or.inl rfl)),
    bind_of_ok (offset_between _ _), bind_of_ok (passWhile_between _ _ _ (Or.inl rfl)),
    bind_of_ok (offset_between _ _)]
  generalize rest.takeWhile (· == ' ') = spaces at hspace hrest
  generalize rest.dropWhile (· == ' ') = others at hrest
  subst hrest
  have hpos : ∀ c ∈ spaces, (c != '\n') = true := fun c hc => (hspace c hc).1
  rw [List.takeWhile_append_of_pos hpos, List.dropWhile_append_of_pos hpos,
    ← Span.betweenBlanks_eq_operandSpans,
    Span.betweenBlanks_append_of_blank _ fun c hc => (hspace c hc).2]
  generalize others.takeWhile (· != '\n') = line
  generalize others.dropWhile (· != '\n') = rest
  have hslice : slice (.behind (before ++ spaces) line) (between (before ++ spaces ++ line) rest) =
      .ok line (between (before ++ spaces ++ line) rest) := slice_between rfl
  rw [Span.behind, ← byteLength_append] at hslice
  rw [bind_of_ok hslice, byteLength_append, List.append_assoc]

/-- The operands behind the name of an instruction complete it. -/
theorem agrees_operands (label : Option (List Char × List Char)) (name before rest : List Char) :
    Agrees before (fun i => some (.instruction i)) (operandsFrom label name rest)
      ((do
        let operands ← operands
        let place ← position
        return (⟨.behind (before ++ labelText label) name, operands,
          label.map fun (l : List Char × List Char) => Span.behind before l.1,
          place.line, place.column⟩ : Instruction))
        (between (before ++ labelText label ++ name) rest)) := by
  unfold operandsFrom
  dsimp only
  have hassoc : ∀ line : List Char,
      before ++ labelText label ++ name ++ line = before ++ (labelText label ++ name ++ line) := by
    intro line
    simp only [List.append_assoc]
  cases hdrop : (rest.takeWhile (· != '\n')).dropWhile fitsLine with
  | cons bad cs =>
      have hlf : '\n' ∉ rest.takeWhile (· != '\n') := by
        intro hmem
        simpa using List.mem_takeWhile_imp hmem
      refine bind_of_error ?_
      rw [operands_between, operandList_of_bad hdrop hlf, hassoc, hassoc, Failure.error, encode_append]
  | nil =>
      have hfits := List.dropWhile_eq_nil_iff.1 hdrop
      have hread := operands_between (before ++ labelText label ++ name) rest
      rw [operandList_of_fits (b := rest.dropWhile (· != '\n')) rfl hfits] at hread
      rw [bind_of_ok hread, bind_of_ok (position_between _ _)]
      have hpassed : (Phrase.instruction label name (cutAtBlanks (rest.takeWhile (· != '\n'))).1
          (cutAtBlanks (rest.takeWhile (· != '\n'))).2).passed =
          labelText label ++ name ++ rest.takeWhile (· != '\n') := by
        simp only [passed]
        rw [List.append_assoc _ (operandText _), text_cutAtBlanks]
      apply Agrees.of_ok
      · rw [hpassed, ← hassoc]
        rfl
      · simp only [item?, hpassed, ← hassoc]

/-- Without its last byte, the span of a word that ends in a colon is the span in front of it. -/
theorem trimEnd_behind {word : List Char} (h : word.getLast? = some ':') (before : List Char) :
    (Span.behind before word).trimEnd 1 = .behind before word.dropLast := by
  have hlength := congrArg byteLength (dropLast_append_colon h)
  rw [byteLength_append] at hlength
  have hcolon : byteLength [':'] = 1 := rfl
  simp only [Span.trimEnd, Span.behind, Span.mk.injEq, true_and]
  omega

theorem agrees_instruction (word before rest : List Char) :
    Agrees before (fun i => some (.instruction i)) (instructionFrom word rest)
      (instruction ⟨word, .behind before word⟩ (between (before ++ word) rest)) := by
  unfold instructionFrom instruction labelAndName Lexeme.endsInColon
  by_cases hcolon : word.getLast? = some ':'
  · simp only [hcolon, beq_self_eq_true, if_true]
    cases hnext : nextWord? rest with
    | none => exact bind_of_error (bind_of_error (word_true_of_none before word hnext))
    | some found =>
        obtain ⟨gap, name, ahead⟩ := found
        have hread := word_true_of_some (before ++ word) hnext
        by_cases hkey : name = sectionKeyword
        · simp only [if_pos hkey]
          refine bind_of_error ((bind_of_ok hread).trans ?_)
          simp only [if_pos hkey]
          rw [fail_between, Failure.error_encode]
          simp only [List.append_assoc]
        · simp only [if_neg hkey]
          have hhead : before ++ labelText (some (word.dropLast, gap)) = before ++ word ++ gap :=
            calc before ++ labelText (some (word.dropLast, gap))
                = before ++ (word.dropLast ++ [':']) ++ gap := by simp [labelText]
              _ = before ++ word ++ gap := by rw [dropLast_append_colon hcolon]
          have hagrees := agrees_operands (some (word.dropLast, gap)) name before ahead
          have hname := bind_of_ok (f := fun w : Lexeme =>
            if w.text = sectionKeyword then fail .illegalInstruction
            else return (some ((Span.behind before word).trimEnd 1), w.span)) hread
          simp only [if_neg hkey, trimEnd_behind hcolon] at hname ⊢
          rw [hhead] at hagrees
          rw [bind_of_ok hname]
          exact hagrees
  · have hnone : (word.getLast? == some ':') = false := beq_false_of_ne hcolon
    simp only [hnone, if_neg hcolon, Bool.false_eq_true, if_false]
    have hagrees := agrees_operands none word before rest
    simp only [labelText, List.append_nil] at hagrees
    exact hagrees

/-! ## Data entries -/

theorem quotedBody_of_some {quote previous : Char} {t body rest : List Char}
    (h : closeQuote? quote previous t = some (body, rest)) : quotedBody quote previous t = body := by
  induction t generalizing previous body with
  | nil => simp [closeQuote?] at h
  | cons c cs ih =>
      unfold closeQuote? at h
      unfold quotedBody
      by_cases hclose : c = quote ∧ previous ≠ '\\'
      · rw [if_pos hclose] at h
        obtain ⟨rfl, -⟩ : [] = body ∧ cs = rest := by simpa using h
        rw [if_pos (by simpa using hclose)]
      · rw [if_neg hclose] at h
        obtain ⟨⟨body', rest'⟩, hlater, heq⟩ := Option.map_eq_some_iff.1 h
        obtain ⟨rfl, rfl⟩ := Prod.mk.inj heq
        rw [if_neg (by simpa using hclose), ih hlater]

theorem quotedBody_of_none {quote previous : Char} {t : List Char}
    (h : closeQuote? quote previous t = none) : quotedBody quote previous t = t := by
  induction t generalizing previous with
  | nil => rfl
  | cons c cs ih =>
      unfold closeQuote? at h
      unfold quotedBody
      by_cases hclose : c = quote ∧ previous ≠ '\\'
      · rw [if_pos hclose] at h
        simp at h
      · rw [if_neg hclose, Option.map_eq_none_iff] at h
        rw [if_neg (by simpa using hclose), ih h]

theorem passQuoted_of_some (before : List Char) {quote : Char} {cs body rest : List Char}
    (h : closeQuote? quote quote cs = some (body, rest)) :
    passQuoted quote (between before (quote :: cs)) =
      .ok () (between (before ++ (quote :: body ++ [quote])) rest) := by
  have hcs := closeQuote?_eq_some h
  have hroom : true = false ∨ quote :: rest ≠ [] := Or.inr (List.cons_ne_nil quote rest)
  have hpass := passText_between before (quote :: body) (quote :: rest) hroom
  rw [List.cons_append, ← hcs] at hpass
  rw [passQuoted, bind_of_ok (ahead_between _ _), List.tail_cons, quotedBody_of_some h,
    bind_of_ok hpass, passChar_false_between, List.append_assoc]

theorem passQuoted_of_none (before : List Char) {quote : Char} {cs : List Char}
    (h : closeQuote? quote quote cs = none) :
    passQuoted quote (between before (quote :: cs)) =
      .error ⟨.unexpectedEnd, Position.behind (encode (before ++ quote :: cs)).dropLast⟩
        (between (before ++ quote :: cs) []) := by
  rw [passQuoted, bind_of_ok (ahead_between _ _), List.tail_cons, quotedBody_of_none h]
  exact bind_of_error (passText_end before (List.cons_ne_nil quote cs))

theorem value_of_quote (before : List Char) {c : Char} (cs : List Char) (h : c = '\'' ∨ c = '"') :
    value (between before (c :: cs)) = passQuoted c (between before (c :: cs)) := by
  have hquote : (c == '\'' || c == '"') = true := by simpa using h
  rw [value, bind_of_ok (ahead_between _ _)]
  simp only [List.head?_cons, hquote, if_true]

theorem value_of_word (before : List Char) {c : Char} (cs : List Char) (h : ¬(c = '\'' ∨ c = '"'))
    (hc : isSeparator c = false) :
    value (between before (c :: cs)) =
      .ok () (between (before ++ (c :: cs).takeWhile (!isSeparator ·))
        ((c :: cs).dropWhile (!isSeparator ·))) := by
  have hquote : (c == '\'' || c == '"') = false := by simpa using h
  have hnext : nextWord? (c :: cs) =
      some ([], (c :: cs).takeWhile (!isSeparator ·), (c :: cs).dropWhile (!isSeparator ·)) := by
    simp [nextWord?, hc]
  have hword := word_true_of_some before hnext
  rw [List.append_nil] at hword
  rw [value, bind_of_ok (ahead_between _ _)]
  simp only [List.head?_cons, hquote, Bool.false_eq_true, if_false]
  exact bind_of_ok hword

/-- The value behind the symbol of a data entry completes it. -/
theorem agrees_value {before symbol gap v dropped t rest : List Char}
    (h : value (between (before ++ symbol ++ ':' :: gap) t) =
      .ok () (between (before ++ symbol ++ ':' :: gap ++ v) (dropped ++ rest))) :
    Agrees before (fun e => some (.data e)) (.ok (.datum symbol gap v dropped, rest))
      ((do
        let lower ← offset
        value
        let upper ← offset
        let place ← position
        return (⟨.behind before symbol, ⟨lower, upper⟩, place.line, place.column⟩ : Datum))
        (between (before ++ symbol ++ ':' :: gap) t)) := by
  rw [bind_of_ok (offset_between _ _), bind_of_ok h, bind_of_ok (offset_between _ _),
    bind_of_ok (position_between _ _)]
  have hpassed : before ++ (Phrase.datum symbol gap v dropped).passed =
      before ++ symbol ++ ':' :: gap ++ v := by
    simp [passed]
  apply Agrees.of_ok
  · rw [hpassed]
    rfl
  · simp only [item?, hpassed, byteLength_append, Span.behind]

theorem agrees_datum (word before rest : List Char) :
    Agrees before (fun e => some (.data e)) (datumFrom word rest)
      (datum ⟨word, .behind before word⟩ (between (before ++ word) rest)) := by
  unfold datumFrom datum Lexeme.endsInColon
  by_cases hcolon : word.getLast? = some ':'
  · simp only [hcolon, beq_self_eq_true, if_true, trimEnd_behind hcolon]
    cases hdrop : rest.dropWhile isSeparator with
    | nil =>
        by_cases hrest : rest = []
        · subst hrest
          refine (bind_of_ok (passWhile_between _ _ _ (Or.inr (Or.inr rfl)))).trans ?_
          rw [List.takeWhile_nil, List.dropWhile_nil, List.append_nil,
            bind_of_ok (offset_between _ _)]
          refine bind_of_error ((bind_of_ok (ahead_between _ _)).trans ?_)
          refine (fail_between _ _ _).trans ?_
          rw [Failure.error_atEnd_nil]
          simp [Failure.atEnd]
        · exact bind_of_error (passSeparators_of_end before word hrest hdrop)
    | cons c cs =>
        have hc : isSeparator c = false := eq_false_of_dropWhile hdrop
        have hroom : rest.dropWhile isSeparator ≠ [] := by
          rw [hdrop]
          exact List.cons_ne_nil c cs
        have hsplit : before ++ word ++ rest.takeWhile isSeparator =
            before ++ word.dropLast ++ ':' :: rest.takeWhile isSeparator :=
          calc before ++ word ++ rest.takeWhile isSeparator
              = before ++ (word.dropLast ++ [':']) ++ rest.takeWhile isSeparator := by
                rw [dropLast_append_colon hcolon]
            _ = _ := by simp
        rw [bind_of_ok (passWhile_between _ _ _ (Or.inr (Or.inl hroom))), hdrop]
        by_cases hquote : c = '\'' ∨ c = '"'
        · simp only [if_pos hquote]
          cases hclose : closeQuote? c c cs with
          | none =>
              rw [bind_of_ok (offset_between _ _)]
              refine bind_of_error ?_
              have hne : rest ≠ [] := by
                rintro rfl
                simp at hdrop
              have hrest : rest.takeWhile isSeparator ++ c :: cs = rest := by
                rw [← hdrop, List.takeWhile_append_dropWhile]
              rw [value_of_quote _ _ hquote, passQuoted_of_none _ hclose, Failure.error_atEnd hne,
                List.append_assoc (before ++ word), hrest, List.append_assoc before]
              rfl
          | some found =>
              obtain ⟨body, ahead⟩ := found
              rw [hsplit]
              refine agrees_value ?_
              rw [value_of_quote _ _ hquote, passQuoted_of_some _ hclose, List.take_append_drop]
        · simp only [if_neg hquote]
          rw [hsplit]
          exact agrees_value (value_of_word _ _ hquote hc)
  · have hnone : (word.getLast? == some ':') = false := beq_false_of_ne hcolon
    simp only [hnone, if_neg hcolon, Bool.false_eq_true, if_false]
    refine (fail_between _ _ _).trans ?_
    rw [Failure.error_encode]

/-! ## Items -/

theorem agrees_statement (active : Option Section) (before : List Char) {t : List Char}
    (h : ∀ c ∈ t.head?, isSeparator c = false) :
    Agrees before some
      (statementFrom active (t.takeWhile (!isSeparator ·)) (t.dropWhile (!isSeparator ·)))
      (statement active (between before t)) := by
  rw [statement, bind_of_ok (word_false before h)]
  unfold statementFrom
  generalize t.takeWhile (!isSeparator ·) = word
  generalize t.dropWhile (!isSeparator ·) = rest
  by_cases hkey : word = sectionKeyword
  · simp only [if_pos hkey]
    rw [hkey]
    exact (agrees_sectionName active before rest).map fun _ => rfl
  · simp only [if_neg hkey]
    cases active with
    | none =>
        refine (fail_between _ _ _).trans ?_
        rw [Failure.error_encode]
    | some s =>
        cases s with
        | text => exact (agrees_instruction word before rest).map fun _ => rfl
        | data => exact (agrees_datum word before rest).map fun _ => rfl

theorem comment_between (before t : List Char) :
    comment (between before t) =
      .ok () (between (before ++ t.takeWhile (· != '\n')) (t.dropWhile (· != '\n'))) :=
  bind_of_ok (passWhile_between _ before t (Or.inl rfl))

/-- Reading an item agrees with reading a phrase. -/
theorem agrees_item (active : Option Section) (before : List Char) (c : Char) (cs : List Char) :
    Agrees before id (first active before.getLast? c cs)
      (item active c (between before (c :: cs))) := by
  have hcomment : Agrees before id
      (.ok (Phrase.comment ((c :: cs).takeWhile (· != '\n')), (c :: cs).dropWhile (· != '\n')))
      ((do comment; return none : Scan (Option Item)) (between before (c :: cs))) :=
    Agrees.of_ok (bind_of_ok (comment_between before (c :: cs))) rfl
  have hblank : Agrees before id (.ok (Phrase.blank c, cs))
      ((return none : Scan (Option Item)) (between before (c :: cs))) := by
    apply Agrees.of_ok
    · simp only [passed, unread, List.append_nil]
      rfl
    · rfl
  unfold first item startsComment
  by_cases hsep : isSeparator c = true
  · simp only [if_pos hsep]
    exact hblank
  · simp only [if_neg hsep]
    by_cases hmark : c = '#' ∨ c = ';'
    · have hstarts : (c == '#' || c == ';') = true := by simpa using hmark
      simp only [hstarts, Bool.true_or, if_true]
      exact hcomment
    · have hstarts : (c == '#' || c == ';') = false := by simpa using hmark
      simp only [hstarts, Bool.false_or, Bool.false_eq_true, if_false]
      by_cases hslash : c = '/'
      · subst hslash
        simp only [beq_self_eq_true, Bool.true_and, if_true]
        rw [bind_of_ok (x := get) (a := between before ('/' :: cs)) rfl]
        by_cases hprevious : before.getLast? = some '/'
        · have hget : (between before ('/' :: cs)).previous = some '/' := hprevious
          simp only [hprevious, hget, beq_self_eq_true, if_true]
          exact hcomment
        · have hget : (between before ('/' :: cs)).previous ≠ some '/' := hprevious
          have hstarts : (before.getLast? == some '/') = false := beq_false_of_ne hprevious
          simp only [hstarts, if_neg hget, Bool.false_eq_true, if_false]
          exact hblank
      · simp only [beq_false_of_ne hslash, Bool.false_and, Bool.false_eq_true, if_false,
          if_neg hslash]
        have hhead : ∀ d ∈ (c :: cs).head?, isSeparator d = false := by
          intro d hd
          obtain rfl : c = d := by simpa using hd
          simpa using hsep
        exact (agrees_statement active before hhead).map fun _ => rfl

end Scan

end Mnemonic
