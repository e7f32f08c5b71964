import Mnemonic.Proofs.Reading.Outline

set_option autoImplicit false

/-!
# Operands

The operands of an instruction are read in two passes: the rest of the line is cut at its blanks into
spans, from its end to its start, and each span is then taken out of the text and looked through. The
place of a bad character is found by walking back from the end of the line.

Main statements: the spans are those of the runs that the line is cut into from its start
(`betweenBlanks_eq_operandSpans`); a line is accepted exactly if all of its characters fit, and if one
does not, the first of them is reported, at its own place (`operandList_of_fits`,
`operandList_of_bad`).
-/

namespace Mnemonic

open Text Scanner

/-! ## Spans between blanks -/

namespace Span

theorem betweenBlanks_append_of_blank (offset : Nat) {gap : List Char}
    (h : ∀ c ∈ gap, isBlank c = true) (t : List Char) :
    betweenBlanks offset (gap ++ t) = betweenBlanks (offset + byteLength gap) t := by
  induction gap generalizing offset with
  | nil => rfl
  | cons c gap ih =>
      have hc : isBlank c = true := h c List.mem_cons_self
      rw [List.cons_append, betweenBlanks, if_pos hc,
        ih _ fun d hd => h d (List.mem_cons_of_mem c hd), byteLength_cons, Nat.add_assoc]

/-- No span between blanks starts in front of the text. -/
theorem le_lower_of_mem_betweenBlanks {offset : Nat} {t : List Char} :
    ∀ s ∈ betweenBlanks offset t, offset ≤ s.lower := by
  induction t generalizing offset with
  | nil => simp [betweenBlanks]
  | cons c t ih =>
      intro s hs
      have hlater := @ih (offset + c.utf8Size)
      unfold betweenBlanks at hs
      dsimp only at hs
      split at hs
      · have := hlater s hs
        omega
      · unfold consChar at hs
        split at hs
        · obtain rfl : s = ⟨offset, offset + c.utf8Size⟩ := by simpa using hs
          exact Nat.le_refl offset
        · rename_i w ws hws
          split at hs
          · rcases List.mem_cons.1 hs with rfl | hs
            · exact Nat.le_refl offset
            · have := hlater s (by rw [hws]; exact List.mem_cons_of_mem w hs)
              omega
          · rcases List.mem_cons.1 hs with rfl | hs
            · exact Nat.le_refl offset
            · have := hlater s (by rw [hws]; exact hs)
              omega

/-- Where a blank comes first, the first span starts behind it. -/
theorem betweenBlanks_of_blank_head (offset : Nat) {t : List Char}
    (h : ∀ c ∈ t.head?, isBlank c = true) : ∀ s ∈ betweenBlanks offset t, offset < s.lower := by
  intro s hs
  cases t with
  | nil => simp [betweenBlanks] at hs
  | cons c t =>
      rw [betweenBlanks, if_pos (h c rfl)] at hs
      have hle := le_lower_of_mem_betweenBlanks s hs
      have hpos := c.utf8Size_pos
      omega

/-- A run without blanks, as long as it can be, is one span. -/
theorem betweenBlanks_append_of_token (offset : Nat) {token t : List Char} (hne : token ≠ [])
    (htoken : ∀ c ∈ token, isBlank c = false) (ht : ∀ c ∈ t.head?, isBlank c = true) :
    betweenBlanks offset (token ++ t) =
      ⟨offset, offset + byteLength token⟩ :: betweenBlanks (offset + byteLength token) t := by
  induction token generalizing offset with
  | nil => exact absurd rfl hne
  | cons c token ih =>
      have hc : isBlank c = false := htoken c List.mem_cons_self
      rw [List.cons_append, betweenBlanks]
      simp only [hc, Bool.false_eq_true, if_false]
      cases token with
      | nil =>
          -- The next span cannot be joined: it starts behind a blank.
          have hlater := betweenBlanks_of_blank_head (offset + c.utf8Size) ht
          simp only [List.nil_append, byteLength_cons, byteLength_nil, Nat.add_zero]
          cases hws : betweenBlanks (offset + c.utf8Size) t with
          | nil => rfl
          | cons w ws =>
              have hw := hlater w (by rw [hws]; exact List.mem_cons_self)
              rw [consChar, if_neg (by omega)]
      | cons d token =>
          rw [ih (offset + c.utf8Size) (List.cons_ne_nil d token)
            fun e he => htoken e (List.mem_cons_of_mem c he)]
          rw [consChar, if_pos rfl, byteLength_cons c, Nat.add_assoc]

/-- The spans between the blanks of a line are those of its operands. -/
theorem betweenBlanks_eq_operandSpans (before line : List Char) :
    betweenBlanks (byteLength before) line =
      Phrase.operandSpans before (Phrase.cutAtBlanks line).1 := by
  induction line using Phrase.cutAtBlanks.induct generalizing before with
  | case1 line h =>
      rw [Phrase.cutAtBlanks_of_nil h]
      have hblank := List.dropWhile_eq_nil_iff.1 h
      have hnone := betweenBlanks_append_of_blank (byteLength before) hblank []
      rwa [List.append_nil] at hnone
  | case2 line c cs h ih =>
      have hc : isBlank c = false := Phrase.eq_false_of_dropWhile h
      have hne : (c :: cs).takeWhile (!isBlank ·) ≠ [] := by
        rw [List.takeWhile_cons_of_pos (by simp [hc])]
        exact List.cons_ne_nil _ _
      have htoken : ∀ d ∈ (c :: cs).takeWhile (!isBlank ·), isBlank d = false := by
        intro d hd
        simpa using List.mem_takeWhile_imp hd
      have hhead : ∀ d ∈ ((c :: cs).dropWhile (!isBlank ·)).head?, isBlank d = true := by
        intro d hd
        simpa using Phrase.eq_false_of_mem_head?_dropWhile d hd
      have hline := Phrase.line_eq_of_dropWhile h
      have hgap : ∀ d ∈ line.takeWhile isBlank, isBlank d = true :=
        fun d hd => List.mem_takeWhile_imp hd
      rw [Phrase.cutAtBlanks_of_cons h, Phrase.operandSpans, ← ih]
      calc betweenBlanks (byteLength before) line
          = betweenBlanks (byteLength before) (line.takeWhile isBlank ++
              (c :: cs).takeWhile (!isBlank ·) ++ (c :: cs).dropWhile (!isBlank ·)) := by
            rw [← hline]
        _ = _ := by
            rw [List.append_assoc, betweenBlanks_append_of_blank _ hgap, betweenBlanks_append_of_token _ hne htoken hhead]
            simp only [behind, byteLength_append]

end Span

theorem badOperandChar?_eq (offset : Nat) (token : List Char) :
    badOperandChar? offset token =
      (token.dropWhile isOperandChar).head?.map fun c =>
        (offset + byteLength (token.takeWhile isOperandChar), c) := by
  induction token generalizing offset with
  | nil => rfl
  | cons c token ih =>
      unfold badOperandChar?
      by_cases hc : isOperandChar c
      · rw [if_pos hc, ih, List.dropWhile_cons_of_pos hc, List.takeWhile_cons_of_pos hc,
          byteLength_cons, Nat.add_assoc]
      · rw [if_neg hc, List.dropWhile_cons_of_neg hc, List.takeWhile_cons_of_neg hc]
        rfl

/-! ## Walking back from the end of the line -/

theorem Position.walk_back {bytes more : List UInt8} (h : Cursor.lineFeed ∉ more) :
    (⟨(behind (bytes ++ more)).line, (behind (bytes ++ more)).column - more.length⟩ : Position) =
      behind bytes := by
  rw [behind_append_of_notMem h]
  simp

namespace Scan

theorem operand_of_fits {before ahead a token b : List Char}
    (h : before ++ ahead = a ++ token ++ b) (hfits : ∀ c ∈ token, isOperandChar c = true) :
    operand (.behind a token) (between before ahead) =
      .ok (.behind a token) (between before ahead) := by
  have hbad : badOperandChar? (Span.behind a token).lower token = none := by
    rw [badOperandChar?_eq, List.dropWhile_eq_nil_iff.2 hfits]
    rfl
  rw [operand, bind_of_ok (slice_between h), hbad]
  rfl

/-- The scanner stands at the end of the line; the bad character is found from there. -/
theorem operand_of_bad {head token more ahead cs : List Char} {bad : Char}
    (hdrop : token.dropWhile isOperandChar = bad :: cs) (hlf : '\n' ∉ token ++ more) :
    operand (.behind head token) (between (head ++ token ++ more) ahead) =
      .error ⟨.invalidOperandCharacter bad,
          Position.behind (encode (head ++ token.takeWhile isOperandChar))⟩
        (between (head ++ token ++ more) ahead) := by
  have hbad : badOperandChar? (Span.behind head token).lower token =
      some (byteLength (head ++ token.takeWhile isOperandChar), bad) := by
    rw [badOperandChar?_eq, hdrop, byteLength_append]
    rfl
  have htoken : token = token.takeWhile isOperandChar ++ token.dropWhile isOperandChar :=
    List.takeWhile_append_dropWhile.symm
  have hpassed : encode (head ++ token ++ more) =
      encode (head ++ token.takeWhile isOperandChar) ++
        encode (token.dropWhile isOperandChar ++ more) := by
    rw [← encode_append]
    congr 1
    calc head ++ token ++ more
        = head ++ (token.takeWhile isOperandChar ++ token.dropWhile isOperandChar) ++ more := by
          rw [← htoken]
      _ = _ := by simp only [List.append_assoc]
  have hrest : Cursor.lineFeed ∉ encode (token.dropWhile isOperandChar ++ more) := by
    refine lineFeed_notMem_encode fun hmem => hlf ?_
    rcases List.mem_append.1 hmem with hmem | hmem
    · exact List.mem_append_left more (List.dropWhile_subset _ hmem)
    · exact List.mem_append_right token hmem
  have hdistance : byteLength (head ++ token ++ more) -
      byteLength (head ++ token.takeWhile isOperandChar) =
      (encode (token.dropWhile isOperandChar ++ more)).length := by
    have hlen := congrArg List.length hpassed
    rw [List.length_append, length_encode, length_encode] at hlen
    omega
  have hsplit : head ++ token ++ more ++ ahead = head ++ token ++ (more ++ ahead) := by
    simp only [List.append_assoc]
  have hslice := slice_between hsplit
  rw [operand, bind_of_ok hslice, hbad]
  simp only
  rw [bind_of_ok (offset_between _ _), bind_of_ok (position_between _ _), hdistance, hpassed,
    Position.walk_back hrest]
  rfl

/-- A line that fits has its operands accepted. -/
theorem operandList_of_fits {before ahead a line b : List Char}
    (h : before ++ ahead = a ++ line ++ b) (hfits : ∀ c ∈ line, Phrase.fitsLine c = true) :
    operandList (Phrase.operandSpans a (Phrase.cutAtBlanks line).1) (between before ahead) =
      .ok (Phrase.operandSpans a (Phrase.cutAtBlanks line).1) (between before ahead) := by
  induction line using Phrase.cutAtBlanks.induct generalizing a with
  | case1 line hnil =>
      rw [Phrase.cutAtBlanks_of_nil hnil]
      rfl
  | case2 line c cs hcons ih =>
      have hsplit := Phrase.line_eq_of_dropWhile hcons
      generalize hgap : line.takeWhile isBlank = gap at hsplit
      generalize htoken : (c :: cs).takeWhile (!isBlank ·) = token at hsplit
      generalize hlater : (c :: cs).dropWhile (!isBlank ·) = later at hsplit ih
      have hfitsToken : ∀ d ∈ token, isOperandChar d = true := by
        intro d hd
        have hblank : isBlank d = false := by
          rw [← htoken] at hd
          simpa using List.mem_takeWhile_imp hd
        have hmem : d ∈ line := by
          rw [hsplit]
          exact List.mem_append_left later (List.mem_append_right gap hd)
        simpa [Phrase.fitsLine, hblank] using hfits d hmem
      have hfitsLater : ∀ d ∈ later, Phrase.fitsLine d = true := by
        intro d hd
        refine hfits d ?_
        rw [hsplit]
        exact List.mem_append_right _ hd
      rw [Phrase.cutAtBlanks_of_cons hcons, Phrase.operandSpans, operandList, hgap, htoken, hlater]
      have hfirst : before ++ ahead = a ++ gap ++ token ++ (later ++ b) := by
        rw [h, hsplit]
        simp only [List.append_assoc]
      have hothers : before ++ ahead = a ++ gap ++ token ++ later ++ b := by
        rw [hfirst]
        simp only [List.append_assoc]
      rw [bind_of_ok (operand_of_fits hfirst hfitsToken), bind_of_ok (ih hothers hfitsLater)]
      rfl

/-- In a line that does not fit the first character that does not is reported. -/
theorem operandList_of_bad {before line ahead cs : List Char} {bad : Char}
    (hdrop : line.dropWhile Phrase.fitsLine = bad :: cs) (hlf : '\n' ∉ line) :
    operandList (Phrase.operandSpans before (Phrase.cutAtBlanks line).1)
        (between (before ++ line) ahead) =
      .error ⟨.invalidOperandCharacter bad,
          Position.behind (encode (before ++ line.takeWhile Phrase.fitsLine))⟩
        (between (before ++ line) ahead) := by
  induction line using Phrase.cutAtBlanks.induct generalizing before with
  | case1 line hnil =>
      have hfits : line.dropWhile Phrase.fitsLine = [] := by
        rw [List.dropWhile_eq_nil_iff]
        intro d hd
        simp [Phrase.fitsLine, List.dropWhile_eq_nil_iff.1 hnil d hd]
      rw [hfits] at hdrop
      simp at hdrop
  | case2 line c cs' hcons ih =>
      have hsplit := Phrase.line_eq_of_dropWhile hcons
      generalize hgap : line.takeWhile isBlank = gap at hsplit
      generalize htoken : (c :: cs').takeWhile (!isBlank ·) = token at hsplit
      generalize hlater : (c :: cs').dropWhile (!isBlank ·) = later at hsplit ih
      have hgapFits : ∀ d ∈ gap, Phrase.fitsLine d = true := by
        intro d hd
        rw [← hgap] at hd
        simp [Phrase.fitsLine, List.mem_takeWhile_imp hd]
      have htokenBlank : ∀ d ∈ token, isBlank d = false := by
        intro d hd
        rw [← htoken] at hd
        simpa using List.mem_takeWhile_imp hd
      rw [Phrase.cutAtBlanks_of_cons hcons, Phrase.operandSpans, operandList, hgap, htoken, hlater]
      subst hsplit
      cases hbad : token.dropWhile isOperandChar with
      | nil =>
          -- The token is an operand: the bad character comes later.
          have htokenFits : ∀ d ∈ token, isOperandChar d = true :=
            List.dropWhile_eq_nil_iff.1 hbad
          have hfits : ∀ d ∈ gap ++ token, Phrase.fitsLine d = true := by
            intro d hd
            rcases List.mem_append.1 hd with hd | hd
            · exact hgapFits d hd
            · simp [Phrase.fitsLine, htokenFits d hd]
          rw [List.dropWhile_append_of_pos hfits] at hdrop
          have hih := @ih (before ++ gap ++ token) hdrop
            fun hmem => hlf (List.mem_append_right _ hmem)
          rw [List.takeWhile_append_of_pos hfits]
          have hstate : before ++ (gap ++ token ++ later) = before ++ gap ++ token ++ later := by
            simp only [List.append_assoc]
          rw [hstate, bind_of_ok (operand_of_fits (b := later ++ ahead) (by simp) htokenFits),
            bind_of_error hih]
          simp only [List.append_assoc]
      | cons d ds =>
          have hd : isOperandChar d = false := Phrase.eq_false_of_dropWhile hbad
          have hdmem : d ∈ token := List.dropWhile_subset isOperandChar (by rw [hbad]; simp)
          have hdFits : Phrase.fitsLine d = false := by
            simp [Phrase.fitsLine, hd, htokenBlank d hdmem]
          have hpre : ∀ e ∈ gap ++ token.takeWhile isOperandChar, Phrase.fitsLine e = true := by
            intro e he
            rcases List.mem_append.1 he with he | he
            · exact hgapFits e he
            · simp [Phrase.fitsLine, List.mem_takeWhile_imp he]
          have hline : gap ++ token ++ later =
              gap ++ token.takeWhile isOperandChar ++ d :: (ds ++ later) := by
            rw [← List.cons_append, ← hbad, List.append_assoc gap, List.append_assoc gap,
              ← List.append_assoc (token.takeWhile _), List.takeWhile_append_dropWhile]
          have hfirst : (gap ++ token ++ later).dropWhile Phrase.fitsLine = d :: (ds ++ later) := by
            rw [hline, List.dropWhile_append_of_pos hpre, List.dropWhile_cons_of_neg (by simp [hdFits])]
          have hfirst' : (gap ++ token ++ later).takeWhile Phrase.fitsLine =
              gap ++ token.takeWhile isOperandChar := by
            rw [hline, List.takeWhile_append_of_pos hpre, List.takeWhile_cons_of_neg (by simp [hdFits]),
              List.append_nil]
          obtain rfl : d = bad := (List.cons.inj (hfirst.symm.trans hdrop)).1
          have hlfToken : '\n' ∉ token ++ later := by
            intro hmem
            refine hlf ?_
            rw [List.append_assoc]
            exact List.mem_append_right gap hmem
          have hstate : before ++ (gap ++ token ++ later) = before ++ gap ++ token ++ later := by
            simp only [List.append_assoc]
          rw [hfirst', hstate, bind_of_error (operand_of_bad hbad hlfToken)]
          simp only [List.append_assoc]

end Scan

end Mnemonic
