import Mnemonic.Proofs.Listing.Readable

set_option autoImplicit false

/-!
# The lines of a listing

A listing without paint and without ranges has a line for each entry: a stamp with the place of the
entry, the kind of the entry, and its statement with the line feeds in values spelled out. With the
stamps deleted, the statements are left, under their headers.

Main statements: the listing of a program is made of these lines (`render_plain`), as many as its entries
and headers (`length_lines`), and what is left of them without their stamps are the lines of the words
(`map_dropStamp_lines`).
-/

namespace Mnemonic

open Text

/-! ## Lines of a text -/

namespace Text

theorem ofLines_eq_intercalate (lines : List (List Char)) :
    ofLines lines = ['\n'].intercalate (lines ++ [[]]) := by
  induction lines with
  | nil => rfl
  | cons l lines ih =>
      obtain ⟨m, more, hmore⟩ : ∃ m more, lines ++ [[]] = m :: more :=
        List.exists_cons_of_ne_nil (by simp)
      rw [ofLines, List.flatMap_cons, ← ofLines, ih, List.cons_append, hmore]
      simp [List.intercalate]

/-- Lines that hold no line feed are what lies between the line feeds of their text, and nothing stands
behind the last one. -/
theorem splitOn_ofLines {lines : List (List Char)} (h : ∀ l ∈ lines, '\n' ∉ l) :
    (ofLines lines).splitOn '\n' = lines ++ [[]] := by
  rw [ofLines_eq_intercalate]
  apply List.splitOn_intercalate
  · intro l hl
    rcases List.mem_append.1 hl with hl | hl
    · exact h l hl
    · simp [List.mem_singleton.1 hl]
  · simp

/-- A text without line feeds belongs to the first line of what follows it. -/
theorem splitOn_append_of_not_mem {a : List Char} (h : '\n' ∉ a) (t : List Char) :
    (a ++ t).splitOn '\n' = (t.splitOn '\n').modifyHead (a ++ ·) := by
  induction a with
  | nil => exact (congrFun List.modifyHead_id _).symm
  | cons c a ih =>
      have hc : ¬(c == '\n') = true := by
        rw [beq_iff_eq]
        rintro rfl
        exact h List.mem_cons_self
      rw [List.cons_append, List.splitOn_cons_eq_if_modifyHead, if_neg hc,
        ih fun ha => h (List.mem_cons_of_mem c ha), List.modifyHead_modifyHead]
      rfl

end Text

namespace Listing

/-! ## Deleting the stamps -/

/-- A line without the stamp in front and the kind of entry behind the stamp. -/
def dropStamp : List Char → List Char
  | '[' :: line => (line.dropWhile (· != ']')).drop 9
  | line => line

/-- A text without the stamps of its lines. -/
def deleteStamps (listing : List Char) : List Char :=
  ['\n'].intercalate ((listing.splitOn '\n').map dropStamp)

theorem deleteStamps_ofLines {lines : List (List Char)} (h : ∀ l ∈ lines, '\n' ∉ l) :
    deleteStamps (ofLines lines) = ofLines (lines.map dropStamp) := by
  rw [deleteStamps, splitOn_ofLines h, List.map_append, ofLines_eq_intercalate]
  rfl

theorem isDigit_of_mem_toString {n : Nat} {c : Char} (h : c ∈ (toString n).toList) :
    c.isDigit = true := by
  rw [Nat.toString_eq_repr, Nat.repr_eq_ofList_toDigits, String.toList_ofList] at h
  exact Nat.isDigit_of_mem_toDigits (by decide) (by decide) h

theorem isDigit_of_mem_twoDigits {n : Nat} {c : Char} (h : c ∈ twoDigits n) : c.isDigit = true := by
  unfold twoDigits at h
  split at h
  · rcases List.mem_cons.1 h with rfl | h
    · rfl
    · exact isDigit_of_mem_toString h
  · exact isDigit_of_mem_toString h

/-- The place of an entry, in the stamp, is made of digits and a colon. -/
theorem not_mem_place {c : Char} (hdigit : c.isDigit = false) (hcolon : c ≠ ':') (line column : Nat) :
    c ∉ twoDigits line ++ ':' :: twoDigits column := by
  have hnone (n : Nat) : c ∉ twoDigits n := by
    intro hmem
    rw [isDigit_of_mem_twoDigits hmem] at hdigit
    exact Bool.noConfusion hdigit
  simp [hnone, hcolon]

/-- The line of an entry: a stamp, the kind of the entry, and its statement. -/
def stamped (kind : String) (line column : Nat) (statement : List Char) : List Char :=
  (stamp line column).text ++ kind.toList ++ statement

theorem stamped_eq (kind : String) (line column : Nat) (statement : List Char) :
    stamped kind line column statement =
      '[' :: ((twoDigits line ++ ':' :: twoDigits column) ++ ']' :: (kind.toList ++ statement)) := by
  simp [stamped, stamp, Piece.painted]

theorem dropStamp_stamped {kind : String} (hkind : kind.length = 8) (line column : Nat)
    (statement : List Char) : dropStamp (stamped kind line column statement) = statement := by
  have hpass : ∀ c ∈ twoDigits line ++ ':' :: twoDigits column, (c != ']') = true := by
    intro c hc
    rw [bne_iff_ne]
    rintro rfl
    exact not_mem_place rfl (by decide) line column hc
  have hlength : kind.toList.length = 8 := by rw [String.length_toList, hkind]
  rw [stamped_eq, dropStamp, List.dropWhile_append_of_pos hpass,
    List.dropWhile_cons_of_neg (by decide), List.drop_succ_cons, List.drop_left' hlength]

theorem lineFeed_not_mem_stamped {kind : String} (hkind : '\n' ∉ kind.toList) (line column : Nat)
    {statement : List Char} (h : '\n' ∉ statement) :
    '\n' ∉ stamped kind line column statement := by
  rw [stamped_eq]
  apply List.not_mem_cons_of_ne_of_not_mem (by decide)
  rw [List.mem_append, not_or]
  exact ⟨not_mem_place rfl (by decide) line column, by simp [hkind, h]⟩

/-! ## The lines of a program -/

/-- The lines of a listing of a program, which has the given words. -/
def lines (p : Program) (w : Program.Wording) : List (List Char) :=
  Section.data.withHeader
      (List.zipWith (fun e d => stamped " DATA   " e.line e.column d.statement) p.data w.data) ++
    Section.text.withHeader
      (List.zipWith (fun i v => stamped " INSTR  " i.line i.column v.statement) p.text w.text)

/-- Neither paint nor ranges. -/
def Style.plain : Style := ⟨false, false⟩

/-- The characters of pieces without their paint. -/
def plainText (ps : List Piece) : List Char := ps.flatMap (·.render false)

theorem plainText_append (ps qs : List Piece) : plainText (ps ++ qs) = plainText ps ++ plainText qs :=
  List.flatMap_append

/-- When all entries have words, and the pieces of an entry with words are known, so are those of all
entries. -/
theorem exists_mapM_of_mapM {α β : Type} {read : α → Except Misfit β}
    {piecesOf : α → Except Misfit (List Piece)} {shown : α → β → List Char}
    (hpieces : ∀ a b, read a = .ok b → ∃ ps, piecesOf a = .ok ps ∧ plainText ps = shown a b)
    {as : List α} {bs : List β} (h : as.mapM read = .ok bs) :
    as.length = bs.length ∧ ∃ pss, as.mapM piecesOf = .ok pss ∧
      plainText pss.flatten = (List.zipWith shown as bs).flatten := by
  induction as generalizing bs with
  | nil =>
      obtain rfl : [] = bs := Except.ok.inj h
      exact ⟨rfl, [], rfl, rfl⟩
  | cons a as ih =>
      rw [List.mapM_cons, Misfit.bind_eq_ok_iff] at h
      obtain ⟨b, hb, h⟩ := h
      obtain ⟨bs', hbs, h⟩ := Misfit.bind_eq_ok_iff.1 h
      obtain rfl : b :: bs' = bs := Except.ok.inj h
      obtain ⟨ps, hps, htext⟩ := hpieces a b hb
      obtain ⟨hlength, pss, hpss, hlater⟩ := ih hbs
      refine ⟨congrArg (· + 1) hlength, ps :: pss, ?_, ?_⟩
      · rw [List.mapM_cons, hps, hpss]
        rfl
      · rw [List.flatten_cons, plainText_append, htext, hlater]
        rfl

/-- The line of a data entry. -/
theorem plainText_dataLine {t : List Char} {e : Datum} {d : Datum.Wording}
    (h : e.wording t = .ok d) :
    ∃ ps, dataLine .plain t e = .ok ps ∧
      plainText ps = stamped " DATA   " e.line e.column d.spelled.statement ++ ['\n'] := by
  obtain ⟨hsymbol, hvalue⟩ := Datum.wording_eq_ok_iff.1 h
  rw [dataLine, hsymbol, hvalue]
  refine ⟨_, rfl, ?_⟩
  simp [plainText, stamped, extent, Style.plain, Piece.render, Piece.plain, Piece.painted, stamp,
    Datum.Wording.statement, Datum.Wording.spelled]

theorem plainText_labelPieces {t : List Char} {i : Instruction} {v : Instruction.Wording}
    (h : i.label.mapM (·.slice t) = .ok v.label) :
    ∃ ps, labelPieces t i.label = .ok ps ∧ plainText ps = v.labelText := by
  unfold Instruction.Wording.labelText
  cases hlabel : i.label with
  | none =>
      have hnone : none = v.label := Except.ok.inj (by rw [← h, hlabel]; rfl)
      rw [← hnone]
      exact ⟨[], rfl, rfl⟩
  | some l =>
      rw [hlabel, Option.mapM_some] at h
      obtain ⟨w, hw, hsome⟩ := Misfit.bind_eq_ok_iff.1 h
      have hlabelled : some w = v.label := Except.ok.inj hsome
      rw [← hlabelled, labelPieces, hw]
      refine ⟨_, rfl, ?_⟩
      simp [plainText, Piece.render, Piece.plain, Piece.painted]

theorem plainText_operandPieces (t : List Char) (o : Span) (w : List Char) (h : o.slice t = .ok w) :
    ∃ ps, operandPieces t o = .ok ps ∧ plainText ps = ' ' :: w := by
  rw [operandPieces, h]
  refine ⟨_, rfl, ?_⟩
  simp [plainText, Piece.render, Piece.plain, Piece.painted]

theorem zipWith_right {α β γ : Type} (f : β → γ) {as : List α} {bs : List β}
    (h : as.length = bs.length) : List.zipWith (fun _ b => f b) as bs = bs.map f := by
  induction as generalizing bs with
  | nil => simp [List.length_eq_zero_iff.1 h.symm]
  | cons a as ih =>
      cases bs with
      | nil => simp at h
      | cons b bs => rw [List.zipWith_cons_cons, List.map_cons, ih (Nat.succ.inj h)]

/-- The line of an instruction. -/
theorem plainText_instructionLine {t : List Char} {i : Instruction} {v : Instruction.Wording}
    (h : i.wording t = .ok v) :
    ∃ ps, instructionLine .plain t i = .ok ps ∧
      plainText ps = stamped " INSTR  " i.line i.column v.statement ++ ['\n'] := by
  obtain ⟨hlabel, hname, hoperands⟩ := Instruction.wording_eq_ok_iff.1 h
  obtain ⟨label, hlabelled, hlabelText⟩ := plainText_labelPieces hlabel
  obtain ⟨hlength, operands, hmade, hoperandText⟩ :=
    exists_mapM_of_mapM (plainText_operandPieces t) hoperands
  rw [zipWith_right _ hlength, ← List.flatMap_def] at hoperandText
  rw [instructionLine, hlabelled, hname, hmade]
  refine ⟨_, rfl, ?_⟩
  simp only [plainText_append, hlabelText, hoperandText]
  simp [plainText, stamped, extent, Style.plain, Piece.render, Piece.plain, Piece.painted, stamp,
    Instruction.Wording.statement]

theorem ofLines_zipWith {α β : Type} (shown : α → β → List Char) (as : List α) (bs : List β) :
    ofLines (List.zipWith shown as bs) =
      (List.zipWith (fun a b => shown a b ++ ['\n']) as bs).flatten := by
  rw [ofLines, List.flatMap_def, List.map_zipWith]

/-- The lines of a section under its header. -/
theorem plainText_block {α β : Type} {s : Section} {read : α → Except Misfit β}
    {lineOf : α → Except Misfit (List Piece)} {shown : α → β → List Char}
    (hline : ∀ a b, read a = .ok b → ∃ ps, lineOf a = .ok ps ∧ plainText ps = shown a b ++ ['\n'])
    {as : List α} {bs : List β} (h : as.mapM read = .ok bs) :
    as.length = bs.length ∧ ∃ ps, block s lineOf as = .ok ps ∧
      plainText ps = ofLines (s.withHeader (List.zipWith shown as bs)) := by
  obtain ⟨hlength, pss, hmade, htext⟩ := exists_mapM_of_mapM hline h
  refine ⟨hlength, ?_⟩
  cases as with
  | nil => exact ⟨[], rfl, rfl⟩
  | cons a as =>
      cases bs with
      | nil => simp at hlength
      | cons b bs =>
          refine ⟨header s ++ pss.flatten, ?_, ?_⟩
          · rw [block, if_neg (by simp), hmade]
            rfl
          · have hheader : plainText (header s) = "section ".toList ++ s.name.toList ++ ['\n'] := by
              simp [plainText, header, Piece.render, Piece.painted, Piece.plain]
            rw [plainText_append, htext, hheader, ← ofLines_zipWith]
            rfl

/-- The listing of a program that has words is made of its lines. -/
theorem render_plain {t : List Char} {p : Program} {w : Program.Wording}
    (h : p.wording t = .ok w) :
    render .plain t p = .ok (ofLines (lines p w.spelled)) ∧
      p.data.length = w.data.length ∧ p.text.length = w.text.length := by
  obtain ⟨hdata, htext⟩ := Program.wording_eq_ok_iff.1 h
  obtain ⟨hlengthData, data, hmadeData, hplainData⟩ :=
    plainText_block (s := .data) (fun e d => plainText_dataLine (e := e) (d := d)) hdata
  obtain ⟨hlengthText, text, hmadeText, hplainText⟩ :=
    plainText_block (s := .text) (fun i v => plainText_instructionLine (i := i) (v := v)) htext
  refine ⟨?_, hlengthData, hlengthText⟩
  have hlines : plainText (data ++ text) = ofLines (lines p w.spelled) := by
    rw [plainText_append, hplainData, hplainText, lines, ofLines_append, Program.Wording.spelled,
      List.zipWith_map_right]
  rw [render, pieces, hmadeData, hmadeText, ← hlines]
  rfl

/-! ## Counting the lines -/

theorem length_withHeader (s : Section) (ls : List (List Char)) :
    (s.withHeader ls).length = ls.length + if ls.length = 0 then 0 else 1 := by
  cases ls with
  | nil => rfl
  | cons l ls => rfl

/-- There is a line for each entry, and one for each section that has entries. -/
theorem length_lines {p : Program} {w : Program.Wording} (hdata : p.data.length = w.data.length)
    (htext : p.text.length = w.text.length) :
    (lines p w).length = p.data.length + p.text.length +
      ((if p.data = [] then 0 else 1) + if p.text = [] then 0 else 1) := by
  rw [lines, List.length_append, length_withHeader, length_withHeader, List.length_zipWith,
    List.length_zipWith, ← hdata, ← htext, Nat.min_self, Nat.min_self]
  simp only [List.length_eq_zero_iff]
  omega

theorem lineFeed_not_mem_withHeader (s : Section) {ls : List (List Char)}
    (h : ∀ l ∈ ls, '\n' ∉ l) : ∀ l ∈ s.withHeader ls, '\n' ∉ l := by
  intro l hl
  unfold Section.withHeader at hl
  split at hl
  · simp at hl
  · rcases List.mem_cons.1 hl with rfl | hl
    · cases s <;> decide
    · exact h l hl

/-- None of the lines holds a line feed when the statements do not. -/
theorem lineFeed_not_mem_lines {p : Program} {w : Program.Wording}
    (hdata : ∀ d ∈ w.data, '\n' ∉ d.statement) (htext : ∀ v ∈ w.text, '\n' ∉ v.statement) :
    ∀ l ∈ lines p w, '\n' ∉ l := by
  intro l hl
  rcases List.mem_append.1 hl with hl | hl
  · refine lineFeed_not_mem_withHeader .data ?_ l hl
    intro l hl
    rw [← List.map_uncurry_zip_eq_zipWith] at hl
    obtain ⟨⟨e, d⟩, hmem, rfl⟩ := List.mem_map.1 hl
    exact lineFeed_not_mem_stamped (by decide) _ _ (hdata d (List.of_mem_zip hmem).2)
  · refine lineFeed_not_mem_withHeader .text ?_ l hl
    intro l hl
    rw [← List.map_uncurry_zip_eq_zipWith] at hl
    obtain ⟨⟨i, v⟩, hmem, rfl⟩ := List.mem_map.1 hl
    exact lineFeed_not_mem_stamped (by decide) _ _ (htext v (List.of_mem_zip hmem).2)

/-! ## A listing without its stamps -/

theorem map_dropStamp_withHeader (s : Section) (ls : List (List Char)) :
    (s.withHeader ls).map dropStamp = s.withHeader (ls.map dropStamp) := by
  have hheader : dropStamp ("section ".toList ++ s.name.toList) = "section ".toList ++ s.name.toList :=
    rfl
  cases ls with
  | nil => rfl
  | cons l ls => exact congrArg (· :: (l :: ls).map dropStamp) hheader

/-- What is left of the lines of a program without their stamps are the lines of its words. -/
theorem map_dropStamp_lines {p : Program} {w : Program.Wording}
    (hdata : p.data.length = w.data.length) (htext : p.text.length = w.text.length) :
    (lines p w).map dropStamp = w.lines := by
  have hlineData (e : Datum) (d : Datum.Wording) :
      dropStamp (stamped " DATA   " e.line e.column d.statement) = d.statement :=
    dropStamp_stamped rfl _ _ _
  have hlineText (i : Instruction) (v : Instruction.Wording) :
      dropStamp (stamped " INSTR  " i.line i.column v.statement) = v.statement :=
    dropStamp_stamped rfl _ _ _
  rw [lines, List.map_append, map_dropStamp_withHeader, map_dropStamp_withHeader, List.map_zipWith,
    List.map_zipWith]
  simp only [hlineData, hlineText]
  rw [zipWith_right _ hdata, zipWith_right _ htext]
  rfl

end Listing

end Mnemonic
