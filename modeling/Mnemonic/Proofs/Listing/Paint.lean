import Mnemonic.Proofs.Listing.Codes
import Mnemonic.Proofs.Listing.Lines
import Mnemonic.Proofs.Program.Naming

set_option autoImplicit false

/-!
# Paint in a listing

A listing with colour differs from the one without by the codes in it, and by nothing else. This can be
told from the text alone when the source has no escape character: then all codes come from paint. Each
piece that is painted starts its paint and ends it, so the codes of a listing take turns, and since no
painted piece goes over the end of a line unless a name does, so do the codes of each line.

Main statement: `deleteCodes_render`.
-/

namespace Mnemonic

open Text

/-! ## What a program shows -/

/-- The span lies in the source, and the character does not occur in its text. -/
def Span.Omits (s : Span) (source : List Char) (c : Char) : Prop :=
  ∃ text, s.slice source = .ok text ∧ c ∉ text

/-- What is not in the source is in no part of it. -/
theorem Span.LiesIn.omits {s : Span} {source : List Char} {c : Char} (h : s.LiesIn source)
    (hc : c ∉ source) : s.Omits source c := by
  obtain ⟨text, htext⟩ := h
  obtain ⟨a, b, hsource, -, -⟩ := slice?_eq_some_iff.1 (slice?_of_slice htext)
  refine ⟨text, htext, fun hmem => hc ?_⟩
  rw [hsource]
  exact List.mem_append_left b (List.mem_append_right a hmem)

/-- Every span of a program lies in the source. -/
structure Program.LiesIn (p : Program) (source : List Char) : Prop extends p.NamesLieIn source where
  name : ∀ i ∈ p.text, i.name.LiesIn source
  operand : ∀ i ∈ p.text, ∀ o ∈ i.operands, o.LiesIn source
  value : ∀ e ∈ p.data, e.value.LiesIn source

/-- The character occurs in no word of an instruction. -/
structure Instruction.Omits (i : Instruction) (source : List Char) (c : Char) : Prop where
  label : ∀ l ∈ i.label, l.Omits source c
  name : i.name.Omits source c
  operand : ∀ o ∈ i.operands, o.Omits source c

theorem Listing.notMem_spellLineFeeds {c : Char} {value : List Char} (hc : c.toNat < 32) (h : c ∉ value) :
    c ∉ spellLineFeeds value := by
  intro hmem
  obtain ⟨d, hd, hcd⟩ := List.mem_flatMap.1 hmem
  split at hcd
  · rcases List.mem_cons.1 hcd with rfl | hcd
    · exact absurd hc (by decide)
    · obtain rfl := List.mem_singleton.1 hcd
      exact absurd hc (by decide)
  · exact h (List.mem_singleton.1 hcd ▸ hd)

/-- The character occurs neither in the symbol of a data entry nor in its value with the line feeds
spelled out. -/
structure Datum.Omits (e : Datum) (source : List Char) (c : Char) : Prop where
  symbol : e.symbol.Omits source c
  value : ∃ value, e.value.slice source = .ok value ∧ c ∉ Listing.spellLineFeeds value

namespace Program

/-- A character that is not in the source is not in what a program shows of it. -/
theorem LiesIn.datum_omits {p : Program} {source : List Char} {c : Char} (h : p.LiesIn source)
    (hcontrol : c.toNat < 32) (hc : c ∉ source) : ∀ e ∈ p.data, e.Omits source c := by
  intro e he
  obtain ⟨value, hvalue, hnot⟩ := (h.value e he).omits hc
  exact ⟨(h.symbol e he).omits hc, value, hvalue, Listing.notMem_spellLineFeeds hcontrol hnot⟩

theorem LiesIn.instruction_omits {p : Program} {source : List Char} {c : Char} (h : p.LiesIn source)
    (hc : c ∉ source) : ∀ i ∈ p.text, i.Omits source c := by
  intro i hi
  exact ⟨fun l hl => (h.label i hi l hl).omits hc, (h.name i hi).omits hc,
    fun o ho => (h.operand i hi o ho).omits hc⟩

end Program

/-- No symbol, label, name or operand of a program goes over the end of a line. -/
structure Program.OnOneLine (p : Program) (source : List Char) : Prop where
  symbol : ∀ e ∈ p.data, e.symbol.Omits source '\n'
  instruction : ∀ i ∈ p.text, i.Omits source '\n'

theorem Program.OnOneLine.datum_omits {p : Program} {source : List Char} (h : p.OnOneLine source)
    (hfits : p.LiesIn source) : ∀ e ∈ p.data, e.Omits source '\n' := by
  intro e he
  obtain ⟨value, hvalue⟩ := hfits.value e he
  exact ⟨h.symbol e he, value, hvalue, lineFeed_not_mem_spellLineFeeds value⟩

namespace Listing

/-! ## Pieces without a character -/

/-- No character of a text is a control character, as the escape character and the line feed are. -/
def Printed (text : List Char) : Prop := text.all (32 ≤ ·.toNat) = true

theorem printed_iff {text : List Char} : Printed text ↔ ∀ d ∈ text, 32 ≤ d.toNat := by
  simp [Printed]

theorem Printed.notMem {text : List Char} (h : Printed text) {c : Char} (hc : c.toNat < 32) :
    c ∉ text :=
  fun hmem => absurd (printed_iff.1 h c hmem) (Nat.not_le.2 hc)

theorem Printed.append {a b : List Char} (ha : Printed a) (hb : Printed b) : Printed (a ++ b) := by
  rw [Printed, List.all_append, ha, hb]
  rfl

theorem printed_of_isDigit {text : List Char} (h : ∀ d ∈ text, d.isDigit = true) : Printed text := by
  rw [printed_iff]
  intro d hd
  have hdigit := h d hd
  simp only [Char.isDigit, ge_iff_le, Bool.and_eq_true, decide_eq_true_eq,
    UInt32.le_iff_toNat_le] at hdigit
  exact Nat.le_trans (by decide) hdigit.1

theorem printed_twoDigits (n : Nat) : Printed (twoDigits n) :=
  printed_of_isDigit fun _ => isDigit_of_mem_twoDigits

theorem printed_toString (n : Nat) : Printed (toString n).toList :=
  printed_of_isDigit fun _ => isDigit_of_mem_toString

theorem printed_stamp (line column : Nat) : Printed (stamp line column).text := by
  have hopen : Printed ['['] := rfl
  have hcolon : Printed [':'] := rfl
  have hclose : Printed [']'] := rfl
  have hplace := (hopen.append (printed_twoDigits line)).append
    (hcolon.append ((printed_twoDigits column).append hclose))
  simpa [stamp, Piece.painted] using hplace

/-- Of some pieces only the ends of lines have the character in them. -/
def Clear (c : Char) (ps : List Piece) : Prop := ∀ p ∈ ps, p ≠ .plain "\n" → c ∉ p.text

variable {c : Char}

theorem clear_nil : Clear c [] := by
  simp [Clear]

theorem Clear.cons {p : Piece} {ps : List Piece} (h : Clear c ps) (hp : c ∉ p.text) :
    Clear c (p :: ps) := by
  intro q hq hne
  rcases List.mem_cons.1 hq with rfl | hq
  · exact hp
  · exact h q hq hne

theorem Clear.consPlain {text : String} {ps : List Piece} (htext : Printed text.toList)
    (hc : c.toNat < 32) (h : Clear c ps) : Clear c (.plain text :: ps) :=
  h.cons (htext.notMem hc)

theorem Clear.append {ps qs : List Piece} (hp : Clear c ps) (hq : Clear c qs) : Clear c (ps ++ qs) :=
  fun p hmem => (List.mem_append.1 hmem).elim (hp p) (hq p)

theorem clear_lineEnd : Clear c [.plain "\n"] :=
  fun _ hp hne => absurd (List.mem_singleton.1 hp) hne

/-- The stamp and the kind of an entry, in front of what the entry says. -/
theorem Clear.consStamp {kind : String} {ps : List Piece} (hkind : Printed kind.toList)
    (hc : c.toNat < 32) (line column : Nat) (h : Clear c ps) :
    Clear c (stamp line column :: .plain kind :: ps) :=
  (h.consPlain hkind hc).cons ((printed_stamp line column).notMem hc)

theorem clear_extent (hc : c.toNat < 32) (style : Style) (lower upper : Nat) :
    Clear c (extent style lower upper) := by
  have hmark : Printed "  @".toList := rfl
  have hdots : Printed "..".toList := rfl
  have hbounds : Printed (s!"  @{lower}..{upper}").toList := by
    change Printed ("  @" ++ toString lower ++ ".." ++ toString upper).toList
    rw [String.toList_append, String.toList_append, String.toList_append]
    exact ((hmark.append (printed_toString lower)).append hdots).append (printed_toString upper)
  unfold extent
  split
  · exact clear_nil.consPlain hbounds hc
  · exact clear_nil

theorem clear_header (hc : c.toNat < 32) (s : Section) : Clear c (header s) := by
  have hprinted : Printed ("section ".toList ++ s.name.toList) := by
    cases s <;> rfl
  exact clear_lineEnd.cons (hprinted.notMem hc)

/-- The computation gives pieces, and only the ends of lines have the character in them. -/
def GivesClear (c : Char) (x : Except Misfit (List Piece)) : Prop := ∃ ps, x = .ok ps ∧ Clear c ps

theorem givesClear_dataLine (hc : c.toNat < 32) (style : Style) {source : List Char} {e : Datum}
    (h : e.Omits source c) : GivesClear c (dataLine style source e) := by
  obtain ⟨symbol, hsymbol, hclear⟩ := h.symbol
  obtain ⟨value, hvalue, hspelled⟩ := h.value
  refine ⟨[stamp e.line e.column, .plain " DATA   ", .painted .yellow symbol, .plain ": ",
      .painted (valueHue value) (spellLineFeeds value)] ++
    extent style e.symbol.lower e.value.upper ++ [.plain "\n"], ?_, ?_⟩
  · rw [dataLine, hsymbol, hvalue]
    rfl
  · have hkind : Printed " DATA   ".toList := rfl
    have hcolon : Printed ": ".toList := rfl
    have hshown : Clear c [.painted (valueHue value) (spellLineFeeds value)] := clear_nil.cons hspelled
    have hstatement : Clear c [.painted .yellow symbol, .plain ": ",
        .painted (valueHue value) (spellLineFeeds value)] :=
      (hshown.consPlain hcolon hc).cons hclear
    exact ((hstatement.consStamp hkind hc e.line e.column).append (clear_extent hc style _ _)).append
      clear_lineEnd

theorem givesClear_labelPieces (hc : c.toNat < 32) {source : List Char} {label : Option Span}
    (h : ∀ l ∈ label, l.Omits source c) : GivesClear c (labelPieces source label) := by
  cases label with
  | none => exact ⟨[], rfl, clear_nil⟩
  | some l =>
      obtain ⟨text, htext, hclear⟩ := h l rfl
      have hcolon : Printed ":".toList := rfl
      have hblank : Printed " ".toList := rfl
      have hlabel : c ∉ text ++ [':'] := by
        rw [List.mem_append, not_or]
        exact ⟨hclear, hcolon.notMem hc⟩
      refine ⟨[.painted .yellow (text ++ [':']), .plain " "], ?_, ?_⟩
      · rw [labelPieces, htext]
        rfl
      · exact (clear_nil.consPlain hblank hc).cons hlabel

theorem givesClear_operandPieces (hc : c.toNat < 32) {source : List Char} {operand : Span}
    (h : operand.Omits source c) : GivesClear c (operandPieces source operand) := by
  obtain ⟨text, htext, hclear⟩ := h
  have hblank : Printed " ".toList := rfl
  refine ⟨[.plain " ", .painted .cyan text], ?_, ?_⟩
  · rw [operandPieces, htext]
    rfl
  · exact Clear.consPlain hblank hc (clear_nil.cons hclear)

/-- Pieces of one entry after the other. -/
theorem exists_mapM_of_givesClear {α : Type} {line : α → Except Misfit (List Piece)} {entries : List α}
    (h : ∀ a ∈ entries, GivesClear c (line a)) :
    ∃ pss, entries.mapM line = .ok pss ∧ Clear c pss.flatten := by
  induction entries with
  | nil => exact ⟨[], rfl, clear_nil⟩
  | cons a entries ih =>
      obtain ⟨ps, hps, hclear⟩ := h a List.mem_cons_self
      obtain ⟨pss, hpss, hlater⟩ := ih fun b hb => h b (List.mem_cons_of_mem a hb)
      refine ⟨ps :: pss, ?_, ?_⟩
      · rw [List.mapM_cons, hps, hpss]
        rfl
      · rw [List.flatten_cons]
        exact hclear.append hlater

theorem givesClear_instructionLine (hc : c.toNat < 32) (style : Style) {source : List Char}
    {i : Instruction} (h : i.Omits source c) : GivesClear c (instructionLine style source i) := by
  obtain ⟨label, hlabel, hlabelClear⟩ := givesClear_labelPieces hc h.label
  obtain ⟨name, hname, hnameClear⟩ := h.name
  obtain ⟨operands, hoperands, hoperandsClear⟩ :=
    exists_mapM_of_givesClear fun o ho => givesClear_operandPieces hc (h.operand o ho)
  refine ⟨[stamp i.line i.column, .plain " INSTR  "] ++ label ++ [.painted .magenta name] ++
    operands.flatten ++ extent style (instructionLower i) (instructionUpper i) ++ [.plain "\n"], ?_, ?_⟩
  · rw [instructionLine, hlabel, hname, hoperands]
    rfl
  · have hkind : Printed " INSTR  ".toList := rfl
    have hfront : Clear c [stamp i.line i.column, .plain " INSTR  "] :=
      clear_nil.consStamp hkind hc i.line i.column
    have hpainted : Clear c [.painted .magenta name] := clear_nil.cons hnameClear
    exact ((((hfront.append hlabelClear).append hpainted).append hoperandsClear).append
      (clear_extent hc style _ _)).append clear_lineEnd

theorem givesClear_block (hc : c.toNat < 32) {α : Type} (s : Section)
    {line : α → Except Misfit (List Piece)} {entries : List α}
    (h : ∀ a ∈ entries, GivesClear c (line a)) : GivesClear c (block s line entries) := by
  unfold block
  split
  · exact ⟨[], rfl, clear_nil⟩
  · obtain ⟨pss, hpss, hclear⟩ := exists_mapM_of_givesClear h
    refine ⟨header s ++ pss.flatten, ?_, (clear_header hc s).append hclear⟩
    rw [hpss]
    rfl

/-- A listing has a character only where the source has it, or at the ends of lines. -/
theorem givesClear_pieces (hc : c.toNat < 32) (style : Style) {source : List Char} {p : Program}
    (hdata : ∀ e ∈ p.data, e.Omits source c) (htext : ∀ i ∈ p.text, i.Omits source c) :
    GivesClear c (pieces style source p) := by
  obtain ⟨data, hmadeData, hclearData⟩ :=
    givesClear_block hc .data fun e he => givesClear_dataLine hc style (hdata e he)
  obtain ⟨text, hmadeText, hclearText⟩ :=
    givesClear_block hc .text fun i hi => givesClear_instructionLine hc style (htext i hi)
  refine ⟨data ++ text, ?_, hclearData.append hclearText⟩
  rw [pieces, hmadeData, hmadeText]
  rfl

/-! ## The codes of a listing -/

theorem Hue.isCode_code (hue : Hue) : IsCode hue.code := by
  cases hue with
  | dim => exact ⟨['2'], by decide, by simp, rfl⟩
  | green => exact ⟨['3', '2'], by decide, by simp, rfl⟩
  | yellow => exact ⟨['3', '3'], by decide, by simp, rfl⟩
  | cyan => exact ⟨['3', '6'], by decide, by simp, rfl⟩
  | magenta => exact ⟨['3', '5'], by decide, by simp, rfl⟩

theorem isCode_resetCode : IsCode resetCode := ⟨['0'], by decide, by simp, rfl⟩

/-- Codes that start a paint and codes that end it take turns, from a start to an end. -/
inductive Alternate : List (List Char) → Prop
  | nothing : Alternate []
  | paint (hue : Hue) {later : List (List Char)} (h : Alternate later) :
      Alternate (hue.code :: resetCode :: later)

theorem alternate_codes_nil : Alternate (codes []) := by
  rw [codes_nil]
  exact .nothing

namespace Piece

theorem deleteCodes_render_append {p : Piece} (h : escape ∉ p.text) (t : List Char) :
    deleteCodes (p.render true ++ t) = p.render false ++ deleteCodes t := by
  obtain ⟨hue, text⟩ := p
  cases hue with
  | none => exact deleteCodes_append_of_notMem h t
  | some hue =>
      change deleteCodes (hue.code ++ text ++ resetCode ++ t) = text ++ deleteCodes t
      rw [List.append_assoc, List.append_assoc, deleteCodes_append_of_isCode hue.isCode_code,
        deleteCodes_append_of_notMem h, deleteCodes_append_of_isCode isCode_resetCode]

/-- A piece ends the paint that it starts. -/
theorem alternate_codes_render_append {p : Piece} (h : escape ∉ p.text) {t : List Char}
    (ht : Alternate (codes t)) : Alternate (codes (p.render true ++ t)) := by
  obtain ⟨hue, text⟩ := p
  cases hue with
  | none =>
      change Alternate (codes (text ++ t))
      rwa [codes_append_of_notMem h]
  | some hue =>
      change Alternate (codes (hue.code ++ text ++ resetCode ++ t))
      rw [List.append_assoc, List.append_assoc, codes_append_of_isCode hue.isCode_code,
        codes_append_of_notMem h, codes_append_of_isCode isCode_resetCode]
      exact .paint hue ht

theorem lineFeed_notMem_render {p : Piece} (h : '\n' ∉ p.text) : '\n' ∉ p.render true := by
  obtain ⟨hue, text⟩ := p
  cases hue with
  | none => exact h
  | some hue =>
      have hcode : '\n' ∉ hue.code := by
        cases hue <;> decide
      have hreset : '\n' ∉ resetCode := by decide
      change '\n' ∉ hue.code ++ text ++ resetCode
      rw [List.mem_append, List.mem_append, not_or, not_or]
      exact ⟨⟨hcode, h⟩, hreset⟩

end Piece

/-- The end of a line has no escape character in it either. -/
theorem Clear.escape_notMem {ps : List Piece} (h : Clear escape ps) : ∀ p ∈ ps, escape ∉ p.text := by
  intro p hp
  by_cases hend : p = .plain "\n"
  · rw [hend]
    decide
  · exact h p hp hend

theorem deleteCodes_flatMap_render {ps : List Piece} (h : ∀ p ∈ ps, escape ∉ p.text) :
    deleteCodes (ps.flatMap (·.render true)) = ps.flatMap (·.render false) := by
  induction ps with
  | nil => exact deleteCodes_nil
  | cons p ps ih =>
      rw [List.flatMap_cons, List.flatMap_cons,
        Piece.deleteCodes_render_append (h p List.mem_cons_self),
        ih fun q hq => h q (List.mem_cons_of_mem p hq)]

theorem alternate_codes_flatMap_render {ps : List Piece} (h : ∀ p ∈ ps, escape ∉ p.text) :
    Alternate (codes (ps.flatMap (·.render true))) := by
  induction ps with
  | nil => exact alternate_codes_nil
  | cons p ps ih =>
      rw [List.flatMap_cons]
      apply Piece.alternate_codes_render_append (h p List.mem_cons_self)
      exact ih fun q hq => h q (List.mem_cons_of_mem p hq)

/-- No paint goes over the end of a line when only the pieces that end lines have line feeds in them. -/
theorem alternate_codes_line {ps : List Piece} (hescape : ∀ p ∈ ps, escape ∉ p.text)
    (hclear : Clear '\n' ps) :
    ∀ line ∈ (ps.flatMap (·.render true)).splitOn '\n', Alternate (codes line) := by
  induction ps with
  | nil =>
      intro line hline
      obtain rfl : line = [] := by simpa using hline
      exact alternate_codes_nil
  | cons p ps ih =>
      have hlater := ih (fun q hq => hescape q (List.mem_cons_of_mem p hq))
        fun q hq => hclear q (List.mem_cons_of_mem p hq)
      rw [List.flatMap_cons]
      by_cases hend : p = .plain "\n"
      · have hsplit : (p.render true ++ ps.flatMap (·.render true)).splitOn '\n' =
            [] :: (ps.flatMap (·.render true)).splitOn '\n' := by
          rw [hend]
          exact List.splitOn_cons_eq_if_modifyHead _ _
        rw [hsplit]
        intro line hline
        rcases List.mem_cons.1 hline with rfl | hline
        · exact alternate_codes_nil
        · exact hlater line hline
      · obtain ⟨first, others, hsplit⟩ :=
          List.exists_cons_of_ne_nil (List.splitOn_ne_nil '\n' (ps.flatMap (·.render true)))
        have hp := Piece.lineFeed_notMem_render (hclear p List.mem_cons_self hend)
        rw [splitOn_append_of_not_mem hp, hsplit, List.modifyHead_cons]
        rw [hsplit] at hlater
        intro line hline
        rcases List.mem_cons.1 hline with rfl | hline
        · exact Piece.alternate_codes_render_append (hescape p List.mem_cons_self)
            (hlater first List.mem_cons_self)
        · exact hlater line (List.mem_cons_of_mem first hline)

/-- A coloured listing is the plain one with codes in it. Deleting them gives the plain one back; codes
that start a paint and codes that end it take turns; and if no name goes over the end of a line, they
do so on each line. -/
theorem deleteCodes_render {source : List Char} {p : Program} (hescape : escape ∉ source)
    (hfits : p.LiesIn source) (ranges : Bool) :
    ∃ colored plain, render ⟨true, ranges⟩ source p = .ok colored ∧
      render ⟨false, ranges⟩ source p = .ok plain ∧
      deleteCodes colored = plain ∧ Alternate (codes colored) ∧
      (p.OnOneLine source → ∀ line ∈ colored.splitOn '\n', Alternate (codes line)) := by
  obtain ⟨ps, hps, hclear⟩ := givesClear_pieces (c := escape) (by decide) ⟨true, ranges⟩
    (hfits.datum_omits (by decide) hescape) (hfits.instruction_omits hescape)
  have hplain : pieces ⟨false, ranges⟩ source p = .ok ps := hps
  refine ⟨ps.flatMap (·.render true), ps.flatMap (·.render false), ?_, ?_, ?_, ?_, ?_⟩
  · rw [render, hps]
    rfl
  · rw [render, hplain]
    rfl
  · exact deleteCodes_flatMap_render hclear.escape_notMem
  · exact alternate_codes_flatMap_render hclear.escape_notMem
  · intro hline
    obtain ⟨ps', hps', hclear'⟩ := givesClear_pieces (c := '\n') (by decide) ⟨true, ranges⟩
      (hline.datum_omits hfits) hline.instruction
    obtain rfl : ps = ps' := Except.ok.inj (hps.symm.trans hps')
    exact alternate_codes_line hclear.escape_notMem hclear'

/-- A value over two lines, and a labelled instruction with an operand. -/
theorem deleteCodes_render_quoted :
    let source := "m: '\n' l: a b".toList
    let p : Program := ⟨[⟨⟨0, 1⟩, ⟨3, 6⟩, 2, 1⟩], [⟨⟨10, 11⟩, [⟨12, 13⟩], some ⟨7, 8⟩, 2, 8⟩]⟩
    let plain := ("section .data\n[02:01] DATA   m: '\\n'  @0..6\n" ++
      "section .text\n[02:08] INSTR  l: a b  @7..13\n").toList
    escape ∉ source ∧ p.LiesIn source ∧ p.OnOneLine source ∧
      ∃ colored, render ⟨true, true⟩ source p = .ok colored ∧
        render ⟨false, true⟩ source p = .ok plain ∧
        deleteCodes colored = plain ∧ Alternate (codes colored) ∧
        ∀ line ∈ colored.splitOn '\n', Alternate (codes line) := by
  intro source p plain
  have hescape : escape ∉ source := by decide
  have hfits : p.LiesIn source := by
    refine ⟨⟨?_, ?_⟩, ?_, ?_, ?_⟩
    · exact List.forall_mem_singleton.2 fun l hl => Option.mem_some_iff.1 hl ▸ ⟨['l'], rfl⟩
    · exact List.forall_mem_singleton.2 ⟨['m'], rfl⟩
    · exact List.forall_mem_singleton.2 ⟨['a'], rfl⟩
    · exact List.forall_mem_singleton.2 (List.forall_mem_singleton.2 ⟨['b'], rfl⟩)
    · exact List.forall_mem_singleton.2 ⟨['\'', '\n', '\''], rfl⟩
  have hline : p.OnOneLine source := by
    refine ⟨List.forall_mem_singleton.2 ⟨['m'], rfl, by decide⟩, List.forall_mem_singleton.2 ?_⟩
    refine ⟨?_, ⟨['a'], rfl, by decide⟩, List.forall_mem_singleton.2 ⟨['b'], rfl, by decide⟩⟩
    exact fun l hl => Option.mem_some_iff.1 hl ▸ ⟨['l'], rfl, by decide⟩
  have hplain : render ⟨false, true⟩ source p = .ok plain := by
    rfl
  obtain ⟨colored, plain', hcolored, hplain', hdeleted, hcodes, hlines⟩ :=
    deleteCodes_render hescape hfits true
  obtain rfl := Except.ok.inj (hplain.symm.trans hplain')
  exact ⟨hescape, hfits, hline, colored, hcolored, hplain, hdeleted, hcodes, hlines hline⟩

end Listing

end Mnemonic
