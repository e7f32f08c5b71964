import Mnemonic.Program.Listing
import Mnemonic.Proofs.Program.Naming
import Mnemonic.Proofs.Reading.Attempt

set_option autoImplicit false

/-!
# Programs that fit their source

A span fits a text when it lies in it and cuts no character; these are the spans that have a text. A
program fits a text when all of its spans do, when its names, operands and values are not empty, and
when a colon follows each of its symbols.

Main statements: what a phrase says fits the text that the phrase stands in (`fits_of_item?`), so
every attempt of a session finds a program that fits, whatever the attempts before it did, and never
asks for the text of a span that has none (`Sound.read`); and the labels, the data and the listing of a
program that fits can be had (`answers_labels`, `answers_data?`, `answers_render`).
-/

namespace Mnemonic

open Text

namespace Text

/-- The offset lies between two characters of a text, or at one of its ends. -/
def IsBoundary (t : List Char) (n : Nat) : Prop := ∃ a b, t = a ++ b ∧ byteLength a = n

/-- The code of the colon. -/
def colon : UInt8 := 58

/-- Of two parts at the start of a text the one with fewer bytes is the start of the other. -/
theorem prefix_of_byteLength_le {a b a' b' : List Char} (h : a ++ b = a' ++ b')
    (hle : byteLength a ≤ byteLength a') : ∃ w, a' = a ++ w := by
  rcases List.append_eq_append_iff.1 h with ⟨w, ha', -⟩ | ⟨w, ha, -⟩
  · exact ⟨w, ha'⟩
  · have hw : byteLength w = 0 := by
      rw [ha, byteLength_append] at hle
      omega
    rw [byteLength_eq_zero_iff] at hw
    exact ⟨[], by rw [ha, hw]; simp⟩

end Text

namespace Span

/-- The span lies in the text and cuts no character. -/
structure Fits (s : Span) (t : List Char) : Prop where
  ordered : s.lower ≤ s.upper
  inside : s.upper ≤ byteLength t
  lower_boundary : IsBoundary t s.lower
  upper_boundary : IsBoundary t s.upper

theorem fits_behind {a w b t : List Char} (h : t = a ++ w ++ b) : (behind a w).Fits t where
  ordered := Nat.le_add_right _ _
  inside := by
    rw [h, byteLength_append, byteLength_append]
    exact Nat.le_add_right _ _
  lower_boundary := ⟨a, w ++ b, by rw [h, List.append_assoc], rfl⟩
  upper_boundary := ⟨a ++ w, b, h, byteLength_append a w⟩

/-- The spans that fit a text are those that have a text there. -/
theorem fits_iff_slice {s : Span} {t : List Char} : s.Fits t ↔ ∃ w, s.slice t = .ok w := by
  constructor
  · rintro ⟨hordered, -, ⟨a, b, hab, hlower⟩, ⟨a', b', hab', hupper⟩⟩
    obtain ⟨w, hw⟩ := prefix_of_byteLength_le (hab.symm.trans hab') (by omega)
    refine ⟨w, slice_eq_ok_iff.2 (slice?_eq_some_iff.2 ⟨a, b', ?_, hlower, ?_⟩)⟩
    · rw [hab', hw]
    · rw [← byteLength_append, ← hw, hupper]
  · rintro ⟨w, hw⟩
    obtain ⟨a, b, ht, hlower, hupper⟩ := slice?_eq_some_iff.1 (slice_eq_ok_iff.1 hw)
    have hs : s = behind a w := by
      rw [behind, hupper, hlower]
    rw [hs]
    exact fits_behind ht

/-- The span of a word: it is not empty. -/
structure FitsWord (s : Span) (t : List Char) : Prop extends s.Fits t where
  nonempty : s.lower < s.upper

/-- The span of a symbol: a colon follows. -/
structure FitsSymbol (s : Span) (t : List Char) : Prop extends s.Fits t where
  colon : (encode t)[s.upper]? = some colon

theorem fitsWord_behind {a w b t : List Char} (h : t = a ++ w ++ b) (hw : w ≠ []) :
    (behind a w).FitsWord t where
  toFits := fits_behind h
  nonempty := by
    have hpos := Nat.pos_of_ne_zero (mt (byteLength_eq_zero_iff w).1 hw)
    simp only [behind]
    omega

theorem fitsSymbol_behind {a w b t : List Char} (h : t = a ++ w ++ ':' :: b) :
    (behind a w).FitsSymbol t where
  toFits := fits_behind h
  colon := by
    have hcolon : encode t = encode (a ++ w) ++ Text.colon :: encode b := by
      rw [h, encode_append]
      rfl
    have hupper : (behind a w).upper = (encode (a ++ w)).length := by
      rw [length_encode, byteLength_append]
      rfl
    rw [hcolon, hupper, List.getElem?_append_right (Nat.le_refl _), Nat.sub_self]
    rfl

end Span

/-! ## What phrases say fits -/

/-- The spans of a data entry fit a text. -/
structure Datum.Fits (e : Datum) (t : List Char) : Prop where
  symbol : e.symbol.FitsSymbol t
  value : e.value.FitsWord t

/-- The spans of an instruction fit a text. -/
structure Instruction.Fits (i : Instruction) (t : List Char) : Prop where
  name : i.name.FitsWord t
  operands : ∀ o ∈ i.operands, o.FitsWord t
  label : ∀ l ∈ i.label, l.FitsSymbol t

/-- All spans of a program fit a text. -/
structure Program.Fits (p : Program) (t : List Char) : Prop where
  data : ∀ e ∈ p.data, e.Fits t
  text : ∀ i ∈ p.text, i.Fits t

/-- The spans of an item fit a text. -/
def Item.Fits (t : List Char) : Item → Prop
  | .section _ => True
  | .data e => e.Fits t
  | .instruction i => i.Fits t

namespace Phrase

theorem fits_operandSpans {t a b : List Char} {operands : List (List Char × List Char)}
    (ht : t = a ++ operandText operands ++ b) (hop : ∀ o ∈ operands, o.2 ≠ []) :
    ∀ s ∈ operandSpans a operands, s.FitsWord t := by
  induction operands generalizing a with
  | nil => simp [operandSpans]
  | cons o operands ih =>
      obtain ⟨gap, token⟩ := o
      have htoken : token ≠ [] := hop (gap, token) List.mem_cons_self
      have hlater : t = a ++ gap ++ token ++ operandText operands ++ b := by
        rw [ht]
        simp [operandText]
      intro s hs
      rcases List.mem_cons.1 hs with rfl | hs
      · refine Span.fitsWord_behind (b := operandText operands ++ b) ?_ htoken
        rw [hlater]
        simp only [List.append_assoc]
      · exact ih hlater (fun o ho => hop o (List.mem_cons_of_mem _ ho)) s hs

theorem IsValue.ne_nil {value dropped : List Char} (h : IsValue value dropped) : value ≠ [] := by
  rcases h with ⟨hne, -, -⟩ | ⟨quote, body, -, hvalue, -⟩
  · exact hne
  · rw [hvalue]
    exact List.cons_ne_nil _ _

/-- What a phrase says fits the text that the phrase stands in. -/
theorem fits_of_item? {p : Phrase} {before after t : List Char} {i : Item} (hp : p.WellFormed)
    (ht : t = before ++ p.text ++ after) (hi : p.item? before = some i) : i.Fits t := by
  cases p with
  | blank c => simp [item?] at hi
  | comment remark => simp [item?] at hi
  | directive gap s =>
      obtain rfl : Item.section s = i := by simpa [item?] using hi
      trivial
  | datum symbol gap value dropped =>
      obtain ⟨-, -, hvalue⟩ := hp
      obtain rfl := Option.some.inj hi
      refine ⟨?_, ?_⟩
      · refine Span.fitsSymbol_behind (b := gap ++ value ++ dropped ++ after) ?_
        rw [ht]
        simp [text, passed, unread]
      · refine Span.fitsWord_behind (b := dropped ++ after) ?_ hvalue.ne_nil
        rw [ht]
        simp [text, passed, unread]
  | instruction label name operands trailing =>
      obtain ⟨-, hname, -, hoperands, -⟩ := hp
      obtain rfl := Option.some.inj hi
      refine ⟨?_, ?_, ?_⟩
      · refine Span.fitsWord_behind (b := operandText operands ++ trailing ++ after) ?_ hname
        rw [ht]
        simp [text, passed, unread]
      · refine fits_operandSpans (b := trailing ++ after) ?_ fun o ho => (hoperands o ho).2.2.1
        rw [ht]
        simp [text, passed, unread]
      · intro l hl
        obtain ⟨⟨word, gap⟩, rfl, rfl⟩ := Option.map_eq_some_iff.1 hl
        refine Span.fitsSymbol_behind
          (b := gap ++ name ++ operandText operands ++ trailing ++ after) ?_
        rw [ht]
        simp [text, passed, unread, labelText]

theorem fits_items {phrases : List Phrase} {before after t : List Char}
    (hp : ∀ p ∈ phrases, p.WellFormed) (ht : t = before ++ phrases.flatMap text ++ after) :
    ∀ i ∈ items before phrases, i.Fits t := by
  induction phrases generalizing before with
  | nil => simp [items]
  | cons p ps ih =>
      rw [List.flatMap_cons] at ht
      intro i hi
      rcases List.mem_append.1 hi with hi | hi
      · have htext : t = before ++ p.text ++ (ps.flatMap text ++ after) := by
          rw [ht]
          simp only [List.append_assoc]
        exact fits_of_item? (hp p List.mem_cons_self) htext (Option.mem_toList.1 hi)
      · refine ih (fun q hq => hp q (List.mem_cons_of_mem p hq)) ?_ i hi
        rw [ht]
        simp only [List.append_assoc]

end Phrase

theorem Outline.wellFormed_of_mem {active : Option Section} {previous : Option Char}
    {t : List Char} : ∀ p ∈ (Outline.of active previous t).phrases, p.WellFormed := by
  induction active, previous, t using Outline.induction with
  | nil active previous => simp
  | error active previous c cs f hfirst => simp [Outline.of_of_error hfirst]
  | ok active previous c cs p rest hfirst ih =>
      rw [Outline.of_of_ok hfirst]
      intro q hq
      rcases List.mem_cons.1 hq with rfl | hq
      · exact (Phrase.opens_of_first_eq_ok hfirst).wellFormed
      · exact ih q hq

namespace Program

theorem fits_empty (t : List Char) : empty.Fits t := ⟨by simp [empty], by simp [empty]⟩

theorem Fits.append {p q : Program} {t : List Char} (hp : p.Fits t) (hq : q.Fits t) :
    (p ++ q).Fits t where
  data e he := (List.mem_append.1 he).elim (hp.data e) (hq.data e)
  text i hi := (List.mem_append.1 hi).elim (hp.text i) (hq.text i)

theorem fits_ofItems {items : List Item} {t : List Char} (h : ∀ i ∈ items, i.Fits t) :
    (ofItems items).Fits t where
  data _ he := h _ (mem_data_ofItems.1 he)
  text _ hi := h _ (mem_text_ofItems.1 hi)

end Program

/-! ## What attempts find fits -/

namespace Session

open Scanner

/-- Where the scanner of a session over a text can be between two attempts: before the text, inside of
it, or behind it. -/
def Stands (t : List Char) (scanner : Scanner) : Prop :=
  scanner = .ofText t ∨ (∃ before ahead, before ++ ahead = t ∧ scanner = between before ahead) ∨
    scanner.Spent

/-- The state of a session over a text, between two attempts. -/
structure Sound (t : List Char) (s : Session) : Prop where
  stands : Stands t s.scanner
  fits : s.program.Fits t

theorem sound_ofText (t : List Char) : Sound t (ofText t) :=
  ⟨Or.inl rfl, Program.fits_empty t⟩

theorem Stands.misfit {t : List Char} {scanner : Scanner} (h : Stands t scanner) :
    scanner.misfit = none := by
  rcases h with rfl | ⟨before, ahead, -, rfl⟩ | hspent
  · rfl
  · rfl
  · exact hspent.misfit_eq

/-- An attempt starts inside of the text or behind it. -/
theorem Stands.leave {t : List Char} {scanner : Scanner} (h : Stands t scanner) :
    (∃ before ahead, before ++ ahead = t ∧ scanner.leave = between before ahead) ∨
      scanner.leave.Spent := by
  rcases h with rfl | ⟨before, ahead, ht, rfl⟩ | hspent
  · exact Or.inl ⟨[], t, rfl, leave_ofText t⟩
  · cases ahead with
    | nil => exact Or.inr (spent_between before).leave
    | cons c ahead =>
        refine Or.inl ⟨before ++ [c], ahead, by simpa using ht, ?_⟩
        rw [Scanner.leave, if_neg (by simp [not_beforeFirst_between]), skip_between]
  · exact Or.inr hspent.leave

/-- However an attempt ends, what it found fits. -/
theorem Ends.sound {active : Option Section} {program : Program} {before rest t : List Char}
    {previous : Option Char} {r : Except SyntaxError Program × Session}
    (h : Ends active program before (.of active previous rest) r) (ht : t = before ++ rest)
    (hfits : program.Fits t) : (∀ p, r.1 = .ok p → p.Fits t) ∧ Sound t r.2 := by
  have hitems (after : List Char) (hrest : (Outline.of active previous rest).text ++ after = rest) :
      (program ++ .ofItems (Phrase.items before (Outline.of active previous rest).phrases)).Fits t := by
    have htext : t = before ++ (Outline.of active previous rest).phrases.flatMap Phrase.text ++
        after := by
      rw [ht, List.append_assoc]
      exact congrArg (before ++ ·) hrest.symm
    exact hfits.append (Program.fits_ofItems (Phrase.fits_items Outline.wellFormed_of_mem htext))
  cases h with
  | finished hfailure hspent =>
      have htext := Outline.text_of_failure_eq_none hfailure
      refine ⟨?_, Or.inr (Or.inr hspent), Program.fits_empty t⟩
      intro p hp
      obtain rfl := Except.ok.inj hp
      exact hitems [] (by rw [htext, List.append_nil])
  | @stopped f hfailure =>
      have htext := Outline.text_of_failure_eq_some hfailure
      rw [List.append_assoc] at htext
      refine ⟨?_, Or.inr (Or.inl ⟨_, _, ?_, rfl⟩), hitems _ htext⟩
      · intro p hp
        simp at hp
      · rw [ht, List.append_assoc, List.append_assoc, htext]

/-- What an attempt finds fits, and so does what it leaves for the next one. -/
theorem Sound.read {t : List Char} {s : Session} (h : Sound t s) :
    (∀ p, s.read.1 = .ok p → p.Fits t) ∧ Sound t s.read.2 := by
  obtain ⟨scanner, active, program⟩ := s
  rw [Session.read]
  rcases h.stands.leave with ⟨before, ahead, ht, hleave⟩ | hspent
  · rw [hleave]
    exact (ends_readItems active program before ahead).sound ht.symm h.fits
  · rw [readItems_of_nil hspent.ahead_eq]
    refine ⟨?_, Or.inr (Or.inr hspent), Program.fits_empty t⟩
    intro p hp
    obtain rfl : program = p := by simpa using hp
    exact h.fits

/-- The session after a number of attempts. -/
def after (s : Session) : Nat → Session
  | 0 => s
  | n + 1 => (s.after n).read.2

theorem sound_after (t : List Char) (n : Nat) : Sound t ((ofText t).after n) := by
  induction n with
  | zero => exact sound_ofText t
  | succ n ih => exact ih.read.2

end Session

/-! ## Programs that fit can be used -/

/-- The computation does not end in a misfit. -/
def Answers {α : Type} (x : Except Misfit α) : Prop := ∃ a, x = .ok a

namespace Answers

variable {α β : Type}

theorem pure (a : α) : Answers (Pure.pure a : Except Misfit α) := ⟨a, rfl⟩

theorem bind {x : Except Misfit α} {f : α → Except Misfit β} (hx : Answers x)
    (hf : ∀ a, Answers (f a)) : Answers (x >>= f) := by
  obtain ⟨a, rfl⟩ := hx
  exact hf a

theorem mapM {f : α → Except Misfit β} {l : List α} (h : ∀ a ∈ l, Answers (f a)) :
    Answers (l.mapM f) := by
  induction l with
  | nil => exact pure []
  | cons a l ih =>
      rw [List.mapM_cons]
      exact (h a List.mem_cons_self).bind fun b =>
        (ih fun c hc => h c (List.mem_cons_of_mem a hc)).bind fun bs => pure (b :: bs)

end Answers

theorem Span.Fits.answers {s : Span} {t : List Char} (h : s.Fits t) : Answers (s.slice t) :=
  Span.fits_iff_slice.1 h

namespace Program

variable {t : List Char}

/-- The names of a program that fits lie in the source. -/
theorem Fits.namesLieIn {p : Program} (h : p.Fits t) : p.NamesLieIn t where
  label i hi l hl := ((h.text i hi).label l hl).answers
  symbol e he := (h.data e he).symbol.answers

/-- The labels of a program that fits can be had. -/
theorem Fits.answers_labels {p : Program} (h : p.Fits t) : Answers (p.labels t) := by
  obtain ⟨labels, hlabels, -⟩ := exists_labels_of_liesIn h.namesLieIn.label
  exact ⟨labels, hlabels⟩

/-- The data entries of a program that fits can be looked up. -/
theorem Fits.answers_data? {p : Program} (h : p.Fits t) (symbol : String) :
    Answers (p.data? t symbol) :=
  ⟨_, findData_eq_find? h.namesLieIn.symbol symbol⟩

end Program

namespace Listing

variable {t : List Char}

theorem answers_dataLine (style : Style) {e : Datum} (h : e.Fits t) :
    Answers (dataLine style t e) :=
  h.symbol.answers.bind fun _ => h.value.answers.bind fun _ => .pure _

theorem answers_labelPieces {label : Option Span} (h : ∀ l ∈ label, l.FitsSymbol t) :
    Answers (labelPieces t label) := by
  cases label with
  | none => exact .pure []
  | some l => exact (h l rfl).answers.bind fun _ => .pure _

theorem answers_instructionLine (style : Style) {i : Instruction} (h : i.Fits t) :
    Answers (instructionLine style t i) := by
  have hoperands : Answers (i.operands.mapM (operandPieces t)) :=
    .mapM fun o ho => (h.operands o ho).answers.bind fun _ => .pure _
  exact (answers_labelPieces h.label).bind fun _ => h.name.answers.bind fun _ =>
    hoperands.bind fun _ => .pure _

theorem answers_block {α : Type} (s : Section) {line : α → Except Misfit (List Piece)}
    {entries : List α} (h : ∀ a ∈ entries, Answers (line a)) : Answers (block s line entries) := by
  unfold block
  split
  · exact .pure []
  · exact (Answers.mapM h).bind fun _ => .pure _

end Listing

/-- A program that fits can be listed. -/
theorem Program.Fits.answers_render {p : Program} {t : List Char} (h : p.Fits t)
    (style : Listing.Style) : Answers (Listing.render style t p) := by
  have hdata := Listing.answers_block .data fun e he => Listing.answers_dataLine style (h.data e he)
  have htext := Listing.answers_block .text fun i hi =>
    Listing.answers_instructionLine style (h.text i hi)
  exact (hdata.bind fun _ => htext.bind fun _ => .pure _).bind fun _ => .pure _

end Mnemonic
