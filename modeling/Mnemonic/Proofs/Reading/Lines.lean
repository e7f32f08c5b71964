import Mathlib
import Mnemonic.Proofs.Reading.Attempt
import Mnemonic.Proofs.Reading.Shift

set_option autoImplicit false

/-!
# Texts line by line

No phrase that is complete reaches over the end of a line into what follows, so a text that ends with a
line feed can be read on its own: what follows it changes neither its phrases nor its first error,
unless the error is that the text has ended. What follows is then read as a text of its own, only that
its places are further down and its spans further on.

Main statements: reading a phrase in lines that are complete does not depend on what follows
(`continues_first`); the outline of such lines and more is the outline of the lines and that of the rest
(`of_append`); and reading both is reading one after the other (`read_append`).
-/

namespace Mnemonic

open Text

namespace Phrase

theorem takeWhile_append_of_ne {p : Char → Bool} {t : List Char} (h : t.dropWhile p ≠ [])
    (more : List Char) : (t ++ more).takeWhile p = t.takeWhile p := by
  rw [List.takeWhile_append, if_neg]
  intro hlength
  have hsplit := congrArg List.length (List.takeWhile_append_dropWhile (p := p) (l := t))
  rw [List.length_append, hlength] at hsplit
  exact h (List.length_eq_zero_iff.1 (by omega))

theorem dropWhile_append_of_ne {p : Char → Bool} {t : List Char} (h : t.dropWhile p ≠ [])
    (more : List Char) : (t ++ more).dropWhile p = t.dropWhile p ++ more := by
  rw [List.dropWhile_append, if_neg]
  rwa [List.isEmpty_iff]

/-- A reading stays as it is when more text follows, which goes to what is ahead. -/
def Continues (more : List Char) (r r' : Except Failure (Phrase × List Char)) : Prop :=
  match r with
  | .ok (p, rest) => r' = .ok (p, rest ++ more)
  | .error f => f.fault ≠ .unexpectedEnd → r' = .error { f with ahead := f.ahead ++ more }

theorem continues_atEnd (more word ahead : List Char) (r' : Except Failure (Phrase × List Char)) :
    Continues more (.error (.atEnd word ahead)) r' :=
  fun h => absurd rfl h

theorem nextWord?_append {t gap word rest : List Char} (h : nextWord? t = some (gap, word, rest))
    (ht : EndsLine t) (more : List Char) :
    nextWord? (t ++ more) = some (gap, word, rest ++ more) ∧ EndsLine rest := by
  unfold nextWord? at h
  split at h
  · simp at h
  · rename_i c cs hdrop
    obtain ⟨rfl, rfl, rfl⟩ : t.takeWhile isSeparator = gap ∧
        (c :: cs).takeWhile (!isSeparator ·) = word ∧
        (c :: cs).dropWhile (!isSeparator ·) = rest := by simpa using h
    have hroom : t.dropWhile isSeparator ≠ [] := by
      rw [hdrop]
      exact List.cons_ne_nil c cs
    have hrest := (ht.of_dropWhile_eq_cons hdrop).dropWhile (p := (!isSeparator ·)) rfl
    refine ⟨?_, hrest⟩
    unfold nextWord?
    rw [dropWhile_append_of_ne hroom, hdrop, takeWhile_append_of_ne hroom, List.cons_append]
    simp only
    rw [← List.cons_append, takeWhile_append_of_ne hrest.ne_nil, dropWhile_append_of_ne hrest.ne_nil]

theorem continues_directiveFrom (active : Option Section) {rest : List Char} (h : EndsLine rest)
    (more : List Char) :
    Continues more (directiveFrom active rest) (directiveFrom active (rest ++ more)) := by
  unfold directiveFrom
  cases hnext : nextWord? rest with
  | none => exact continues_atEnd _ _ _ _
  | some found =>
      obtain ⟨gap, name, ahead⟩ := found
      rw [(nextWord?_append hnext h more).1]
      dsimp only
      cases Section.ofName? (String.ofList name) with
      | none => exact fun _ => rfl
      | some s =>
          by_cases hactive : active = some s
          · simp only [if_pos hactive]
            exact fun _ => rfl
          · simp only [if_neg hactive]
            rfl

theorem continues_operandsFrom (label : Option (List Char × List Char)) (name : List Char)
    {rest : List Char} (h : EndsLine rest) (more : List Char) :
    Continues more (operandsFrom label name rest) (operandsFrom label name (rest ++ more)) := by
  have hroom := (h.dropWhile (p := (· != '\n')) rfl).ne_nil
  unfold operandsFrom
  rw [takeWhile_append_of_ne hroom, dropWhile_append_of_ne hroom]
  dsimp only
  cases (rest.takeWhile (· != '\n')).dropWhile fitsLine with
  | nil => rfl
  | cons bad cs => exact fun _ => rfl

theorem continues_instructionFrom (word : List Char) {rest : List Char} (h : EndsLine rest)
    (more : List Char) :
    Continues more (instructionFrom word rest) (instructionFrom word (rest ++ more)) := by
  unfold instructionFrom
  by_cases hcolon : word.getLast? = some ':'
  · simp only [if_pos hcolon]
    cases hnext : nextWord? rest with
    | none => exact continues_atEnd _ _ _ _
    | some found =>
        obtain ⟨gap, name, ahead⟩ := found
        obtain ⟨hmore, hahead⟩ := nextWord?_append hnext h more
        rw [hmore]
        dsimp only
        by_cases hkey : name = sectionKeyword
        · simp only [if_pos hkey]
          exact fun _ => rfl
        · simp only [if_neg hkey]
          exact continues_operandsFrom _ name hahead more
  · simp only [if_neg hcolon]
    exact continues_operandsFrom none word h more

theorem closeQuote?_append {quote previous : Char} {t body rest : List Char}
    (h : closeQuote? quote previous t = some (body, rest)) (more : List Char) :
    closeQuote? quote previous (t ++ more) = some (body, rest ++ more) := by
  induction t generalizing previous body with
  | nil => simp [closeQuote?] at h
  | cons c cs ih =>
      rw [List.cons_append]
      unfold closeQuote? at h ⊢
      by_cases hclose : c = quote ∧ previous ≠ '\\'
      · rw [if_pos hclose] at h ⊢
        obtain ⟨rfl, rfl⟩ : [] = body ∧ cs = rest := by simpa using h
        rfl
      · rw [if_neg hclose] at h ⊢
        obtain ⟨⟨body', rest'⟩, hlater, heq⟩ := Option.map_eq_some_iff.1 h
        obtain ⟨rfl, rfl⟩ := Prod.mk.inj heq
        rw [ih hlater]
        rfl

theorem continues_datumFrom (word : List Char) {rest : List Char} (h : EndsLine rest)
    (more : List Char) : Continues more (datumFrom word rest) (datumFrom word (rest ++ more)) := by
  unfold datumFrom
  by_cases hcolon : word.getLast? = some ':'
  · simp only [if_pos hcolon]
    cases hdrop : rest.dropWhile isSeparator with
    | nil => exact continues_atEnd _ _ _ _
    | cons c cs =>
        have hroom : rest.dropWhile isSeparator ≠ [] := by
          rw [hdrop]
          exact List.cons_ne_nil c cs
        have hlines : EndsLine (c :: cs) := h.of_dropWhile_eq_cons hdrop
        rw [dropWhile_append_of_ne hroom, hdrop, takeWhile_append_of_ne hroom, List.cons_append]
        dsimp only
        by_cases hquote : c = '\'' ∨ c = '"'
        · simp only [if_pos hquote]
          cases hclose : closeQuote? c c cs with
          | none => exact continues_atEnd _ _ _ _
          | some found =>
              -- A line feed follows the closing quote at the latest, so the character behind it is
              -- one of these lines.
              obtain ⟨body, ahead⟩ := found
              have hahead : ahead ≠ [] := by
                rintro rfl
                rw [closeQuote?_eq_some hclose] at hlines
                have hlast : EndsLine [c] :=
                  EndsLine.of_append (a := c :: body) (by simpa using hlines) (List.cons_ne_nil c [])
                obtain rfl : c = '\n' := by simpa [EndsLine] using hlast
                simp at hquote
              obtain ⟨d, ahead, rfl⟩ := List.exists_cons_of_ne_nil hahead
              rw [closeQuote?_append hclose more]
              rfl
        · simp only [if_neg hquote]
          have hrest := hlines.dropWhile (p := (!isSeparator ·)) rfl
          rw [← List.cons_append, takeWhile_append_of_ne hrest.ne_nil,
            dropWhile_append_of_ne hrest.ne_nil]
          rfl
  · simp only [if_neg hcolon]
    exact fun _ => rfl

/-- Reading a phrase in complete lines does not depend on what follows them. -/
theorem continues_first (active : Option Section) (previous : Option Char) {c : Char}
    {cs : List Char} (h : EndsLine (c :: cs)) (more : List Char) :
    Continues more (first active previous c cs) (first active previous c (cs ++ more)) := by
  unfold first
  by_cases hsep : isSeparator c = true
  · simp only [if_pos hsep]
    rfl
  · simp only [if_neg hsep]
    by_cases hstarts : startsComment previous c = true
    · have hroom := (h.dropWhile (p := (· != '\n')) rfl).ne_nil
      simp only [if_pos hstarts]
      rw [← List.cons_append, takeWhile_append_of_ne hroom, dropWhile_append_of_ne hroom]
      rfl
    · simp only [if_neg hstarts]
      by_cases hslash : c = '/'
      · simp only [if_pos hslash]
        rfl
      · have hrest := h.dropWhile (p := (!isSeparator ·)) rfl
        simp only [if_neg hslash]
        rw [← List.cons_append, takeWhile_append_of_ne hrest.ne_nil,
          dropWhile_append_of_ne hrest.ne_nil]
        unfold statementFrom
        by_cases hkey : (c :: cs).takeWhile (!isSeparator ·) = sectionKeyword
        · simp only [if_pos hkey]
          exact continues_directiveFrom active hrest more
        · simp only [if_neg hkey]
          cases active with
          | none => exact fun _ => rfl
          | some s =>
              cases s with
              | text => exact continues_instructionFrom _ hrest more
              | data => exact continues_datumFrom _ hrest more

end Phrase

/-! ## The outline of lines and more -/

namespace Outline

variable {active : Option Section} {previous : Option Char}

/-- Only a slash in front makes a difference to how a text is read. -/
theorem of_previous (h : previous ≠ some '/') (t : List Char) :
    of active previous t = of active none t := by
  cases t with
  | nil => rw [of_nil, of_nil]
  | cons c cs =>
      have hfirst : Phrase.first active previous c cs = Phrase.first active none c cs := by
        have hstarts : Phrase.startsComment previous c = Phrase.startsComment none c := by
          simp [Phrase.startsComment, beq_false_of_ne h]
        rw [Phrase.first, Phrase.first, hstarts]
      cases hnone : Phrase.first active none c cs with
      | error f => rw [of_of_error (hfirst.trans hnone), of_of_error hnone]
      | ok found =>
          obtain ⟨p, rest⟩ := found
          rw [of_of_ok (hfirst.trans hnone), of_of_ok hnone]

/-- What remains of complete lines behind a phrase is complete lines, or nothing. -/
theorem endsLine_rest {c : Char} {cs rest : List Char} {p : Phrase}
    (hfirst : Phrase.first active previous c cs = .ok (p, rest)) (h : EndsLine (c :: cs)) :
    rest = [] ∨ EndsLine rest := by
  by_cases hrest : rest = []
  · exact Or.inl hrest
  · rw [(Phrase.opens_of_first_eq_ok hfirst).text_append] at h
    exact Or.inr (h.of_append hrest)

/-- When complete lines can be read, the rest is read behind them. -/
theorem of_append {lines : List Char} (hlines : lines = [] ∨ EndsLine lines) (rest : List Char)
    (h : (of active previous lines).failure = none) (before : List Char) :
    let later := of (Section.activeAfter active (Phrase.items before (of active previous lines).phrases))
      (lines.getLast?.or previous) rest
    of active previous (lines ++ rest) =
      ⟨(of active previous lines).phrases ++ later.phrases, later.failure⟩ := by
  induction active, previous, lines using Outline.induction generalizing before with
  | nil active previous =>
      simp [Phrase.items]
  | error active previous c cs f hfirst => simp [of_of_error hfirst] at h
  | ok active previous c cs p rest' hfirst ih =>
      have hcomplete : EndsLine (c :: cs) := hlines.resolve_left (List.cons_ne_nil c cs)
      have hcontinues := Phrase.continues_first active previous hcomplete rest
      rw [hfirst] at hcontinues
      have hopens := Phrase.opens_of_first_eq_ok hfirst
      have hprevious : (c :: cs).getLast?.or previous = rest'.getLast?.or p.text.getLast? := by
        obtain ⟨d, hd⟩ := Option.ne_none_iff_exists'.1
          (mt List.getLast?_eq_none_iff.1 (Phrase.text_ne_nil hopens.wellFormed))
        rw [hopens.text_append, List.getLast?_append, hd, Option.or_assoc, Option.some_or]
      rw [of_of_ok hfirst] at h ⊢
      have hlater := ih (endsLine_rest hfirst hcomplete) h (before ++ p.text)
      rw [List.cons_append, of_of_ok hcontinues, hprevious, Phrase.items,
        Section.activeAfter_append, Section.activeAfter_item?]
      simp only [hlater, List.cons_append]

/-- When complete lines have an error, other than that they end, so has the whole text. -/
theorem of_append_of_error {lines : List Char} (hlines : lines = [] ∨ EndsLine lines)
    (rest : List Char) {f : Phrase.Failure} (h : (of active previous lines).failure = some f)
    (hf : f.fault ≠ .unexpectedEnd) :
    of active previous (lines ++ rest) =
      ⟨(of active previous lines).phrases, some { f with ahead := f.ahead ++ rest }⟩ := by
  induction active, previous, lines using Outline.induction with
  | nil active previous => simp at h
  | error active previous c cs f' hfirst =>
      rw [of_of_error hfirst] at h ⊢
      obtain rfl : f' = f := by simpa using h
      have hcontinues := Phrase.continues_first active previous
        (hlines.resolve_left (List.cons_ne_nil c cs)) rest
      rw [hfirst] at hcontinues
      rw [List.cons_append, of_of_error (hcontinues hf)]
  | ok active previous c cs p rest' hfirst ih =>
      have hcomplete : EndsLine (c :: cs) := hlines.resolve_left (List.cons_ne_nil c cs)
      have hcontinues := Phrase.continues_first active previous hcomplete rest
      rw [hfirst] at hcontinues
      rw [of_of_ok hfirst] at h ⊢
      rw [List.cons_append, of_of_ok hcontinues, ih (endsLine_rest hfirst hcomplete) h]

end Outline

/-! ## Lines that say nothing -/

/-- A comment without its line feed. -/
def IsRemark (t : List Char) : Prop :=
  '\n' ∉ t ∧ (t.head? = some '#' ∨ t.head? = some ';' ∨ ∃ more, t = '/' :: '/' :: more)

/-- Lines that hold nothing but separators and comments. -/
inductive Remarks : List Char → Prop
  | nil : Remarks []
  | line {blank remark t : List Char} (hblank : ∀ c ∈ blank, isSeparator c = true)
      (hremark : remark = [] ∨ IsRemark remark) (h : Remarks t) :
      Remarks (blank ++ remark ++ '\n' :: t)

theorem Remarks.endsLine {t : List Char} (h : Remarks t) : t = [] ∨ EndsLine t := by
  induction h with
  | nil => exact Or.inl rfl
  | @line blank remark t hblank hremark h ih =>
      refine Or.inr (EndsLine.append ?_)
      rcases ih with rfl | ht
      · rfl
      · exact ht.append (a := ['\n'])

namespace Outline

/-- Nothing in the text says anything, or is wrong. -/
structure Silent (active : Option Section) (previous : Option Char) (t : List Char) : Prop where
  failure_eq : (of active previous t).failure = none
  items_eq : ∀ before, Phrase.items before (of active previous t).phrases = []

namespace Silent

variable {active : Option Section} {previous : Option Char}

theorem nil : Silent active previous [] :=
  ⟨by rw [of_nil], by simp [Phrase.items]⟩

theorem cons {c : Char} {cs rest : List Char} {p : Phrase}
    (hfirst : Phrase.first active previous c cs = .ok (p, rest)) (hitem : ∀ before, p.item? before = none)
    (hsection : p.section? = none) (h : Silent active p.text.getLast? rest) :
    Silent active previous (c :: cs) := by
  obtain ⟨hfailure, hitems⟩ := h
  have hof := of_of_ok hfirst
  rw [hsection, Option.none_or] at hof
  constructor
  · rw [hof]
    exact hfailure
  · intro before
    rw [hof, Phrase.items, hitem, hitems]
    rfl

theorem separator {c : Char} (hc : isSeparator c = true) {t : List Char}
    (h : Silent active (some c) t) : Silent active previous (c :: t) :=
  cons (Phrase.first_of_isSeparator hc active previous t) (fun _ => rfl) rfl h

theorem separators {blank : List Char} (hblank : ∀ c ∈ blank, isSeparator c = true) {t : List Char}
    (h : ∀ previous, previous ≠ some '/' → Silent active previous t) :
    ∀ previous, previous ≠ some '/' → Silent active previous (blank ++ t) := by
  induction blank with
  | nil => exact h
  | cons c blank ih =>
      have hc : isSeparator c = true := hblank c List.mem_cons_self
      have hne : some c ≠ some '/' := by
        rintro heq
        obtain rfl := Option.some.inj heq
        exact absurd hc (by decide)
      intro previous _
      exact separator hc (ih (fun d hd => hblank d (List.mem_cons_of_mem c hd)) (some c) hne)

/-- A comment up to its line feed. -/
theorem comment {c : Char} {remark t : List Char} (hsep : isSeparator c = false)
    (hstarts : Phrase.startsComment previous c = true) (hlf : '\n' ∉ c :: remark)
    (h : Silent active (some '\n') t) : Silent active previous (c :: remark ++ '\n' :: t) := by
  have hpass : ∀ d ∈ c :: remark, (d != '\n') = true := by
    intro d hd
    rw [bne_iff_ne]
    rintro rfl
    exact hlf hd
  have hfirst : Phrase.first active previous c (remark ++ '\n' :: t) =
      .ok (.comment (c :: remark), '\n' :: t) := by
    rw [Phrase.first, hsep, if_neg Bool.false_ne_true, if_pos hstarts, ← List.cons_append,
      List.takeWhile_append_of_pos hpass, List.dropWhile_append_of_pos hpass]
    simp
  exact cons hfirst (fun _ => rfl) rfl (separator rfl h)

theorem remark {remark t : List Char} (hremark : IsRemark remark) (h : Silent active (some '\n') t)
    (hprevious : previous ≠ some '/') : Silent active previous (remark ++ '\n' :: t) := by
  obtain ⟨hlf, hhead⟩ := hremark
  rcases hhead with hhead | hhead | ⟨more, rfl⟩
  · obtain ⟨more, rfl⟩ := List.head?_eq_some_iff.1 hhead
    exact comment rfl rfl hlf h
  · obtain ⟨more, rfl⟩ := List.head?_eq_some_iff.1 hhead
    exact comment rfl rfl hlf h
  · -- The first slash is skipped; it makes the second one start the comment.
    have hslash : Phrase.startsComment previous '/' = false := by
      simp [Phrase.startsComment, beq_false_of_ne hprevious]
    have hfirst : Phrase.first active previous '/' ('/' :: more ++ '\n' :: t) =
        .ok (.blank '/', '/' :: more ++ '\n' :: t) := by
      rw [Phrase.first, if_neg (by decide), hslash, if_neg Bool.false_ne_true, if_pos rfl]
    have hsecond : Silent active (some '/') ('/' :: more ++ '\n' :: t) :=
      comment rfl rfl (fun hmem => hlf (List.mem_cons_of_mem '/' hmem)) h
    exact cons hfirst (fun _ => rfl) rfl hsecond

end Silent

theorem silent_of_remarks {t : List Char} (h : Remarks t) (active : Option Section) :
    ∀ previous, previous ≠ some '/' → Silent active previous t := by
  induction h with
  | nil =>
      intro previous _
      exact .nil
  | @line blank remark t hblank hremark h ih =>
      have hlater : Silent active (some '\n') t := ih (some '\n') (by decide)
      rw [List.append_assoc]
      apply Silent.separators hblank
      intro previous hprevious
      rcases hremark with rfl | hremark
      · exact Silent.separator rfl hlater
      · exact Silent.remark hremark hlater hprevious

end Outline

/-! ## Reading lines and more -/

/-- The answer to lines that hold a program and a text behind them that has an answer of its own. -/
def Program.followedBy (p : Program) (lines : List Char) :
    Except SyntaxError Program → Except SyntaxError Program
  | .ok q => .ok (p ++ q.shift (byteLength lines) (lines.count '\n'))
  | .error e => .error (e.shift (lines.count '\n'))

namespace Outline

variable {active : Option Section} {lines : List Char}

theorem answer_eq_ok_iff {o : Outline} {p : Program} :
    o.answer = .ok p ↔ o.failure = none ∧ .ofItems (Phrase.items [] o.phrases) = p := by
  unfold answer
  cases o.failure with
  | none => simp
  | some f => simp

theorem answer_append (h : EndsLine lines) (rest : List Char) {p : Program}
    (hp : (of active none lines).answer = .ok p) :
    (of active none (lines ++ rest)).answer = p.followedBy lines
      (of (Section.activeAfter active (Phrase.items [] (of active none lines).phrases)) none
        rest).answer := by
  obtain ⟨hfailure, rfl⟩ := answer_eq_ok_iff.1 hp
  have htext : (of active none lines).phrases.flatMap Phrase.text = lines :=
    text_of_failure_eq_none hfailure
  have hprevious : lines.getLast?.or none = some '\n' := by
    rw [Option.or_none]
    exact h
  have hlater := of_append (Or.inr h) rest hfailure []
  rw [hprevious, of_previous (by decide)] at hlater
  rw [hlater]
  generalize of (Section.activeAfter active (Phrase.items [] (of active none lines).phrases)) none
    rest = later
  generalize (of active none lines).phrases = phrases at htext
  obtain ⟨others, failure⟩ := later
  cases failure with
  | none =>
      simp only [answer, Program.followedBy]
      rw [Phrase.items_append, List.nil_append, htext, ← List.append_nil lines,
        Phrase.items_append_eq_map_shift h, Program.ofItems_append, Program.ofItems_map_shift,
        List.append_nil]
  | some f =>
      simp only [answer, Program.followedBy, text]
      rw [List.flatMap_append, htext, Phrase.Failure.error_append_eq_shift h]

/-- Lines that say nothing add nothing to what stands in front of them. -/
theorem items_append_remarks (h : EndsLine lines) {remarks : List Char} (hremarks : Remarks remarks)
    (hfailure : (of active none lines).failure = none) :
    (of active none (lines ++ remarks)).failure = none ∧
      Phrase.items [] (of active none (lines ++ remarks)).phrases =
        Phrase.items [] (of active none lines).phrases := by
  have hprevious : lines.getLast?.or none ≠ some '/' := by
    rw [Option.or_none, show lines.getLast? = some '\n' from h]
    decide
  obtain ⟨hsilent, hitems⟩ := silent_of_remarks hremarks
    (Section.activeAfter active (Phrase.items [] (of active none lines).phrases)) _ hprevious
  rw [of_append (Or.inr h) remarks hfailure []]
  refine ⟨hsilent, ?_⟩
  rw [Phrase.items_append, hitems, List.append_nil]

theorem answer_append_of_error (h : EndsLine lines) (rest : List Char) {e : SyntaxError}
    (he : (of active none lines).answer = .error e) (hfault : e.fault ≠ .unexpectedEnd) :
    (of active none (lines ++ rest)).answer = .error e := by
  cases hfailure : (of active none lines).failure with
  | none =>
      rw [answer, hfailure] at he
      simp at he
  | some f =>
      have hanswer : (of active none lines).answer = .error (f.error (of active none lines).text) := by
        rw [answer, hfailure]
      obtain rfl := Except.error.inj (hanswer.symm.trans he)
      rw [of_append_of_error (Or.inr h) rest hfailure hfault]
      rfl

end Outline

/-- A text that ends with a line feed is read on its own. When it holds a program, what follows is read
as a text of its own, in the section that is active by then; when it has an error, other than that it
ends, nothing that follows mends it; and lines that hold nothing but comments only move what follows. -/
theorem Program.read_append (a b : String) (h : EndsLine a.toList) :
    (∀ p, Program.read a = .ok p → Program.read (a ++ b) =
      p.followedBy a.toList (Session.inSection (Session.ofString a).read.2.active b.toList).read.1) ∧
    (∀ e, Program.read a = .error e → e.fault ≠ .unexpectedEnd →
      Program.read (a ++ b) = .error e) ∧
    ∀ (remarks : String) (p : Program), Remarks remarks.toList → Program.read a = .ok p →
      Program.read (a ++ remarks ++ b) = p.followedBy (a ++ remarks).toList
        (Session.inSection (Session.ofString a).read.2.active b.toList).read.1 := by
  have hread (source : String) : Program.read source = (Outline.of none none source.toList).answer :=
    Session.fst_read none source.toList
  have hactive : (Session.ofString a).read.2.active =
      Section.activeAfter none (Phrase.items [] (Outline.of none none a.toList).phrases) :=
    Session.active_read none a.toList
  have hbehind : (Session.inSection (Session.ofString a).read.2.active b.toList).read.1 =
      (Outline.of (Section.activeAfter none
        (Phrase.items [] (Outline.of none none a.toList).phrases)) none b.toList).answer := by
    rw [← hactive]
    exact Session.fst_read _ b.toList
  refine ⟨?_, ?_, ?_⟩
  · intro p hp
    rw [hread] at hp ⊢
    rw [String.toList_append, Outline.answer_append h b.toList hp, hbehind]
  · intro e he hfault
    rw [hread] at he ⊢
    rw [String.toList_append]
    exact Outline.answer_append_of_error h b.toList he hfault
  · intro remarks p hremarks hp
    rw [hread] at hp ⊢
    obtain ⟨hfailure, hitems⟩ := Outline.answer_eq_ok_iff.1 hp
    obtain ⟨hsilent, hsame⟩ := Outline.items_append_remarks h hremarks hfailure
    have hlines : EndsLine (a.toList ++ remarks.toList) := by
      rcases hremarks.endsLine with hnil | hends
      · rwa [hnil, List.append_nil]
      · exact hends.append
    have hmore : (Outline.of none none (a.toList ++ remarks.toList)).answer = .ok p :=
      Outline.answer_eq_ok_iff.2 ⟨hsilent, by rw [hsame, hitems]⟩
    rw [String.toList_append, String.toList_append,
      Outline.answer_append hlines b.toList hmore, hsame, hbehind]

/-- A data entry and a comment with another entry behind them, and an error that stays. -/
theorem Program.read_append_data :
    Program.read ("section .data\nx: 1\n" ++ "y: 2") =
        .ok ⟨[⟨⟨14, 15⟩, ⟨17, 18⟩, 2, 4⟩, ⟨⟨19, 20⟩, ⟨22, 23⟩, 3, 4⟩], []⟩ ∧
      Program.read ("nop\n" ++ "y: 2") = .error ⟨.statementBeforeSection, ⟨1, 3⟩⟩ ∧
      Program.read ("section .data\nx: 1\n" ++ ";c\n" ++ "y: 2") =
        .ok ⟨[⟨⟨14, 15⟩, ⟨17, 18⟩, 2, 4⟩, ⟨⟨22, 23⟩, ⟨25, 26⟩, 4, 4⟩], []⟩ := by
  have houtline : Outline.of none none "section .data\nx: 1\n".toList =
      ⟨[.directive [' '] .data, .blank '\n', .datum ['x'] [' '] ['1'] [], .blank '\n'], none⟩ := by
    cbv
  have hwrong : Outline.of none none "nop\n".toList =
      ⟨[], some ⟨.statementBeforeSection, encode "nop".toList, "nop".toList, ['\n']⟩⟩ := by
    cbv
  have hlater : Outline.of (some .data) none "y: 2".toList =
      ⟨[.datum ['y'] [' '] ['2'] []], none⟩ := by
    cbv
  have hread : Program.read "section .data\nx: 1\n" = .ok ⟨[⟨⟨14, 15⟩, ⟨17, 18⟩, 2, 4⟩], []⟩ := by
    refine (Session.fst_read none _).trans ?_
    rw [houtline]
    rfl
  have herror : Program.read "nop\n" = .error ⟨.statementBeforeSection, ⟨1, 3⟩⟩ := by
    refine (Session.fst_read none _).trans ?_
    rw [hwrong]
    rfl
  have hactive : (Session.ofString "section .data\nx: 1\n").read.2.active = some .data := by
    refine (Session.active_read none _).trans ?_
    rw [houtline]
    rfl
  have hremarks : Remarks ([] ++ [';', 'c'] ++ '\n' :: []) :=
    .line (by simp) (Or.inr ⟨by decide, Or.inr (Or.inl rfl)⟩) .nil
  obtain ⟨hok, -, hmoved⟩ := read_append "section .data\nx: 1\n" "y: 2" rfl
  obtain ⟨-, hfails, -⟩ := read_append "nop\n" "y: 2" rfl
  refine ⟨?_, hfails _ herror (by decide), ?_⟩
  · rw [hok _ hread, hactive, Session.fst_read, hlater]
    rfl
  · rw [hmoved ";c\n" _ hremarks hread, hactive, Session.fst_read, hlater]
    rfl

end Mnemonic
