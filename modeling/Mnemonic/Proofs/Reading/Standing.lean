import Mnemonic.Proofs.Reading.Resumption

set_option autoImplicit false

/-!
# Where phrases stand

A phrase that is read stands in its text behind what was read before it, and the text around it bounds
it: the character in front of it, and what remains behind it. What the attempts of a session find is
said by phrases that stand in the text, and no two of them touch: a character at least that belongs to
neither lies between one entry and the next.

Main statements: the text bounds the phrase that is read (`bounded_of_first_eq_ok`); each phrase of an
outline stands in the text (`standsIn_of_mem_placed`); what phrases say stands apart (`pairwise_apart`); and
whatever program an attempt returns is made of items that are said in the text and stand apart
(`exists_items_of_read`).
-/

namespace Mnemonic

open Text

/-! ## The text around a phrase -/

namespace Phrase

/-- The text is at its end or at a line feed. -/
def AtLineEnd (t : List Char) : Prop := ∀ c ∈ t.head?, c = '\n'

/-- A text in quotes. -/
def IsQuoted (value : List Char) : Prop :=
  ∃ quote body, (quote = '\'' ∨ quote = '"') ∧ value = quote :: body ++ [quote]

/-- The character in front of a phrase and what remains behind it are such that no other phrase is read
there. -/
def Bounded (previous : Option Char) (rest : List Char) : Phrase → Prop
  | blank c => startsComment previous c = false
  | comment remark => (∃ c ∈ remark.head?, startsComment previous c = true) ∧ AtLineEnd rest
  | directive _ _ => True
  | datum _ _ value dropped =>
      (IsQuoted value ∧ (dropped = [] → rest = [])) ∨ (¬IsQuoted value ∧ dropped = [])
  | instruction _ _ _ _ => AtLineEnd rest

theorem atLineEnd_dropWhile (t : List Char) : AtLineEnd (t.dropWhile (· != '\n')) := by
  intro c hc
  simpa using eq_false_of_mem_head?_dropWhile c hc

theorem bounded_of_directiveFrom {active : Option Section} {previous : Option Char}
    {rest rest' : List Char} {p : Phrase} (h : directiveFrom active rest = .ok (p, rest')) :
    p.Bounded previous rest' := by
  unfold directiveFrom at h
  split at h
  · simp at h
  · dsimp only at h
    split at h
    · simp at h
    · split at h
      · simp at h
      · obtain ⟨rfl, -⟩ := Prod.mk.inj (Except.ok.inj h)
        trivial

theorem bounded_of_operandsFrom {label : Option (List Char × List Char)} {previous : Option Char}
    {name rest rest' : List Char} {p : Phrase} (h : operandsFrom label name rest = .ok (p, rest')) :
    p.Bounded previous rest' := by
  unfold operandsFrom at h
  dsimp only at h
  split at h
  · simp at h
  · obtain ⟨rfl, rfl⟩ := Prod.mk.inj (Except.ok.inj h)
    exact atLineEnd_dropWhile rest

theorem bounded_of_instructionFrom {previous : Option Char} {word rest rest' : List Char} {p : Phrase}
    (h : instructionFrom word rest = .ok (p, rest')) : p.Bounded previous rest' := by
  unfold instructionFrom at h
  split at h
  · split at h
    · simp at h
    · split at h
      · simp at h
      · exact bounded_of_operandsFrom h
  · exact bounded_of_operandsFrom h

theorem bounded_of_datumFrom {previous : Option Char} {word rest rest' : List Char} {p : Phrase}
    (h : datumFrom word rest = .ok (p, rest')) : p.Bounded previous rest' := by
  unfold datumFrom at h
  split at h
  · dsimp only at h
    split at h
    · simp at h
    · rename_i c cs hdrop
      split at h
      · rename_i hquote
        split at h
        · simp at h
        · rename_i body ahead hclose
          obtain ⟨rfl, rfl⟩ : datum word.dropLast (rest.takeWhile isSeparator) (c :: body ++ [c])
              (ahead.take 1) = p ∧ ahead.drop 1 = rest' := by simpa using h
          refine Or.inl ⟨⟨c, body, hquote, rfl⟩, fun hnil => ?_⟩
          cases ahead with
          | nil => rfl
          | cons d ahead => simp at hnil
      · rename_i hquote
        obtain ⟨rfl, rfl⟩ : datum word.dropLast (rest.takeWhile isSeparator)
            ((c :: cs).takeWhile (!isSeparator ·)) [] = p ∧
            (c :: cs).dropWhile (!isSeparator ·) = rest' := by simpa using h
        refine Or.inr ⟨?_, rfl⟩
        rintro ⟨quote, body, hq, hvalue⟩
        have hc : (!isSeparator c) = true := by simpa using eq_false_of_dropWhile hdrop
        rw [List.takeWhile_cons_of_pos (p := (!isSeparator ·)) hc, List.cons_append] at hvalue
        exact hquote ((List.cons.inj hvalue).1 ▸ hq)
  · simp at h

/-- The text bounds the phrase that is read in it. -/
theorem bounded_of_first_eq_ok {active : Option Section} {previous : Option Char} {c : Char}
    {cs rest : List Char} {p : Phrase} (h : first active previous c cs = .ok (p, rest)) :
    p.Bounded previous rest := by
  unfold first at h
  split at h
  · rename_i hsep
    obtain ⟨rfl, rfl⟩ := Prod.mk.inj (Except.ok.inj h)
    simp only [isSeparator, Bool.or_eq_true, beq_iff_eq] at hsep
    rcases hsep with (rfl | rfl) | rfl <;> rfl
  · rename_i hsep
    split at h
    · rename_i hstarts
      obtain ⟨rfl, rfl⟩ := Prod.mk.inj (Except.ok.inj h)
      have hlf : (c != '\n') = true := by
        rw [bne_iff_ne]
        rintro rfl
        exact hsep rfl
      refine ⟨⟨c, ?_, hstarts⟩, atLineEnd_dropWhile (c :: cs)⟩
      rw [List.takeWhile_cons_of_pos (p := (· != '\n')) hlf]
      rfl
    · rename_i hstarts
      split at h
      · obtain ⟨rfl, rfl⟩ := Prod.mk.inj (Except.ok.inj h)
        exact Bool.eq_false_iff.2 hstarts
      · unfold statementFrom at h
        split at h
        · exact bounded_of_directiveFrom h
        · split at h
          · simp at h
          · exact bounded_of_instructionFrom h
          · exact bounded_of_datumFrom h

/-! ## Phrases in their text -/

/-- The phrase is read in a text, behind a part of it. -/
def StandsIn (t before : List Char) (p : Phrase) : Prop :=
  ∃ active c cs rest, t = before ++ c :: cs ∧ first active before.getLast? c cs = .ok (p, rest)

/-- What remains of the text behind a phrase that stands in it. -/
theorem StandsIn.exists_rest {t before : List Char} {p : Phrase} (h : p.StandsIn t before) :
    ∃ rest, t = before ++ p.text ++ rest ∧ p.WellFormed ∧ p.Bounded before.getLast? rest := by
  obtain ⟨active, c, cs, rest, ht, hfirst⟩ := h
  have hopens := opens_of_first_eq_ok hfirst
  refine ⟨rest, ?_, hopens.wellFormed, bounded_of_first_eq_ok hfirst⟩
  rw [ht, hopens.text_append, List.append_assoc]

/-- The part of a phrase that is passed over stands in the text. -/
theorem StandsIn.isPrefix_passed {t before : List Char} {p : Phrase} (h : p.StandsIn t before) :
    before ++ p.passed <+: t := by
  obtain ⟨rest, ht, -⟩ := h.exists_rest
  refine ⟨p.unread ++ rest, ?_⟩
  rw [ht, text]
  simp only [List.append_assoc]

/-- Behind a phrase comes the one that is read behind its text. -/
theorem getLast?_append_text {before : List Char} {p : Phrase} (hp : p.WellFormed) :
    (before ++ p.text).getLast? = p.text.getLast? :=
  List.getLast?_append_of_ne_nil before (text_ne_nil hp)

/-- Phrases that stand one behind the other, each with the text in front of it. -/
def placed (before : List Char) : List Phrase → List (List Char × Phrase)
  | [] => []
  | p :: ps => (before, p) :: placed (before ++ p.text) ps

end Phrase

/-- Each phrase of an outline stands in the text, behind the phrases in front of it. -/
theorem Outline.standsIn_of_mem_placed {active : Option Section} {before t : List Char} :
    ∀ q ∈ Phrase.placed before (of active before.getLast? t).phrases,
      q.2.StandsIn (before ++ t) q.1 := by
  generalize hprevious : before.getLast? = previous
  induction active, previous, t using Outline.induction generalizing before with
  | nil active previous => simp [Phrase.placed]
  | error active previous c cs f hfirst => simp [of_of_error hfirst, Phrase.placed]
  | ok active previous c cs p rest hfirst ih =>
      have hopens := Phrase.opens_of_first_eq_ok hfirst
      have hlast : (before ++ p.text).getLast? = p.text.getLast? :=
        Phrase.getLast?_append_text hopens.wellFormed
      rw [of_of_ok hfirst]
      intro q hq
      rcases List.mem_cons.1 hq with rfl | hq
      · exact ⟨active, c, cs, rest, rfl, hprevious ▸ hfirst⟩
      · have hstands := ih hlast q hq
        rwa [List.append_assoc, ← hopens.text_append] at hstands

/-! ## Items in their text -/

/-- A phrase that stands in the text says the item. -/
def Item.SaidIn (t : List Char) (i : Item) : Prop :=
  ∃ before p, Phrase.StandsIn t before p ∧ p.item? before = some i

/-- There is room between the end of an item and the start of the other one. -/
def Item.Apart (i j : Item) : Prop := ∀ s ∈ i.span?, ∀ s' ∈ j.span?, s.upper < s'.lower

namespace Phrase

/-- Each item that phrases say is said by one of them, behind those in front of it. -/
theorem mem_items_iff {before : List Char} {phrases : List Phrase} {i : Item} :
    i ∈ items before phrases ↔ ∃ q ∈ placed before phrases, q.2.item? q.1 = some i := by
  induction phrases generalizing before with
  | nil => simp [items, placed]
  | cons p ps ih => simp [items, placed, ih]

/-- Where a separator comes first, no item starts at once. -/
theorem lower_of_atSeparator {t : List Char} (h : AtSeparator t) (active : Option Section)
    (previous : Option Char) (before : List Char) :
    ∀ i ∈ items before (Outline.of active previous t).phrases, ∀ s ∈ i.span?,
      byteLength before < s.lower := by
  cases t with
  | nil => simp [items]
  | cons c cs =>
      have hfirst : first active previous c cs = .ok (blank c, cs) := by
        rw [first, if_pos (h c rfl)]
      rw [Outline.of_of_ok hfirst]
      intro i hi s hs
      have hwithin := within_of_mem_items Outline.wellFormed_of_mem (before ++ [c]) i hi s hs
      have hpos := c.utf8Size_pos
      rw [byteLength_append, byteLength_cons] at hwithin
      omega

/-- What phrases say stands apart. -/
theorem pairwise_apart (active : Option Section) (previous : Option Char) (before t : List Char) :
    (items before (Outline.of active previous t).phrases).Pairwise Item.Apart := by
  induction active, previous, t using Outline.induction generalizing before with
  | nil active previous => simp [items]
  | error active previous c cs f hfirst => simp [Outline.of_of_error hfirst, items]
  | ok active previous c cs p rest hfirst ih =>
      have hopens := opens_of_first_eq_ok hfirst
      rw [Outline.of_of_ok hfirst, items]
      refine List.pairwise_append.2 ⟨?_, ih (before ++ p.text), ?_⟩
      · cases p.item? before <;> simp
      · intro i hi j hj s hs s' hs'
        have hupper := (within_passed_of_item? hopens.wellFormed (Option.mem_toList.1 hi) s hs).2.2
        -- Between the two is the character that is left unread, or a separator if there is none.
        rcases unread_eq_nil_or_singleton hopens.wellFormed with hunread | ⟨d, hunread⟩
        · have hlower := lower_of_atSeparator (hopens.maximal hunread) _ _ _ j hj s' hs'
          rw [text, hunread, List.append_nil] at hlower
          exact hupper.trans_lt hlower
        · have hlower := (within_of_mem_items Outline.wellFormed_of_mem _ j hj s' hs').1
          have hpos := d.utf8Size_pos
          rw [text, hunread, ← List.append_assoc, byteLength_append _ [d], byteLength_cons] at hlower
          omega

end Phrase

/-! ## What attempts return -/

namespace Session

open Scanner

theorem saidIn_of_mem_completed {t : List Char} {s : Session} (h : Stands t s.scanner) :
    ∀ i ∈ s.completed, i.SaidIn t := by
  intro i hi
  rcases h.leave with ⟨before, ahead, rfl, hleave⟩ | hspent
  · rw [completed, upcoming, hleave, passed_between] at hi
    obtain ⟨q, hq, hitem⟩ := Phrase.mem_items_iff.1 hi
    exact ⟨q.1, q.2, Outline.standsIn_of_mem_placed q hq, hitem⟩
  · simp [completed, upcoming, hspent.ahead_eq, Phrase.items] at hi

/-- Items that are said in a text, in the order of the text and apart. -/
structure Arranged (t : List Char) (items : List Item) : Prop where
  said : ∀ i ∈ items, i.SaidIn t
  apart : items.Pairwise Item.Apart

/-- Further on in the text, more items can be read. -/
theorem Arranged.append_completed {t : List Char} {s : Session} {items : List Item}
    (h : Arranged t items) (hfront : ∀ i ∈ items, ∀ r ∈ i.span?, r.upper < s.scanner.cursor.offset)
    (hstands : Stands t s.scanner) : Arranged t (items ++ s.completed) where
  said i hi := (List.mem_append.1 hi).elim (h.said i) (saidIn_of_mem_completed hstands i)
  apart := by
    refine List.pairwise_append.2 ⟨h.apart, Phrase.pairwise_apart _ _ _ _, ?_⟩
    intro i hi j hj r hr r' hr'
    exact (hfront i hi r hr).trans_le (within_completed hstands j hj r' hr').1

/-- What is recorded between two attempts is arranged in front of the cursor. -/
theorem exists_arranged_after (t : List Char) (n : Nat) :
    ∃ items, ((ofText t).after n).program = .ofItems items ∧ Arranged t items ∧
      ∀ i ∈ items, ∀ r ∈ i.span?, r.upper < ((ofText t).after n).scanner.cursor.offset := by
  induction n with
  | zero => exact ⟨[], rfl, ⟨by simp, .nil⟩, by simp⟩
  | succ n ih =>
      obtain ⟨items, hprogram, harranged, hfront⟩ := ih
      have hstands := (sound_after t n).stands
      cases hread : ((ofText t).after n).read.1 with
      | ok p => exact ⟨[], (read_of_ok hstands hread).2.2, ⟨by simp, .nil⟩, by simp⟩
      | error e =>
          obtain ⟨f, -, -, hleft⟩ := read_of_error hstands hread
          obtain ⟨hforward, hbehind, -⟩ := offset_of_error hstands hread
          refine ⟨items ++ ((ofText t).after n).completed, ?_,
            harranged.append_completed hfront hstands, ?_⟩
          · rw [Program.ofItems_append, ← hprogram]
            exact congrArg Session.program hleft
          · intro i hi r hr
            rcases List.mem_append.1 hi with hi | hi
            · exact (hfront i hi r hr).trans hforward
            · exact (within_completed hstands i hi r hr).2.2.trans_lt hbehind

/-- Whatever program an attempt returns, its items are said in the text and stand apart. -/
theorem exists_items_of_read {t : List Char} {n : Nat} {p : Program}
    (h : ((ofText t).after n).read.1 = .ok p) : ∃ items, p = .ofItems items ∧ Arranged t items := by
  obtain ⟨items, hprogram, harranged, hfront⟩ := exists_arranged_after t n
  have hstands := (sound_after t n).stands
  refine ⟨items ++ ((ofText t).after n).completed, ?_, harranged.append_completed hfront hstands⟩
  rw [(read_of_ok hstands h).1, hprogram, Program.ofItems_append]

end Session

end Mnemonic
