import Mnemonic.Proofs.Listing.Entries
import Mnemonic.Proofs.Listing.Relisting
import Mnemonic.Proofs.Numbers.Numerals
import Mnemonic.Value

set_option autoImplicit false

/-!
# Operands that are integers

An operand spells an integer in tens, or in sixteens behind `0x`, with an optional minus sign in front of
it all. Operands are read a little differently. A minus sign may also stand behind the `0x`, where it
negates what stands there; and since the digits in sixteens are read as an integer before they are
negated, the least integer cannot be spelled by them. With both signs in place, it is the negative of
the least integer that is asked for, and reading has no answer.

Main statements: which operands are read as which integers (`ofOperand?_eq_integer_iff`), and which have
no answer (`negation_in_range_iff`), among the operands that programs have (`Program.isToken_iff`).
-/

namespace Mnemonic

open Literal

/-! ## Operands of programs -/

/-- The text is an operand of a program that some source holds. -/
def Program.IsToken (t : List Char) : Prop :=
  ∃ source p, read source = .ok p ∧ ∃ i ∈ p.text, ∃ o ∈ i.operands, o.slice source.toList = .ok t

/-- The operands of programs are the words of operand characters. -/
theorem Program.isToken_iff {t : List Char} :
    IsToken t ↔ t ≠ [] ∧ ∀ c ∈ t, isOperandChar c = true := by
  constructor
  · rintro ⟨source, p, hread, i, hi, o, ho, ht⟩
    obtain ⟨w, hw, hreadable⟩ := exists_wording_of_read hread
    obtain ⟨v, hv, hwords⟩ := exists_of_forall₂_mem (wording_eq_ok_iff_forall₂.1 hw).2 hi
    have hoperands := Misfit.mapM_eq_ok_iff.1 (Instruction.wording_eq_ok_iff.1 hwords).2.2
    obtain ⟨token, htoken, hslice⟩ := exists_of_forall₂_mem hoperands ho
    obtain rfl : t = token := Except.ok.inj (ht.symm.trans hslice)
    exact (hreadable.text v hv).operands t htoken
  · intro ht
    have hname : IsFirstWord ['a'] :=
      ⟨by simp [Phrase.IsUnparted, Text.isSeparator], 'a', [], rfl, by decide, by decide, by decide⟩
    have hcolon : (['a'] : List Char).getLast? ≠ some ':' := by decide
    have hkey : ['a'] ≠ sectionKeyword := by decide
    have hreadable : Instruction.Wording.Readable ⟨none, ['a'], [t]⟩ :=
      ⟨by simp, fun _ => ⟨hname, hcolon⟩, List.cons_ne_nil _ _, hname.unparted, hkey, by simpa using ht⟩
    obtain ⟨p, hread, hw⟩ := read_source (w := ⟨[], [⟨none, ['a'], [t]⟩]⟩)
      ⟨by simp, by simpa using hreadable⟩
    -- The program has one instruction, and that has one operand.
    obtain ⟨i, _, hwords, -, htext⟩ :=
      List.forall₂_cons_right_iff.1 (wording_eq_ok_iff_forall₂.1 hw).2
    obtain ⟨o, _, hslice, -, hoperands⟩ := List.forall₂_cons_right_iff.1
      (Misfit.mapM_eq_ok_iff.1 (Instruction.wording_eq_ok_iff.1 hwords).2.2)
    refine ⟨_, p, hread, i, by rw [htext]; exact List.mem_cons_self, o,
      by rw [hoperands]; exact List.mem_cons_self, ?_⟩
    rwa [String.toList_ofList]

namespace Value

/-! ## Spellings in sixteens -/

/-- The operand spells a number in sixteens: an optional minus sign, the mark, where reading allows for
another minus sign, and digits. -/
def SpellsHex (operand : List Char) (negative inner : Bool) (n : Nat) : Prop :=
  ∃ x digits, (x = 'x' ∨ x = 'X') ∧
    operand = minus negative ++ '0' :: x :: (minus inner ++ digits) ∧ Numeral 16 digits n

/-- The operand spells an integer in tens or in sixteens, with an optional minus sign in front. -/
def SpellsInteger (operand : List Char) (z : Int) : Prop :=
  SignedNumeral 10 operand z ∨ ∃ negative n, SpellsHex operand negative false n ∧ z = signed negative n

theorem splitMinus_eq_iff {t rest : List Char} {negative : Bool} :
    splitMinus t = (negative, rest) ↔
      t = minus negative ++ rest ∧ (negative = false → ∀ later, rest ≠ '-' :: later) := by
  unfold splitMinus
  split
  · rename_i cs
    cases negative with
    | true => simp [minus]
    | false =>
        simp only [minus, Prod.mk.injEq, Bool.true_eq_false, false_and, List.nil_append, true_imp_iff,
          false_iff, not_and]
        rintro rfl hne
        exact hne cs rfl
  · rename_i hne
    cases negative with
    | true =>
        simp only [minus, Prod.mk.injEq, Bool.false_eq_true, false_and, List.singleton_append, false_iff]
        exact fun h => hne rest h.1
    | false =>
        simp only [minus, Prod.mk.injEq, true_and, List.nil_append, true_imp_iff]
        exact ⟨fun h => ⟨h, fun later hlater => hne later (h.trans hlater)⟩, fun h => h.1⟩

theorem afterHexMark?_eq_some_iff {t cs : List Char} :
    afterHexMark? t = some cs ↔ ∃ x, (x = 'x' ∨ x = 'X') ∧ t = '0' :: x :: cs := by
  unfold afterHexMark?
  split
  · rename_i x cs'
    by_cases hx : x = 'x' ∨ x = 'X'
    · rw [if_pos hx, Option.some.injEq]
      constructor
      · rintro rfl
        exact ⟨x, hx, rfl⟩
      · rintro ⟨y, -, heq⟩
        exact (List.cons.inj (List.cons.inj heq).2).2
    · rw [if_neg hx]
      simp only [reduceCtorEq, false_iff]
      rintro ⟨y, hy, heq⟩
      obtain rfl : x = y := by simpa using (List.cons.inj (List.cons.inj heq).2).1
      exact hx hy
  · rename_i hne
    simp only [reduceCtorEq, false_iff]
    rintro ⟨x, -, rfl⟩
    exact hne x cs rfl

/-- What is read behind an optional minus sign and the mark has an optional minus sign of its own. -/
theorem hexLiteral?_eq_some_iff_signedNumeral {t : List Char} (hplus : '+' ∉ t) {negative : Bool}
    {w : Int64Word} :
    hexLiteral? t = some (negative, w) ↔ ∃ x literal, (x = 'x' ∨ x = 'X') ∧
      t = minus negative ++ '0' :: x :: literal ∧ SignedNumeral 16 literal w.val := by
  unfold hexLiteral?
  obtain ⟨negative', rest, hsplit⟩ : ∃ negative' rest, splitMinus t = (negative', rest) := ⟨_, _, rfl⟩
  have ht := splitMinus_eq_iff.1 hsplit
  rw [hsplit]
  simp only [Option.map_eq_some_iff, Option.bind_eq_some_iff, Prod.mk.injEq]
  constructor
  · rintro ⟨_, ⟨literal, hmark, hword⟩, rfl, rfl⟩
    obtain ⟨x, hx, rfl⟩ := afterHexMark?_eq_some_iff.1 hmark
    have hplus' : '+' ∉ literal := fun hmem => hplus (by rw [ht.1]; simp [hmem])
    exact ⟨x, literal, hx, ht.1, (word?_eq_some_iff (by decide) hplus').1 hword⟩
  · rintro ⟨x, literal, hx, rfl, hsigned⟩
    have hplus' : '+' ∉ literal := fun hmem => hplus (by simp [hmem])
    obtain ⟨rfl, rfl⟩ : negative' = negative ∧ rest = '0' :: x :: literal := by
      have hother : splitMinus (minus negative ++ '0' :: x :: literal) =
          (negative, '0' :: x :: literal) := splitMinus_eq_iff.2 (by simp)
      simpa [hsplit] using hother
    exact ⟨w, ⟨literal, afterHexMark?_eq_some_iff.2 ⟨x, hx, rfl⟩,
      (word?_eq_some_iff (by decide) hplus').2 hsigned⟩, rfl, rfl⟩

/-- The literal in sixteens that is read, which is in the range of integers before it is negated. -/
theorem hexLiteral?_eq_some_iff {t : List Char} (hplus : '+' ∉ t) {negative : Bool} {w : Int64Word} :
    hexLiteral? t = some (negative, w) ↔
      ∃ inner n, SpellsHex t negative inner n ∧ w.val = signed inner n := by
  rw [hexLiteral?_eq_some_iff_signedNumeral hplus]
  constructor
  · rintro ⟨x, _, hx, rfl, inner, digits, n, rfl, hn, hw⟩
    exact ⟨inner, n, ⟨x, digits, hx, rfl, hn⟩, hw⟩
  · rintro ⟨inner, n, ⟨x, digits, hx, rfl, hn⟩, hw⟩
    exact ⟨x, _, hx, rfl, inner, digits, n, rfl, hn, hw⟩

/-- What is spelled in tens has no mark. -/
theorem SpellsHex.not_signedNumeral {t : List Char} {negative inner : Bool} {n : Nat}
    (h : SpellsHex t negative inner n) (z : Int) : ¬SignedNumeral 10 t z := by
  obtain ⟨x, digits, hx, rfl, -⟩ := h
  rintro ⟨negative', digits', n', htext, hn, -⟩
  have hmem : x ∈ minus negative' ++ digits' := by
    rw [← htext]
    simp
  rcases List.mem_append.1 hmem with hminus | hdigit
  · cases negative' with
    | false => simp [minus] at hminus
    | true =>
        obtain rfl : x = '-' := by simpa [minus] using hminus
        exact absurd hx (by decide)
  · obtain ⟨values, hall, -⟩ := hn.denotes
    obtain ⟨d, -, hd⟩ := exists_of_forall₂_mem hall hdigit
    have hread := (digit?_eq_some_iff (by decide)).2 hd
    rcases hx with rfl | rfl
    · simp [show digit? 10 'x' = none from by decide] at hread
    · simp [show digit? 10 'X' = none from by decide] at hread

/-! ## What is read -/

theorem plus_notMem_of_isOperandChar {t : List Char} (h : ∀ c ∈ t, isOperandChar c = true) :
    '+' ∉ t :=
  fun hmem => absurd (h '+' hmem) (by decide)

theorem ofNonInteger_ne_integer (t : List Char) (n : Int64Word) : ofNonInteger t ≠ integer n := by
  unfold ofNonInteger
  split
  · simp
  · split
    · simp
    · split <;> simp

/-- A number in sixteens is read as an integer, if it is one before it is negated and after it. -/
theorem ofOperand?_of_spellsHex {t : List Char} (hplus : '+' ∉ t) {negative inner : Bool} {k : Nat}
    (h : SpellsHex t negative inner k) {w : Int64Word} (hw : w.val = signed inner k) :
    ofOperand? t = (Word.ofInt? (signed negative w.val)).map integer := by
  have hread := (hexLiteral?_eq_some_iff hplus).2 ⟨inner, k, h, hw⟩
  rw [ofOperand?, hread]
  cases negative <;> simp [signed]

theorem ofOperand?_of_hexLiteral?_eq_none {t : List Char} (h : hexLiteral? t = none) (n : Int64Word) :
    ofOperand? t = some (integer n) ↔ word? .int64 10 t = some n := by
  rw [ofOperand?, h]
  cases word? .int64 10 t with
  | none => simp [ofNonInteger_ne_integer]
  | some m => simp

theorem hexLiteral?_eq_none_of_signedNumeral {t : List Char} (hplus : '+' ∉ t) {z : Int}
    (h : SignedNumeral 10 t z) : hexLiteral? t = none := by
  cases hhex : hexLiteral? t with
  | none => rfl
  | some found =>
      obtain ⟨inner, k, hspells, -⟩ := (hexLiteral?_eq_some_iff hplus).1 hhex
      exact absurd h (hspells.not_signedNumeral z)

/-- What spells an integer is read as the integer, other than the least one in sixteens. -/
theorem ofOperand?_of_spellsInteger {t : List Char} (hplus : '+' ∉ t) {n : Int64Word}
    (h : SpellsInteger t n.val)
    (hleast : ¬(n.val = WordRange.int64.lo ∧ ∃ k, SpellsHex t true false k)) :
    ofOperand? t = some (.integer n) := by
  have hlo : WordRange.int64.lo = -9223372036854775808 := rfl
  have hhi : WordRange.int64.hi = 9223372036854775807 := rfl
  have hmin := n.lo_le
  have hmax := n.le_hi
  rcases h with hdecimal | ⟨negative, k, hspells, hn⟩
  · rwa [ofOperand?_of_hexLiteral?_eq_none (hexLiteral?_eq_none_of_signedNumeral hplus hdecimal),
      word?_eq_some_iff (by decide) hplus]
  · have hk : (k : Int) ≤ WordRange.int64.hi := by
      cases negative with
      | false => simpa [signed, hn] using hmax
      | true =>
          have hne : n.val ≠ WordRange.int64.lo := fun heq => hleast ⟨heq, k, hspells⟩
          have hneg : n.val = -(k : Int) := hn
          omega
    rw [ofOperand?_of_spellsHex hplus hspells (w := ⟨k, by omega, hk⟩) rfl, ← hn, Word.ofInt?_val]
    rfl

/-- A minus sign behind the mark negates what follows it. -/
theorem ofOperand?_of_spellsHex_minus {t : List Char} (hplus : '+' ∉ t) {n : Int64Word}
    {negative : Bool} {k : Nat} (h : SpellsHex t negative true k)
    (hn : n.val = signed negative (-k)) : ofOperand? t = some (.integer n) := by
  have hlo : WordRange.int64.lo = -9223372036854775808 := rfl
  have hhi : WordRange.int64.hi = 9223372036854775807 := rfl
  have hmin := n.lo_le
  have hmax := n.le_hi
  have hk : WordRange.int64.lo ≤ -(k : Int) := by
    simp only [signed] at hn
    split at hn <;> omega
  rw [ofOperand?_of_spellsHex hplus h (w := ⟨-k, hk, by omega⟩) rfl, ← hn, Word.ofInt?_val]
  rfl

/-- Nothing else is read as an integer. -/
theorem spells_of_ofOperand?_eq_integer {t : List Char} (hplus : '+' ∉ t) {n : Int64Word}
    (h : ofOperand? t = some (.integer n)) :
    (SpellsInteger t n.val ∧ ¬(n.val = WordRange.int64.lo ∧ ∃ k, SpellsHex t true false k)) ∨
      ∃ negative k, SpellsHex t negative true k ∧ n.val = signed negative (-k) := by
  cases hhex : hexLiteral? t with
  | none =>
      rw [ofOperand?_of_hexLiteral?_eq_none hhex, word?_eq_some_iff (by decide) hplus] at h
      exact .inl ⟨.inl h, fun hleast => hleast.2.elim fun k hk => hk.not_signedNumeral _ h⟩
  | some found =>
      obtain ⟨negative, w⟩ := found
      obtain ⟨inner, k, hspells, hw⟩ := (hexLiteral?_eq_some_iff hplus).1 hhex
      rw [ofOperand?_of_spellsHex hplus hspells hw, Option.map_eq_some_iff] at h
      obtain ⟨m, hm, hmn⟩ := h
      obtain rfl := Value.integer.inj hmn
      have hn : m.val = signed negative (signed inner k) := by
        rw [Word.ofInt?_eq_some_iff.1 hm, hw]
      cases inner with
      | true => exact .inr ⟨negative, k, hspells, hn⟩
      | false =>
          refine .inl ⟨.inr ⟨negative, k, hspells, hn⟩, ?_⟩
          -- The number was an integer before it was negated.
          have hlo : WordRange.int64.lo = -9223372036854775808 := rfl
          have hhi : WordRange.int64.hi = 9223372036854775807 := rfl
          have hw' : w.val = k := hw
          have hle := w.le_hi
          rintro ⟨hleast, -⟩
          simp only [signed] at hn
          split at hn <;> omega

/-- Which operands are read as which integers: those that spell them, other than the least one in
sixteens; and those in sixteens that have another minus sign behind the mark, which negates what follows
it. -/
theorem ofOperand?_eq_integer_iff {t : List Char} (h : ∀ c ∈ t, isOperandChar c = true)
    (n : Int64Word) :
    ofOperand? t = some (.integer n) ↔
      (SpellsInteger t n.val ∧ ¬(n.val = WordRange.int64.lo ∧ ∃ k, SpellsHex t true false k)) ∨
        ∃ negative k, SpellsHex t negative true k ∧ n.val = signed negative (-k) := by
  have hplus := plus_notMem_of_isOperandChar h
  constructor
  · exact spells_of_ofOperand?_eq_integer hplus
  · rintro (⟨hspells, hleast⟩ | ⟨negative, k, hspells, hn⟩)
    · exact ofOperand?_of_spellsInteger hplus hspells hleast
    · exact ofOperand?_of_spellsHex_minus hplus hspells hn

/-- Minus five. -/
def minusFive : Int64Word := ⟨-5, by decide, by decide⟩

theorem spellsHex_minusFive : SpellsHex ['0', 'x', '-', '5'] false true 5 :=
  ⟨'x', ['5'], .inl rfl, rfl, by decide, [5], .cons (by decide) .nil, rfl⟩

theorem isOperandChar_minusFive : ∀ c ∈ ['0', 'x', '-', '5'], isOperandChar c = true :=
  List.all_eq_true.1 rfl

/-- A minus sign between the mark and the digits makes an integer. -/
theorem ofOperand?_minusFive :
    (∀ c ∈ ['0', 'x', '-', '5'], isOperandChar c = true) ∧
      ofOperand? ['0', 'x', '-', '5'] = some (.integer minusFive) :=
  ⟨isOperandChar_minusFive, (ofOperand?_eq_integer_iff isOperandChar_minusFive minusFive).2
    (.inr ⟨false, 5, spellsHex_minusFive, rfl⟩)⟩

/-- So not only what spells an integer is read as one. -/
theorem not_ofOperand?_eq_integer_iff :
    ¬∀ (t : List Char) (n : Int64Word), (∀ c ∈ t, isOperandChar c = true) →
      (ofOperand? t = some (.integer n) ↔ SpellsInteger t n.val) := by
  intro h
  have hread : ofOperand? ['0', 'x', '-', '5'] = some (.integer minusFive) := rfl
  rcases (h _ minusFive isOperandChar_minusFive).1 hread with htens | ⟨negative, n, ⟨x, digits, -, htext, hn⟩, -⟩
  · exact spellsHex_minusFive.not_signedNumeral _ htens
  · cases negative with
    | true => simp [minus] at htext
    | false =>
        obtain ⟨-, rfl⟩ : 'x' = x ∧ ['-', '5'] = digits := by simpa [minus] using htext
        exact hn.ne_cons_minus (by decide) rfl

/-! ## Negated literals -/

/-- The least integer. -/
def least : Int64Word := ⟨WordRange.int64.lo, Int.le_refl _, by decide⟩

/-- The least integer is negated when it is spelled with a minus sign of its own. -/
theorem hexLiteral?_eq_least_iff {t : List Char} (hplus : '+' ∉ t) :
    hexLiteral? t = some (true, least) ↔ SpellsHex t true true 9223372036854775808 := by
  have hlo : WordRange.int64.lo = -9223372036854775808 := rfl
  rw [hexLiteral?_eq_some_iff hplus]
  constructor
  · rintro ⟨inner, k, hspells, hk⟩
    have hk' : WordRange.int64.lo = signed inner k := hk
    cases inner with
    | false =>
        have : WordRange.int64.lo = k := hk'
        omega
    | true =>
        have hneg : WordRange.int64.lo = -(k : Int) := hk'
        obtain rfl : k = 9223372036854775808 := by omega
        exact hspells
  · exact fun h => ⟨true, _, h, rfl⟩

/-- Of all integers, the least one alone has no negative. -/
theorem neg_in_range_iff (n : Int64Word) :
    (WordRange.int64.lo ≤ -n.val ∧ -n.val ≤ WordRange.int64.hi) ↔ n ≠ least := by
  have hlo : WordRange.int64.lo = -9223372036854775808 := rfl
  have hhi : WordRange.int64.hi = 9223372036854775807 := rfl
  have hmin := n.lo_le
  have hmax := n.le_hi
  have hleast : n = least ↔ n.val = WordRange.int64.lo := ⟨fun h => h ▸ rfl, fun h => Word.ext h⟩
  rw [Ne, hleast]
  omega

/-- An operand has no value exactly when it negates the least integer. -/
theorem ofOperand?_eq_none_iff (t : List Char) :
    ofOperand? t = none ↔ hexLiteral? t = some (true, least) := by
  unfold ofOperand?
  split
  · rename_i n hhex
    rw [hhex, Option.map_eq_none_iff, Word.ofInt?_eq_none_iff]
    have hneg := neg_in_range_iff n
    simp only [Option.some.injEq, Prod.mk.injEq, true_and]
    constructor
    · intro hout
      by_contra hne
      have hin := hneg.2 hne
      omega
    · rintro rfl
      by_contra hin
      exact hneg.1 (by omega) rfl
  · rename_i n hhex
    simp [hhex]
  · rename_i hhex
    rw [hhex]
    split <;> simp

/-- Reading an operand of a program negates an integer that has no negative, and has no answer, exactly
when the operand is the least integer in sixteens with a minus sign of its own, behind another minus
sign. -/
theorem negation_in_range_iff {t : List Char} (h : Program.IsToken t) :
    ((∀ n : Int64Word, hexLiteral? t = some (true, n) →
        WordRange.int64.lo ≤ -n.val ∧ -n.val ≤ WordRange.int64.hi) ↔
      ¬SpellsHex t true true 9223372036854775808) ∧
    (ofOperand? t = none ↔ SpellsHex t true true 9223372036854775808) := by
  have hplus := plus_notMem_of_isOperandChar (Program.isToken_iff.1 h).2
  rw [ofOperand?_eq_none_iff, ← hexLiteral?_eq_least_iff hplus]
  refine ⟨?_, Iff.rfl⟩
  constructor
  · intro hall hleast
    exact (neg_in_range_iff least).1 (hall least hleast) rfl
  · intro hnot n hn
    rw [neg_in_range_iff]
    rintro rfl
    exact hnot hn

/-- The negative of the least integer, as an operand. -/
def negatedLeast : List Char :=
  ['-', '0', 'x', '-', '8', '0', '0', '0', '0', '0', '0', '0', '0', '0', '0', '0', '0', '0', '0', '0']

theorem isToken_negatedLeast : Program.IsToken negatedLeast :=
  Program.isToken_iff.2 ⟨List.cons_ne_nil _ _, List.all_eq_true.1 rfl⟩

/-- It has no value. -/
theorem ofOperand?_negatedLeast :
    Program.IsToken negatedLeast ∧ ofOperand? negatedLeast = none := by
  have hn : Numeral 16 (negatedLeast.drop 4) 9223372036854775808 :=
    (natural?_eq_some_iff (by decide)).1 rfl
  exact ⟨isToken_negatedLeast, (negation_in_range_iff isToken_negatedLeast).2.2
    ⟨'x', _, .inl rfl, rfl, hn⟩⟩

/-- So not every integer that is negated has a negative. -/
theorem not_negation_in_range :
    ¬∀ (t : List Char) (n : Int64Word), Program.IsToken t → hexLiteral? t = some (true, n) →
      WordRange.int64.lo ≤ -n.val ∧ -n.val ≤ WordRange.int64.hi := by
  intro h
  exact (neg_in_range_iff least).1 (h negatedLeast least isToken_negatedLeast rfl) rfl

end Value

end Mnemonic
