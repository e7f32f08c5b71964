import Mathlib.Data.List.Forall2
import Mathlib.Data.Nat.Digits.Defs
import Mnemonic.Number.Literal

set_option autoImplicit false

/-!
# Numerals

A numeral is one or more digits of a radix, and it denotes the number that they make in the positional
system. Letters go on behind the nine as digits, in either case. An integer is a numeral behind an
optional minus sign.

Main statements: reading digits finds the number that a numeral denotes, and nothing where there is no
numeral (`natural?_eq_some_iff`); the same of a word behind an optional minus sign
(`word?_eq_some_iff`); and the decimal of a number denotes it (`numeral_toDigits`), so that it is read
as the number if that is a word (`word?_toDigits`).
-/

namespace Mnemonic.Literal

/-! ## Digits -/

/-- The digits of the largest radix that is used, in the order of their values. -/
def digitSymbols : List Char :=
  ['0', '1', '2', '3', '4', '5', '6', '7', '8', '9', 'a', 'b', 'c', 'd', 'e', 'f']

/-- The character is a digit of the radix, and this is its value. Case does not matter. -/
structure IsDigit (radix : Nat) (c : Char) (value : Nat) : Prop where
  symbol : digitSymbols[value]? = some c.toLower
  lt_radix : value < radix

instance IsDigit.instDecidable (radix : Nat) (c : Char) (value : Nat) :
    Decidable (IsDigit radix c value) :=
  decidable_of_iff (digitSymbols[value]? = some c.toLower ∧ value < radix)
    ⟨fun h => ⟨h.1, h.2⟩, fun h => ⟨h.symbol, h.lt_radix⟩⟩

theorem digit?_eq_filter {radix : Nat} (hradix : radix ≤ 16) (c : Char) :
    digit? radix c = (digit? 16 c).filter (· < radix) := by
  unfold digit?
  dsimp only
  rw [Option.filter_filter]
  congr 1
  funext d
  by_cases hd : d < radix
  · simp [hd, Nat.lt_of_lt_of_le hd hradix]
  · simp [hd]

theorem digit?_of_large {radix : Nat} {c : Char} (hc : 128 ≤ c.toNat) : digit? radix c = none := by
  have hnot : ∀ d : Char, d.toNat < 128 → ¬c ≤ d := by
    intro d hd hle
    have hle' : c.toNat ≤ d.toNat := hle
    omega
  simp [digit?, hnot '9' (by decide), hnot 'z' (by decide), hnot 'Z' (by decide)]

theorem not_isDigit_of_large {radix : Nat} {c : Char} (hc : 128 ≤ c.toNat) (d : Nat) :
    ¬IsDigit radix c d := by
  rintro ⟨hsymbol, -⟩
  have hlower : c.toLower = c := by
    have hZ : ¬c.val ≤ 'Z'.val := by
      intro hle
      have hle' : c.toNat ≤ 90 := hle
      omega
    exact dif_neg fun h => hZ h.2
  have hsmall : (digitSymbols.all fun s => decide (s.toNat < 128)) = true := rfl
  have hlt := of_decide_eq_true (List.all_eq_true.1 hsmall _ (List.mem_of_getElem? hsymbol))
  rw [hlower] at hlt
  omega

/-- Reading a digit finds its value. -/
theorem digit?_eq_some_iff {radix : Nat} (hradix : radix ≤ 16) {c : Char} {d : Nat} :
    digit? radix c = some d ↔ IsDigit radix c d := by
  by_cases hc : 128 ≤ c.toNat
  · simp [digit?_of_large hc, not_isDigit_of_large hc]
  -- The other characters are few enough to look at each of them.
  have htable : ∀ n < 128, ∀ d < 16,
      digit? 16 (Char.ofNat n) = some d ↔ digitSymbols[d]? = some (Char.ofNat n).toLower := by
    decide +kernel
  have hrow := htable c.toNat (by omega)
  rw [Char.ofNat_toNat] at hrow
  rw [digit?_eq_filter hradix, Option.filter_eq_some_iff]
  constructor
  · rintro ⟨hd, hlt⟩
    have hlt' : d < radix := by simpa using hlt
    exact ⟨(hrow d (by omega)).1 hd, hlt'⟩
  · rintro ⟨hsymbol, hlt⟩
    exact ⟨(hrow d (by omega)).2 hsymbol, by simpa using hlt⟩

/-! ## Natural numbers -/

/-- The text is a numeral of the radix and denotes the number. -/
structure Numeral (radix : Nat) (text : List Char) (n : Nat) : Prop where
  ne_nil : text ≠ []
  denotes : ∃ values, List.Forall₂ (IsDigit radix) text values ∧ Nat.ofDigits radix values.reverse = n

/-- Digits that are read behind others move these to the left. -/
theorem naturalFrom_eq_some_iff {radix : Nat} (hradix : radix ≤ 16) {start n : Nat} {cs : List Char} :
    naturalFrom radix start cs = some n ↔ ∃ values, List.Forall₂ (IsDigit radix) cs values ∧
      start * radix ^ cs.length + Nat.ofDigits radix values.reverse = n := by
  induction cs generalizing start with
  | nil => simp [naturalFrom]
  | cons c cs ih =>
      have hvalue : ∀ (d : Nat) (values : List Nat), List.Forall₂ (IsDigit radix) cs values →
          start * radix ^ (c :: cs).length + Nat.ofDigits radix (d :: values).reverse =
            (start * radix + d) * radix ^ cs.length + Nat.ofDigits radix values.reverse := by
        intro d values hall
        rw [List.reverse_cons, Nat.ofDigits_append, Nat.ofDigits_singleton, List.length_reverse,
          ← hall.length_eq, List.length_cons, Nat.pow_succ]
        ring
      simp only [naturalFrom]
      cases hd : digit? radix c with
      | none =>
          have hnot : ∀ d, ¬IsDigit radix c d := by
            intro d hdigit
            rw [(digit?_eq_some_iff hradix).2 hdigit] at hd
            simp at hd
          simp [List.forall₂_cons_left_iff, hnot]
      | some d =>
          have hdigit := (digit?_eq_some_iff hradix).1 hd
          rw [ih]
          constructor
          · rintro ⟨values, hall, rfl⟩
            exact ⟨d :: values, .cons hdigit hall, hvalue d values hall⟩
          · rintro ⟨_, hall, rfl⟩
            obtain ⟨d', values, hdigit', hlater, rfl⟩ := List.forall₂_cons_left_iff.1 hall
            obtain rfl : d = d' :=
              Option.some.inj (hd.symm.trans ((digit?_eq_some_iff hradix).2 hdigit'))
            exact ⟨values, hlater, (hvalue d values hlater).symm⟩

/-- Reading digits finds the number that a numeral denotes, and nothing else. -/
theorem natural?_eq_some_iff {radix : Nat} (hradix : radix ≤ 16) {cs : List Char} {n : Nat} :
    natural? radix cs = some n ↔ Numeral radix cs n := by
  unfold natural?
  cases cs with
  | nil => simp [show ¬Numeral radix [] n from fun h => h.ne_nil rfl]
  | cons c cs =>
      rw [List.isEmpty_cons, if_neg Bool.false_ne_true, naturalFrom_eq_some_iff hradix]
      simp only [Nat.zero_mul, Nat.zero_add]
      exact ⟨fun h => ⟨List.cons_ne_nil c cs, h⟩, fun h => h.denotes⟩

theorem digit?_digitChar {d : Nat} (hd : d < 10) : digit? 10 d.digitChar = some d := by
  have hall : ∀ d < 10, digit? 10 d.digitChar = some d := by decide
  exact hall d hd

theorem naturalFrom_toDigits (n : Nat) : naturalFrom 10 0 (Nat.toDigits 10 n) = some n := by
  induction n using Nat.strongRecOn with
  | ind n ih =>
      by_cases hn : n < 10
      · rw [Nat.toDigits_of_lt_base hn, naturalFrom, digit?_digitChar hn]
        simp [naturalFrom]
      · rw [Nat.toDigits_of_base_le (by decide) (by omega), naturalFrom_append,
          ih (n / 10) (by omega), Option.bind_some, naturalFrom,
          digit?_digitChar (Nat.mod_lt n (by decide))]
        simp only [naturalFrom, Option.some.injEq]
        omega

/-- The decimal of a number denotes it. -/
theorem numeral_toDigits (n : Nat) : Numeral 10 (Nat.toDigits 10 n) n := by
  refine (natural?_eq_some_iff (by decide)).1 ?_
  have hne : (Nat.toDigits 10 n).isEmpty = false := by
    simp [Nat.toDigits_ne_nil]
  rw [natural?, hne, if_neg Bool.false_ne_true, naturalFrom_toDigits]

theorem toList_toString (n : Nat) : (toString n).toList = Nat.toDigits 10 n := by
  rw [Nat.toString_eq_repr, Nat.repr_eq_ofList_toDigits, String.toList_ofList]

theorem Numeral.ne_cons_minus {radix : Nat} (hradix : radix ≤ 16) {text rest : List Char} {n : Nat}
    (h : Numeral radix text n) : text ≠ '-' :: rest := by
  rintro rfl
  have hread := (natural?_eq_some_iff hradix).2 h
  simp [natural?, naturalFrom, show digit? radix '-' = none from by simp [digit?]] at hread

/-! ## Integers -/

/-- A minus sign, or nothing. -/
def minus : Bool → List Char
  | true => ['-']
  | false => []

/-- The integer with the sign. -/
def signed (negative : Bool) (z : Int) : Int := if negative then -z else z

/-- The text is a numeral behind an optional minus sign and denotes the integer. -/
def SignedNumeral (radix : Nat) (text : List Char) (z : Int) : Prop :=
  ∃ negative digits n, text = minus negative ++ digits ∧ Numeral radix digits n ∧ z = signed negative n

theorem signedNumeral_cons_minus {radix : Nat} (hradix : radix ≤ 16) {cs : List Char} {z : Int} :
    SignedNumeral radix ('-' :: cs) z ↔ ∃ n, Numeral radix cs n ∧ -(n : Int) = z := by
  constructor
  · rintro ⟨negative, digits, n, htext, hn, rfl⟩
    cases negative with
    | false => exact absurd htext.symm (hn.ne_cons_minus hradix)
    | true =>
        obtain rfl : cs = digits := by simpa [minus] using htext
        exact ⟨n, hn, rfl⟩
  · rintro ⟨n, hn, rfl⟩
    exact ⟨true, cs, n, rfl, hn, rfl⟩

theorem signedNumeral_of_ne_minus {radix : Nat} {cs : List Char} (hcs : ∀ rest, cs ≠ '-' :: rest)
    {z : Int} : SignedNumeral radix cs z ↔ ∃ n, Numeral radix cs n ∧ (n : Int) = z := by
  constructor
  · rintro ⟨negative, digits, n, rfl, hn, rfl⟩
    cases negative with
    | false => exact ⟨n, hn, rfl⟩
    | true => exact absurd rfl (hcs digits)
  · rintro ⟨n, hn, rfl⟩
    exact ⟨false, cs, n, rfl, hn, rfl⟩

/-- An integer is written as the decimal of its absolute value, with a minus sign in front of a negative
one. -/
theorem exists_toList_toString (z : Int) :
    ∃ negative n, (toString z).toList = minus negative ++ Nat.toDigits 10 n ∧ z = signed negative n := by
  cases z with
  | ofNat n => exact ⟨false, n, toList_toString n, rfl⟩
  | negSucc n =>
      refine ⟨true, n + 1, ?_, rfl⟩
      rw [← toList_toString]
      exact String.toList_append

/-- What is written for an integer denotes it. -/
theorem signedNumeral_toString (z : Int) : SignedNumeral 10 (toString z).toList z := by
  obtain ⟨negative, n, htext, hz⟩ := exists_toList_toString z
  exact ⟨negative, _, n, htext, numeral_toDigits n, hz⟩

theorem plus_notMem_toDigits (n : Nat) : '+' ∉ Nat.toDigits 10 n := fun hmem =>
  absurd (Nat.isDigit_of_mem_toDigits (by decide) (by decide) hmem) (by decide)

theorem plus_notMem_toString (z : Int) : '+' ∉ (toString z).toList := by
  obtain ⟨negative, n, htext, -⟩ := exists_toList_toString z
  have hminus : '+' ∉ minus negative := by
    cases negative <;> decide
  rw [htext, List.mem_append, not_or]
  exact ⟨hminus, plus_notMem_toDigits n⟩

/-- Where no plus sign stands, reading finds the integer that a numeral behind an optional minus sign
denotes. -/
theorem integer?_eq_some_iff {radix : Nat} (hradix : radix ≤ 16) {cs : List Char} (hplus : '+' ∉ cs)
    {z : Int} : integer? true radix cs = some z ↔ SignedNumeral radix cs z := by
  unfold integer?
  split
  · simp at hplus
  · rw [signedNumeral_cons_minus hradix]
    simp [natural?_eq_some_iff hradix]
  · rename_i hminus
    rw [signedNumeral_of_ne_minus hminus]
    simp [natural?_eq_some_iff hradix]

/-- The word that is read is in its range. -/
theorem word?_eq_some_iff {radix : Nat} (hradix : radix ≤ 16) {cs : List Char} (hplus : '+' ∉ cs)
    {w : Int64Word} : word? .int64 radix cs = some w ↔ SignedNumeral radix cs w.val := by
  have hsigned : WordRange.int64.isSigned = true := rfl
  rw [word?, hsigned, Option.bind_eq_some_iff, ← integer?_eq_some_iff hradix hplus]
  constructor
  · rintro ⟨z, hz, hw⟩
    rwa [Word.ofInt?_eq_some_iff.1 hw]
  · exact fun h => ⟨w.val, h, Word.ofInt?_val w⟩

/-! ## Natural numbers as words -/

theorem val_natWord {n : Nat} (hn : (n : Int) ≤ WordRange.int64.hi) :
    (Word.ofIntOrZero n : Int64Word).val = n := by
  have hlo : WordRange.int64.lo ≤ 0 := WordRange.int64.lo_nonpos
  have hword : (Word.ofIntOrZero n : Int64Word) = ⟨n, by omega, hn⟩ :=
    Word.ofIntOrZero_val ⟨n, by omega, hn⟩
  rw [hword]

/-- The decimal of a natural number that is a word is read as this word. -/
theorem word?_toDigits {n : Nat} (hn : (n : Int) ≤ WordRange.int64.hi) :
    word? .int64 10 (Nat.toDigits 10 n) = some (.ofIntOrZero n) := by
  rw [word?_eq_some_iff (by decide) (plus_notMem_toDigits n), val_natWord hn]
  exact ⟨false, _, n, rfl, numeral_toDigits n, rfl⟩

end Mnemonic.Literal
