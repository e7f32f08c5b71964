import Mnemonic.Proofs.Numbers.IntegerOperands

set_option autoImplicit false

/-!
# Reading the text of a value

The text of a value does not tell how the value was spelled: an integer that was read in sixteens, or
behind a plus sign, is written in tens. Where the value is no floating-point number this does no harm,
since its text is an operand that has the value again. For an integer this is so because its decimal, the
one of the least integer too, has no mark of sixteens; any other value has the operand itself as its text.
A floating-point number may lose its type, as a whole one has the text of an integer.

Main statement: `ofOperand?_text`.
-/

namespace Mnemonic.Value

open Literal

theorem toList_text_integer (n : Int64Word) : (integer n).text.toList = (toString n.val).toList := rfl

/-- The text of an integer is an operand that has the integer as its value. -/
theorem ofOperand?_text_integer (n : Int64Word) :
    ofOperand? (integer n).text.toList = some (integer n) := by
  have hspells : SignedNumeral 10 (toString n.val).toList n.val := signedNumeral_toString n.val
  have hplus := plus_notMem_toString n.val
  have hhex := hexLiteral?_eq_none_of_signedNumeral hplus hspells
  rw [toList_text_integer, ofOperand?_of_hexLiteral?_eq_none hhex, word?_eq_some_iff (by decide) hplus]
  exact hspells

/-- A value that is no number has the operand that it was read from as its text. -/
theorem toList_text_ofNonInteger {t : List Char} (h : ∀ x, ofNonInteger t ≠ float x) :
    (ofNonInteger t).text.toList = t := by
  unfold ofNonInteger at h ⊢
  split
  · rename_i x hx
    exact absurd (by rw [hx]) (h x)
  · split
    · rename_i htrue
      exact htrue.symm
    · split
      · rename_i hfalse
        exact hfalse.symm
      · exact String.toList_ofList

/-- A value that is read is an integer, or it is what there is when no integer is read. -/
theorem eq_integer_or_ofNonInteger {t : List Char} {v : Value} (h : ofOperand? t = some v) :
    (∃ n, v = integer n) ∨ v = ofNonInteger t := by
  unfold ofOperand? at h
  split at h
  · obtain ⟨n, -, rfl⟩ := Option.map_eq_some_iff.1 h
    exact .inl ⟨n, rfl⟩
  · rename_i n _
    exact .inl ⟨n, (Option.some.inj h).symm⟩
  · split at h
    · rename_i n _
      exact .inl ⟨n, (Option.some.inj h).symm⟩
    · exact .inr (Option.some.inj h).symm

/-- The text of an integer has the integer as its value. Every operand has a value, other than those that
negate the least integer; and if the value is no floating-point number, its text has the value again. -/
theorem ofOperand?_text :
    (∀ n : Int64Word, ofOperand? (integer n).text.toList = some (integer n)) ∧
      ∀ t, (ofOperand? t = none ↔ hexLiteral? t = some (true, least)) ∧
        ∀ v, ofOperand? t = some v → (∀ x, v ≠ float x) → ofOperand? v.text.toList = some v := by
  refine ⟨ofOperand?_text_integer, fun t => ⟨ofOperand?_eq_none_iff t, ?_⟩⟩
  intro v hv hfloat
  rcases eq_integer_or_ofNonInteger hv with ⟨n, rfl⟩ | rfl
  · exact ofOperand?_text_integer n
  · rwa [toList_text_ofNonInteger hfloat]

/-- The least integer, seventeen in sixteens with both minus signs, and an operand that only starts like a
number in sixteens. -/
theorem ofOperand?_text_least :
    (integer least).text = "-9223372036854775808" ∧
      ofOperand? "-9223372036854775808".toList = some (integer least) ∧
      ofOperand? "-0X-0011".toList = some (integer (.ofIntOrZero 17)) ∧
      ofOperand? (integer (.ofIntOrZero 17)).text.toList = some (integer (.ofIntOrZero 17)) ∧
      ofOperand? "0xZZ".toList = some (string "0xZZ") ∧
      ofOperand? (string "0xZZ").text.toList = some (string "0xZZ") := by
  have hleast : (integer least).text = "-9223372036854775808" := rfl
  have hseventeen : ofOperand? "-0X-0011".toList = some (integer (.ofIntOrZero 17)) := by
    cbv
  have hstring : ofOperand? "0xZZ".toList = some (string "0xZZ") := by
    cbv
  refine ⟨hleast, ?_, hseventeen, ?_, hstring, ?_⟩
  · rw [← hleast]
    exact ofOperand?_text.1 least
  · exact (ofOperand?_text.2 _).2 _ hseventeen (by simp)
  · exact (ofOperand?_text.2 _).2 _ hstring (by simp)

end Mnemonic.Value
