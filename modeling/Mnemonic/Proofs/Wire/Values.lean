import Mnemonic.Proofs.Wire.Scalars
import Mnemonic.Value.Binary

set_option autoImplicit false

/-!
# Values as bytes

A value is written as the number of its type and its content, so it is told from the front of the bytes
which codec reads what follows. The bytes of a value are read back as the value, whatever follows them;
cut off somewhere they are not read as anything; and so the bytes of one value never start those of
another.

A string is at most as long as its length can be said in 64 bits. A string that is read from bytes is no
longer.

Main statements: `canonical_codec` and `uniquely_decodable`.
-/

namespace Mnemonic.Value

open Wire Decoder

/-- The length of a string has 64 bits. -/
def Within64 : Value → Prop
  | string s => LengthWithin64 s
  | _ => True

/-- The values of a type are written as the number of the type and then by a codec of their content. -/
structure WrittenBy {α : Type} (tag : Nat) (c : Codec α) (wrap : α → Value) : Prop where
  encode : ∀ a, codec.encode (wrap a) = tag32.encode tag ++ c.encode a
  decode : decodeContent tag = c.decode.andThen fun a => always (wrap a)

theorem writtenBy_integer : WrittenBy 0 int64 integer := ⟨fun _ => rfl, rfl⟩

theorem writtenBy_float : WrittenBy 1 word64 fun w => float ⟨w⟩ := ⟨fun _ => rfl, rfl⟩

theorem writtenBy_string : WrittenBy 2 Wire.string string := ⟨fun _ => rfl, rfl⟩

theorem writtenBy_bool : WrittenBy 3 Wire.bool bool := ⟨fun _ => rfl, rfl⟩

/-- The number of the type settles how the content is read. -/
theorem decode_codec : codec.decode = tag32.decode.andThen decodeContent := by
  funext bs
  cases htag : tag32.decode bs with
  | error e =>
      rw [andThen_of_error htag]
      simp only [codec, htag]
  | ok found =>
      rw [andThen_of_ok htag]
      simp only [codec, htag]

namespace WrittenBy

variable {α : Type} {tag : Nat} {c : Codec α} {wrap : α → Value} {valid : α → Prop}

theorem decode_encode (h : WrittenBy tag c wrap) (hc : c.Canonical valid) (htag : tag < 4294967296)
    {a : α} (ha : valid a) (more : Bytes) :
    codec.decode (codec.encode (wrap a) ++ more) = .ok (wrap a, more) := by
  rw [h.encode, List.append_assoc, decode_codec,
    andThen_of_ok (canonical_tag32.decode_encode htag (c.encode a ++ more)), h.decode,
    andThen_of_ok (hc.decode_encode ha more)]
  rfl

theorem of_decode (h : WrittenBy tag c wrap) (hc : c.Canonical valid) {bs between rest : Bytes}
    {v : Value} (htag : tag32.decode bs = .ok (tag, between))
    (hcontent : decodeContent tag between = .ok (v, rest)) :
    ∃ a, v = wrap a ∧ valid a ∧
      ∃ taken, bs = taken ++ rest ∧ TakesAtLeast taken (codec.encode (wrap a)) := by
  rw [h.decode] at hcontent
  obtain ⟨a, rest', hread, hwrap⟩ := andThen_eq_ok hcontent
  obtain ⟨rfl, rfl⟩ := Prod.mk.inj (Except.ok.inj hwrap)
  obtain ⟨-, front, rfl, hfront⟩ := canonical_tag32.of_decode htag
  obtain ⟨ha, taken, rfl, htaken⟩ := hc.of_decode hread
  refine ⟨a, rfl, ha, front ++ taken, (List.append_assoc _ _ _).symm, ?_⟩
  rw [h.encode]
  exact hfront.append htaken

theorem steady (h : WrittenBy tag c wrap) (hc : Steady c.decode) : Steady (decodeContent tag) := by
  rw [h.decode]
  exact hc.andThen fun a => .always (wrap a)

end WrittenBy

/-- Values are written as short as they can be. -/
theorem canonical_codec : codec.Canonical Within64 where
  decode_encode {v} hv more := by
    cases v with
    | integer n => exact writtenBy_integer.decode_encode canonical_int64 (by decide) trivial more
    | float x => exact writtenBy_float.decode_encode canonical_word64 (by decide) trivial more
    | string s => exact writtenBy_string.decode_encode canonical_string (by decide) hv more
    | bool b => exact writtenBy_bool.decode_encode canonical_bool (by decide) trivial more
  of_decode {bs rest v} h := by
    rw [decode_codec] at h
    obtain ⟨tag, between, htag, hcontent⟩ := andThen_eq_ok h
    match tag with
    | 0 =>
        obtain ⟨n, rfl, -, htaken⟩ := writtenBy_integer.of_decode canonical_int64 htag hcontent
        exact ⟨trivial, htaken⟩
    | 1 =>
        obtain ⟨w, rfl, -, htaken⟩ := writtenBy_float.of_decode canonical_word64 htag hcontent
        exact ⟨trivial, htaken⟩
    | 2 =>
        obtain ⟨s, rfl, hs, htaken⟩ := writtenBy_string.of_decode canonical_string htag hcontent
        exact ⟨hs, htaken⟩
    | 3 =>
        obtain ⟨b, rfl, -, htaken⟩ := writtenBy_bool.of_decode canonical_bool htag hcontent
        exact ⟨trivial, htaken⟩
    | n + 4 => simp [decodeContent] at hcontent

theorem steady_codec : Steady codec.decode := by
  rw [decode_codec]
  apply Steady.tag32.andThen
  intro tag
  match tag with
  | 0 => exact writtenBy_integer.steady .int64
  | 1 => exact writtenBy_float.steady .word64
  | 2 => exact writtenBy_string.steady .string
  | 3 => exact writtenBy_bool.steady .bool
  | n + 4 => exact .never _

/-- The bytes of a value are read back as the value, and what follows them is left. When they are cut off
before their end, all that is wrong with them is that they end. So the bytes of another value are not
these bytes, and these do not start with them. -/
theorem uniquely_decodable (v : Value) (h : v.Within64) :
    (∀ more, codec.decode (codec.encode v ++ more) = .ok (v, more)) ∧
      (∀ bs, bs <+: codec.encode v → bs ≠ codec.encode v →
        codec.decode bs = .error .unexpectedEnd) ∧
      ∀ w : Value, w.Within64 → w ≠ v → ¬codec.encode w <+: codec.encode v := by
  have hread := canonical_codec.decode_encode h
  refine ⟨hread, ?_, ?_⟩
  · intro bs hcut hne
    have hwhole := hread []
    rw [List.append_nil] at hwhole
    exact steady_codec.decode_of_cutOff hwhole hcut hne
  · rintro w hw hne ⟨more, hmore⟩
    have hother := canonical_codec.decode_encode hw more
    have hsame := hread []
    rw [List.append_nil, ← hmore, hother] at hsame
    exact hne (Prod.mk.inj (Except.ok.inj hsame)).1

/-- The least integer takes ten bytes behind its type; a string of two bytes that are one character is
cut inside of the character. -/
theorem uniquely_decodable_least :
    codec.encode (integer (.ofIntOrZero (-9223372036854775808))) =
        0x00 :: List.replicate 9 0xff ++ [0x01] ∧
      codec.decode (0x00 :: List.replicate 9 0xff ++ [0x01] ++ [0x2a]) =
        .ok (integer (.ofIntOrZero (-9223372036854775808)), [0x2a]) ∧
      (string "é").Within64 ∧ codec.decode [0x02, 0x02, 0xc3] = .error .unexpectedEnd ∧
      ¬codec.encode (bool true) <+: codec.encode (string "é") := by
  have hleast : codec.encode (integer (.ofIntOrZero (-9223372036854775808))) =
      0x00 :: List.replicate 9 0xff ++ [0x01] := by
    decide +kernel
  have hstring : (string "é").Within64 := by
    change (utf8Bytes "é").length < bound64
    decide +kernel
  have hbytes : codec.encode (string "é") = [0x02, 0x02, 0xc3, 0xa9] := by
    decide +kernel
  obtain ⟨-, hcut, hother⟩ := uniquely_decodable (string "é") hstring
  refine ⟨hleast, ?_, hstring, hcut [0x02, 0x02, 0xc3] ?_ ?_, hother (bool true) trivial (by simp)⟩
  · have hread := (uniquely_decodable (integer (.ofIntOrZero (-9223372036854775808))) trivial).1 [0x2a]
    rwa [hleast] at hread
  · rw [hbytes]
    exact ⟨[0xa9], rfl⟩
  · rw [hbytes]
    decide

end Mnemonic.Value
