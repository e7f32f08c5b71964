import Mnemonic.Proofs.Wire.Canonical

set_option autoImplicit false

/-!
# Scalars as bytes

The codecs of signed numbers, truth values, words of fixed length and strings are steady and canonical,
as those of natural numbers are. Signed numbers are folded onto the naturals one to one; a word of
64 bits is its octets, lowest first; and the bytes of a string are read as the string again, since a
string is nothing but its UTF-8 form.

Main statements: `canonical_tag32`, `canonical_int64`, `canonical_bool`, `canonical_word64` and
`canonical_string`, and that their decoders are steady.
-/

namespace Mnemonic.Wire

open Decoder

/-! ## Tags -/

/-- The tags of alternatives have 32 bits. -/
theorem canonical_tag32 : tag32.Canonical (· < 4294967296) := canonical_varint (by decide)

theorem Decoder.Steady.tag32 : Steady tag32.decode := Steady.decodeVarint _ _

/-! ## Signed numbers -/

theorem unzigzag_zigzag (n : Int) : unzigzag (zigzag n) = n := by
  unfold unzigzag zigzag
  by_cases hn : 0 ≤ n
  · rw [if_pos hn, if_pos (by omega)]
    omega
  · rw [if_neg hn, if_neg (by omega)]
    omega

theorem zigzag_unzigzag (n : Nat) : zigzag (unzigzag n) = n := by
  unfold unzigzag
  by_cases hn : n % 2 = 0
  · rw [if_pos hn, zigzag, if_pos (by omega)]
    omega
  · rw [if_neg hn, zigzag, if_neg (by omega)]
    omega

/-- The fold of a signed number of 64 bits has 64 bits. -/
theorem zigzag_lt_bound64 (w : Int64Word) : zigzag w.val < bound64 := by
  have hlo : WordRange.int64.lo = -9223372036854775808 := rfl
  have hhi : WordRange.int64.hi = 9223372036854775807 := rfl
  have hmin := w.lo_le
  have hmax := w.le_hi
  unfold zigzag bound64
  split <;> omega

theorem decode_int64 :
    int64.decode = nat64.decode.andThen fun n =>
      match Word.ofInt? (unzigzag n) with
      | none => never .badVarint
      | some w => always w := by
  funext bs
  cases hnat : nat64.decode bs with
  | error e =>
      rw [andThen_of_error hnat]
      simp only [int64, hnat]
  | ok found =>
      rw [andThen_of_ok hnat]
      simp only [int64, hnat]
      cases (Word.ofInt? (unzigzag found.1) : Option Int64Word) <;> rfl

/-- Every signed number of 64 bits is written as short as it can be. -/
theorem canonical_int64 : int64.Canonical fun _ => True where
  decode_encode {w} _ more := by
    have hread : nat64.decode (int64.encode w ++ more) = .ok (zigzag w.val, more) :=
      canonical_nat64.decode_encode (zigzag_lt_bound64 w) more
    rw [decode_int64, andThen_of_ok hread, unzigzag_zigzag, Word.ofInt?_val]
    rfl
  of_decode {bs rest w} h := by
    rw [decode_int64] at h
    obtain ⟨n, between, hnat, hword⟩ := andThen_eq_ok h
    obtain ⟨-, taken, rfl, htaken⟩ := canonical_nat64.of_decode hnat
    cases hw : (Word.ofInt? (unzigzag n) : Option Int64Word) with
    | none =>
        rw [hw] at hword
        simp [never] at hword
    | some w' =>
        rw [hw] at hword
        obtain ⟨rfl, rfl⟩ := Prod.mk.inj (Except.ok.inj hword)
        have hfold : zigzag w'.val = n := by
          rw [Word.ofInt?_eq_some_iff.1 hw, zigzag_unzigzag]
        have hencode : int64.encode w' = nat64.encode n := congrArg nat64.encode hfold
        exact ⟨trivial, taken, rfl, by rwa [hencode]⟩

theorem Decoder.Steady.int64 : Steady int64.decode := by
  rw [decode_int64]
  apply Steady.nat64.andThen
  intro n
  split
  · exact .never _
  · exact .always _

/-! ## Truth values -/

theorem decode_bool :
    bool.decode = takeByte.andThen fun b =>
      if b = 0 then always false else if b = 1 then always true else never .badBool := by
  funext bs
  cases bs with
  | nil => rfl
  | cons b bs =>
      rw [andThen_of_ok (rfl : takeByte (b :: bs) = .ok (b, bs)), bool]
      by_cases hfalse : b = 0
      · simp only [if_pos hfalse]
        rfl
      · simp only [if_neg hfalse]
        by_cases htrue : b = 1
        · simp only [if_pos htrue]
          rfl
        · simp only [if_neg htrue]
          rfl

theorem canonical_bool : bool.Canonical fun _ => True where
  decode_encode {b} _ more := by
    cases b <;> rfl
  of_decode {bs rest b} h := by
    rw [decode_bool] at h
    obtain ⟨byte, between, hbyte, hvalue⟩ := andThen_eq_ok h
    obtain rfl := eq_cons_of_takeByte hbyte
    split at hvalue
    · rename_i hfalse
      obtain ⟨rfl, rfl⟩ := Prod.mk.inj (Except.ok.inj hvalue)
      exact ⟨trivial, [byte], rfl, Or.inl (by rw [hfalse]; rfl)⟩
    · split at hvalue
      · rename_i htrue
        obtain ⟨rfl, rfl⟩ := Prod.mk.inj (Except.ok.inj hvalue)
        exact ⟨trivial, [byte], rfl, Or.inl (by rw [htrue]; rfl)⟩
      · simp [never] at hvalue

theorem Decoder.Steady.bool : Steady bool.decode := by
  rw [decode_bool]
  apply Steady.takeByte.andThen
  intro b
  split
  · exact .always _
  · split
    · exact .always _
    · exact .never _

/-! ## Bytes that are counted -/

theorem takeBytes_append (bs more : Bytes) : takeBytes bs.length (bs ++ more) = .ok (bs, more) := by
  have hle : bs.length ≤ (bs ++ more).length := by
    rw [List.length_append]
    omega
  rw [takeBytes, if_pos hle, List.take_left, List.drop_left]

theorem takeBytes_eq_ok {n : Nat} {bs taken rest : Bytes} (h : takeBytes n bs = .ok (taken, rest)) :
    bs = taken ++ rest ∧ taken.length = n := by
  unfold takeBytes at h
  split at h
  · rename_i hle
    obtain ⟨rfl, rfl⟩ := Prod.mk.inj (Except.ok.inj h)
    exact ⟨(List.take_append_drop n bs).symm, List.length_take_of_le hle⟩
  · simp at h

theorem Decoder.Steady.takeBytes (n : Nat) : Steady (takeBytes n) where
  ok h more := by
    obtain ⟨rfl, rfl⟩ := takeBytes_eq_ok h
    rw [List.append_assoc, takeBytes_append]
  error h hne := by
    unfold Wire.takeBytes at h
    split at h
    · simp at h
    · exact absurd (Except.error.inj h).symm hne

/-! ## Words of 64 bits -/

/-- The number of some octets, the lowest first. -/
def ofOctets (octets : Bytes) : Nat := octets.foldr (fun b n => b.toNat + 256 * n) 0

/-- So many octets of a number, the lowest first. -/
def octets (count n : Nat) : Bytes := (List.range count).map fun i => UInt8.ofNat (n >>> (8 * i))

/-- The numbers of so many octets are those below. -/
def octetBound : Nat → Nat
  | 0 => 1
  | count + 1 => 256 * octetBound count

theorem octets_succ (count n : Nat) :
    octets (count + 1) n = UInt8.ofNat n :: octets count (n / 256) := by
  have hshift : ∀ i, n >>> (8 * (i + 1)) = (n / 256) >>> (8 * i) := by
    intro i
    rw [Nat.mul_add, Nat.add_comm, Nat.shiftRight_add, Nat.shiftRight_eq_div_pow n]
  simp only [octets, List.range_succ_eq_map, List.map_cons, List.map_map, Function.comp_def,
    Nat.succ_eq_add_one, hshift, Nat.mul_zero, Nat.shiftRight_zero]

theorem length_octets (count n : Nat) : (octets count n).length = count := by
  simp [octets]

theorem ofOctets_cons (b : UInt8) (octets : Bytes) :
    ofOctets (b :: octets) = b.toNat + 256 * ofOctets octets := rfl

theorem ofOctets_lt (octets : Bytes) : ofOctets octets < octetBound octets.length := by
  induction octets with
  | nil => exact Nat.one_pos
  | cons b octets ih =>
      have hb := b.toNat_lt
      rw [ofOctets_cons, List.length_cons, octetBound]
      omega

/-- The octets of a number make the number. -/
theorem ofOctets_octets {count n : Nat} (h : n < octetBound count) : ofOctets (octets count n) = n := by
  induction count generalizing n with
  | zero =>
      obtain rfl : n = 0 := by simpa [octetBound] using h
      rfl
  | succ count ih =>
      rw [octetBound] at h
      rw [octets_succ, ofOctets_cons, ih (by omega), UInt8.toNat_ofNat']
      omega

/-- Octets are those of the number that they make. -/
theorem octets_ofOctets (bs : Bytes) : octets bs.length (ofOctets bs) = bs := by
  induction bs with
  | nil => rfl
  | cons b bs ih =>
      have hb := b.toNat_lt
      have hlow : UInt8.ofNat (b.toNat + 256 * ofOctets bs) = b := by
        apply UInt8.toNat.inj
        rw [UInt8.toNat_ofNat']
        omega
      have hhigh : (b.toNat + 256 * ofOctets bs) / 256 = ofOctets bs := by omega
      rw [List.length_cons, ofOctets_cons, octets_succ, hlow, hhigh, ih]

theorem decode_word64 :
    word64.decode = (takeBytes 8).andThen fun octets => always (UInt64.ofNat (ofOctets octets)) := by
  funext bs
  cases htake : takeBytes 8 bs with
  | error e =>
      rw [andThen_of_error htake]
      simp only [word64, htake]
  | ok found =>
      rw [andThen_of_ok htake]
      simp only [word64, htake]
      rfl

theorem canonical_word64 : word64.Canonical fun _ => True where
  decode_encode {w} _ more := by
    have hencode : word64.encode w = octets 8 w.toNat := rfl
    have htake : takeBytes 8 (octets 8 w.toNat ++ more) = .ok (octets 8 w.toNat, more) := by
      have hall := takeBytes_append (octets 8 w.toNat) more
      rwa [length_octets] at hall
    rw [hencode, decode_word64, andThen_of_ok htake, ofOctets_octets w.toNat_lt, UInt64.ofNat_toNat]
    rfl
  of_decode {bs rest w} h := by
    rw [decode_word64] at h
    obtain ⟨taken, between, htake, hvalue⟩ := andThen_eq_ok h
    obtain ⟨rfl, hlength⟩ := takeBytes_eq_ok htake
    obtain ⟨rfl, rfl⟩ := Prod.mk.inj (Except.ok.inj hvalue)
    have hlt := ofOctets_lt taken
    rw [hlength] at hlt
    have hencode : word64.encode (UInt64.ofNat (ofOctets taken)) = taken :=
      calc word64.encode (UInt64.ofNat (ofOctets taken))
          = octets 8 (UInt64.ofNat (ofOctets taken)).toNat := rfl
        _ = octets taken.length (ofOctets taken) := by
            rw [UInt64.toNat_ofNat_of_lt' hlt, hlength]
        _ = taken := octets_ofOctets taken
    exact ⟨trivial, taken, rfl, Or.inl hencode.symm⟩

theorem Decoder.Steady.word64 : Steady word64.decode := by
  rw [decode_word64]
  exact (Steady.takeBytes 8).andThen fun octets => .always _

/-! ## Strings -/

/-- The UTF-8 form of a string is read as the string. -/
theorem ofUtf8Bytes?_utf8Bytes (s : String) : ofUtf8Bytes? (utf8Bytes s) = some s := by
  have hbytes : (⟨(utf8Bytes s).toArray⟩ : ByteArray) = s.toUTF8 := by
    rw [utf8Bytes, Array.toArray_toList]
  rw [ofUtf8Bytes?, hbytes, String.fromUTF8?, String.toUTF8_eq_toByteArray, dif_pos s.isValidUTF8]
  rfl

/-- Bytes that are read as a string are its UTF-8 form. -/
theorem utf8Bytes_of_ofUtf8Bytes? {bs : Bytes} {s : String} (h : ofUtf8Bytes? bs = some s) :
    utf8Bytes s = bs := by
  unfold ofUtf8Bytes? String.fromUTF8? at h
  split at h
  · obtain rfl := Option.some.inj h
    rfl
  · simp at h

theorem decode_string :
    string.decode = nat64.decode.andThen fun n => (takeBytes n).andThen fun text =>
      match ofUtf8Bytes? text with
      | none => never .badUtf8
      | some s => always s := by
  funext bs
  cases hlength : nat64.decode bs with
  | error e =>
      rw [andThen_of_error hlength]
      simp only [string, hlength]
  | ok found =>
      rw [andThen_of_ok hlength]
      cases htake : takeBytes found.1 found.2 with
      | error e =>
          rw [andThen_of_error htake]
          simp only [string, hlength, htake]
      | ok text =>
          rw [andThen_of_ok htake]
          simp only [string, hlength, htake]
          cases ofUtf8Bytes? text.1 <;> rfl

/-- The length of a string in bytes is a number of 64 bits. -/
def LengthWithin64 (s : String) : Prop := (utf8Bytes s).length < bound64

theorem canonical_string : string.Canonical LengthWithin64 where
  decode_encode {s} hs more := by
    have hencode : string.encode s ++ more =
        nat64.encode (utf8Bytes s).length ++ (utf8Bytes s ++ more) := List.append_assoc _ _ _
    rw [hencode, decode_string, andThen_of_ok (canonical_nat64.decode_encode hs _),
      andThen_of_ok (takeBytes_append _ more), ofUtf8Bytes?_utf8Bytes]
    rfl
  of_decode {bs rest s} h := by
    rw [decode_string] at h
    obtain ⟨n, between, hlength, hmore⟩ := andThen_eq_ok h
    obtain ⟨text, between', htake, hvalue⟩ := andThen_eq_ok hmore
    obtain ⟨hn, taken, rfl, htaken⟩ := canonical_nat64.of_decode hlength
    obtain ⟨rfl, rfl⟩ := takeBytes_eq_ok htake
    cases hs : ofUtf8Bytes? text with
    | none =>
        rw [hs] at hvalue
        simp [never] at hvalue
    | some s' =>
        rw [hs] at hvalue
        obtain ⟨rfl, rfl⟩ := Prod.mk.inj (Except.ok.inj hvalue)
        have hbytes := utf8Bytes_of_ofUtf8Bytes? hs
        have hencode : string.encode s' = nat64.encode text.length ++ text := by
          rw [← hbytes]
          rfl
        refine ⟨by rwa [LengthWithin64, hbytes], taken ++ text, (List.append_assoc _ _ _).symm, ?_⟩
        rw [hencode]
        exact htaken.append (Or.inl rfl)

theorem Decoder.Steady.string : Steady string.decode := by
  rw [decode_string]
  refine Steady.nat64.andThen fun n => (Steady.takeBytes n).andThen fun text => ?_
  split
  · exact .never _
  · exact .always _

end Mnemonic.Wire
