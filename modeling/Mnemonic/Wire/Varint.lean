import Mnemonic.Number.Word
import Mnemonic.Wire.Codec

set_option autoImplicit false

/-!
# Numbers of variable length

A number is written in groups of seven bits, the lowest group first, each in a byte whose top bit
says whether another group follows. Small numbers take few bytes. A width limits how many groups a
reader accepts and how large the last possible one may be, which keeps the number within so many
bits; a longer spelling of a small number, with zero groups at its end, is accepted.

Signed numbers are folded onto the naturals first, alternating between the signs (`zigzag`), so
numbers near zero stay short. Lists are written as their length and then their items, strings as the
length of their UTF-8 form and then its bytes.
-/

namespace Mnemonic.Wire

/-- How many groups of seven bits a reader accepts, and the largest last one. -/
structure VarintWidth where
  groups : Nat
  lastMax : Nat
  deriving DecidableEq, Repr

namespace VarintWidth

/-- Ten groups, the tenth of one bit. -/
def bits64 : VarintWidth := ⟨10, 1⟩

/-- Five groups, the fifth of four bits. -/
def bits32 : VarintWidth := ⟨5, 15⟩

end VarintWidth

/-- Writes a number in groups of seven bits, lowest first. -/
def encodeVarint (n : Nat) : Bytes :=
  if n < 128 then [UInt8.ofNat n] else UInt8.ofNat (n % 128 + 128) :: encodeVarint (n / 128)

/-- Reads a number of at most the given groups. -/
def decodeVarint (lastMax : Nat) : Nat → Decoder Nat
  | 0, _ => .error .badVarint
  | _ + 1, [] => .error .unexpectedEnd
  | groups + 1, b :: bs =>
      if b.toNat < 128 then
        if groups = 0 ∧ lastMax < b.toNat then .error .badVarint else .ok (b.toNat, bs)
      else
        match decodeVarint lastMax groups bs with
        | .error e => .error e
        | .ok (n, bs) => .ok (b.toNat - 128 + 128 * n, bs)

/-- Numbers of the given width. -/
def varint (w : VarintWidth) : Codec Nat where
  encode := encodeVarint
  decode := decodeVarint w.lastMax w.groups

/-- Numbers of 64 bits, which offsets, lengths, lines and columns are. -/
def nat64 : Codec Nat := varint .bits64

/-- Numbers of 32 bits, which tags of alternatives are. -/
def tag32 : Codec Nat := varint .bits32

/-- Folds the integers onto the naturals: 0, -1, 1, -2, 2 and so on. -/
def zigzag (n : Int) : Nat := if 0 ≤ n then 2 * n.toNat else 2 * (-n).toNat - 1

/-- The integer at a place of the fold. -/
def unzigzag (n : Nat) : Int := if n % 2 = 0 then (n / 2 : Nat) else -((n / 2 : Nat) + 1)

/-- Signed numbers of 64 bits. -/
def int64 : Codec Int64Word where
  encode w := nat64.encode (zigzag w.val)
  decode bs :=
    match nat64.decode bs with
    | .error e => .error e
    | .ok (n, bs) =>
        match Word.ofInt? (unzigzag n) with
        | none => .error .badVarint
        | some w => .ok (w, bs)

/-- The length of a list, then its items. -/
def list {α : Type} (item : Codec α) : Codec (List α) where
  encode as := nat64.encode as.length ++ as.flatMap item.encode
  decode bs :=
    match nat64.decode bs with
    | .error e => .error e
    | .ok (n, bs) => decodeMany item.decode n bs

/-- The UTF-8 form of a string. -/
def utf8Bytes (s : String) : Bytes := s.toUTF8.data.toList

/-- The string of a UTF-8 form. -/
def ofUtf8Bytes? (bs : Bytes) : Option String := String.fromUTF8? ⟨bs.toArray⟩

/-- The length of the UTF-8 form of a string, then its bytes. -/
def string : Codec String where
  encode s := nat64.encode (utf8Bytes s).length ++ utf8Bytes s
  decode bs :=
    match nat64.decode bs with
    | .error e => .error e
    | .ok (n, bs) =>
        match takeBytes n bs with
        | .error e => .error e
        | .ok (text, bs) =>
            match ofUtf8Bytes? text with
            | none => .error .badUtf8
            | some s => .ok (s, bs)

/-- A word of 64 bits as eight bytes, lowest first. -/
def word64 : Codec UInt64 where
  encode w := (List.range 8).map fun i => UInt8.ofNat (w.toNat >>> (8 * i))
  decode bs :=
    match takeBytes 8 bs with
    | .error e => .error e
    | .ok (octets, bs) =>
        .ok (UInt64.ofNat (octets.foldr (fun b n => b.toNat + 256 * n) 0), bs)

example : encodeVarint 300 = [0xac, 0x02] := by decide +kernel
example : [0, -1, 1, -2, 2].map zigzag = [0, 1, 2, 3, 4] := rfl

end Mnemonic.Wire
