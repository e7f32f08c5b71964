set_option autoImplicit false

/-!
# Codecs

A codec writes a value as bytes and reads it back from the front of a byte string, handing on what
follows. Codecs are put together from smaller ones: one value after the other (`pair`), a value
through another type (`iso`), an optional value behind a tag byte (`option`).

A decoder looks only at the bytes it takes. It says why it fails, and running out of bytes is a
failure of its own kind (`unexpectedEnd`), apart from bytes that no encoder writes.
-/

namespace Mnemonic.Wire

/-- A string of bytes. -/
abbrev Bytes := List UInt8

/-- Why bytes do not decode. -/
inductive WireError where
  /-- the bytes ended where more were needed -/
  | unexpectedEnd
  /-- a number does not end within its width -/
  | badVarint
  /-- a truth value is neither zero nor one -/
  | badBool
  /-- the bytes of a string are not UTF-8 -/
  | badUtf8
  /-- the tag of an optional value is neither zero nor one -/
  | badOption
  /-- the tag of an alternative names none -/
  | unknownVariant
  deriving DecidableEq, Repr

/-- The wording of the error. -/
def WireError.message : WireError → String
  | unexpectedEnd => "Hit the end of buffer, expected more data"
  | badVarint => "Found a varint that didn't terminate. Is the usize too big for this platform?"
  | badBool => "Found a bool that wasn't 0 or 1"
  | badUtf8 => "Tried to parse invalid utf-8"
  | badOption => "Found an Option discriminant that wasn't 0 or 1"
  | unknownVariant => "Serde Deserialization Error"

/-- Reads a value from the front of a byte string and returns the bytes behind it. -/
abbrev Decoder (α : Type) := Bytes → Except WireError (α × Bytes)

/-- A way to write values as bytes and to read them back. -/
structure Codec (α : Type) where
  encode : α → Bytes
  decode : Decoder α

/-- Takes one byte. -/
def takeByte : Decoder UInt8
  | [] => .error .unexpectedEnd
  | b :: bs => .ok (b, bs)

/-- Takes a number of bytes. -/
def takeBytes (n : Nat) : Decoder Bytes := fun bs =>
  if n ≤ bs.length then .ok (bs.take n, bs.drop n) else .error .unexpectedEnd

/-- Reads a number of values, one after the other. -/
def decodeMany {α : Type} (decode : Decoder α) : Nat → Decoder (List α)
  | 0, bs => .ok ([], bs)
  | n + 1, bs =>
      match decode bs with
      | .error e => .error e
      | .ok (a, bs) =>
          match decodeMany decode n bs with
          | .error e => .error e
          | .ok (as, bs) => .ok (a :: as, bs)

namespace Codec

variable {α β : Type}

/-- One value after the other. -/
def pair (c : Codec α) (d : Codec β) : Codec (α × β) where
  encode := fun (a, b) => c.encode a ++ d.encode b
  decode := fun bs =>
    match c.decode bs with
    | .error e => .error e
    | .ok (a, bs) =>
        match d.decode bs with
        | .error e => .error e
        | .ok (b, bs) => .ok ((a, b), bs)

/-- Values written as those of another type. -/
def iso (c : Codec α) (wrap : α → β) (unwrap : β → α) : Codec β where
  encode b := c.encode (unwrap b)
  decode bs :=
    match c.decode bs with
    | .error e => .error e
    | .ok (a, bs) => .ok (wrap a, bs)

/-- A zero byte for no value, a one byte before a value. -/
def option (c : Codec α) : Codec (Option α) where
  encode
    | none => [0]
    | some a => 1 :: c.encode a
  decode
    | [] => .error .unexpectedEnd
    | tag :: bs =>
        if tag = 0 then .ok (none, bs)
        else if tag = 1 then
          match c.decode bs with
          | .error e => .error e
          | .ok (a, bs) => .ok (some a, bs)
        else .error .badOption

/-- The bytes of a value as a whole, with anything behind it left aside. -/
def decodeFront (c : Codec α) (bs : Bytes) : Except WireError α :=
  match c.decode bs with
  | .error e => .error e
  | .ok (a, _) => .ok a

end Codec

/-- A truth value as a byte, zero or one. -/
def bool : Codec Bool where
  encode b := [if b then 1 else 0]
  decode
    | [] => .error .unexpectedEnd
    | b :: bs =>
        if b = 0 then .ok (false, bs)
        else if b = 1 then .ok (true, bs)
        else .error .badBool

end Mnemonic.Wire
