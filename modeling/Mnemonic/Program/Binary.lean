import Mnemonic.Program
import Mnemonic.Wire.Varint

set_option autoImplicit false

/-!
# The binary form of programs

A program is written as the list of its data entries and the list of its instructions; entries are
written field by field, spans as their two bounds. The form holds no text, so it goes with the source
that the program was read from.
-/

namespace Mnemonic

open Wire

/-- A section is written as its number. -/
def Section.codec : Codec Section where
  encode
    | .text => tag32.encode 0
    | .data => tag32.encode 1
  decode bs :=
    match tag32.decode bs with
    | .error e => .error e
    | .ok (0, bs) => .ok (.text, bs)
    | .ok (1, bs) => .ok (.data, bs)
    | .ok _ => .error .unknownVariant

/-- A span is written as its bounds. -/
def Span.codec : Codec Span :=
  (nat64.pair nat64).iso (fun (lower, upper) => ⟨lower, upper⟩) fun s => (s.lower, s.upper)

/-- A data entry is written as symbol, value, line and column. -/
def Datum.codec : Codec Datum :=
  (Span.codec.pair (Span.codec.pair (nat64.pair nat64))).iso
    (fun (symbol, value, line, column) => ⟨symbol, value, line, column⟩)
    fun e => (e.symbol, e.value, e.line, e.column)

/-- An instruction is written as name, operands, label, line and column. -/
def Instruction.codec : Codec Instruction :=
  (Span.codec.pair ((Wire.list Span.codec).pair (Span.codec.option.pair (nat64.pair nat64)))).iso
    (fun (name, operands, label, line, column) => ⟨name, operands, label, line, column⟩)
    fun i => (i.name, i.operands, i.label, i.line, i.column)

namespace Program

/-- A program is written as its data entries, then its instructions. -/
def codec : Codec Program :=
  ((Wire.list Datum.codec).pair (Wire.list Instruction.codec)).iso
    (fun (data, text) => ⟨data, text⟩) fun p => (p.data, p.text)

/-- The bytes of a program. -/
def toBytes (p : Program) : Bytes := codec.encode p

/-- The program that a byte string starts with. -/
def ofBytes (bs : Bytes) : Except WireError Program := codec.decodeFront bs

end Program

end Mnemonic
