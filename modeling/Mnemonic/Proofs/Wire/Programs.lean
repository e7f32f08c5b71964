import Mnemonic.Program.Binary
import Mnemonic.Proofs.Wire.Canonical

set_option autoImplicit false

/-!
# Programs as bytes

The bytes of a program are read back as the program, whatever follows them; they are the shortest bytes
that are; and when they are cut off somewhere, they are not read as anything. What is read as a program,
or is wrong otherwise than by ending, stays so when more bytes follow.

The numbers of a program are those of a machine, which have 64 bits. A program that is read from bytes
has no others.

Main statements: `ofBytes_toBytes` and `ofBytes_append`.
-/

namespace Mnemonic

open Wire Decoder

/-! ## Numbers of 64 bits -/

/-- The bounds of a span have 64 bits. -/
structure Span.Within64 (s : Span) : Prop where
  lower : s.lower < bound64
  upper : s.upper < bound64

/-- All numbers of a data entry have 64 bits. -/
structure Datum.Within64 (e : Datum) : Prop where
  symbol : e.symbol.Within64
  value : e.value.Within64
  line : e.line < bound64
  column : e.column < bound64

/-- All numbers of an instruction have 64 bits, and so has the number of its operands. -/
structure Instruction.Within64 (i : Instruction) : Prop where
  name : i.name.Within64
  length_operands : i.operands.length < bound64
  operands : ∀ o ∈ i.operands, o.Within64
  label : ∀ l ∈ i.label, l.Within64
  line : i.line < bound64
  column : i.column < bound64

/-- All numbers of a program have 64 bits, and so have the numbers of its entries. -/
structure Program.Within64 (p : Program) : Prop where
  length_data : p.data.length < bound64
  data : ∀ e ∈ p.data, e.Within64
  length_text : p.text.length < bound64
  text : ∀ i ∈ p.text, i.Within64

/-! ## The codecs of the parts -/

namespace Span

theorem canonical_codec : codec.Canonical Within64 := by
  have h : codec.Canonical _ :=
    (canonical_nat64.pair canonical_nat64).iso _ _ (fun _ => rfl) fun _ => rfl
  exact h.congr fun s => ⟨fun ⟨hlower, hupper⟩ => ⟨hlower, hupper⟩, fun h => ⟨h.lower, h.upper⟩⟩

theorem steady_codec : Steady codec.decode := (Steady.nat64.pair .nat64).iso _ _

end Span

namespace Datum

theorem canonical_codec : codec.Canonical Within64 := by
  have h : codec.Canonical _ :=
    (Span.canonical_codec.pair (Span.canonical_codec.pair (canonical_nat64.pair canonical_nat64))).iso
      _ _ (fun _ => rfl) fun _ => rfl
  apply h.congr
  intro e
  constructor
  · rintro ⟨hsymbol, hvalue, hline, hcolumn⟩
    exact ⟨hsymbol, hvalue, hline, hcolumn⟩
  · intro h
    exact ⟨h.symbol, h.value, h.line, h.column⟩

theorem steady_codec : Steady codec.decode :=
  (Span.steady_codec.pair (Span.steady_codec.pair (Steady.nat64.pair .nat64))).iso _ _

end Datum

namespace Instruction

theorem canonical_codec : codec.Canonical Within64 := by
  have h : codec.Canonical _ :=
    (Span.canonical_codec.pair (Span.canonical_codec.list.pair
      (Span.canonical_codec.option.pair (canonical_nat64.pair canonical_nat64)))).iso
      _ _ (fun _ => rfl) fun _ => rfl
  apply h.congr
  intro i
  constructor
  · rintro ⟨hname, ⟨hlength, hoperands⟩, hlabel, hline, hcolumn⟩
    exact ⟨hname, hlength, hoperands, hlabel, hline, hcolumn⟩
  · intro h
    exact ⟨h.name, ⟨h.length_operands, h.operands⟩, h.label, h.line, h.column⟩

theorem steady_codec : Steady codec.decode :=
  (Span.steady_codec.pair (Span.steady_codec.list.pair
    (Span.steady_codec.option.pair (Steady.nat64.pair .nat64)))).iso _ _

end Instruction

namespace Program

theorem canonical_codec : codec.Canonical Within64 := by
  have h : codec.Canonical _ :=
    (Datum.canonical_codec.list.pair Instruction.canonical_codec.list).iso _ _ (fun _ => rfl)
      fun _ => rfl
  apply h.congr
  intro p
  constructor
  · rintro ⟨⟨hlengthData, hdata⟩, hlengthText, htext⟩
    exact ⟨hlengthData, hdata, hlengthText, htext⟩
  · intro h
    exact ⟨⟨h.length_data, h.data⟩, h.length_text, h.text⟩

theorem steady_codec : Steady codec.decode :=
  (Datum.steady_codec.list.pair Instruction.steady_codec.list).iso _ _

/-! ## Programs -/

theorem ofBytes_eq_ok_iff {bs : Bytes} {p : Program} :
    ofBytes bs = .ok p ↔ ∃ rest, codec.decode bs = .ok (p, rest) := by
  unfold ofBytes Codec.decodeFront
  cases codec.decode bs with
  | error e => simp
  | ok found => simp [Prod.ext_iff]

theorem ofBytes_eq_error_iff {bs : Bytes} {e : WireError} :
    ofBytes bs = .error e ↔ codec.decode bs = .error e := by
  unfold ofBytes Codec.decodeFront
  cases codec.decode bs <;> simp

/-- A program whose numbers have 64 bits is read back from its bytes, whatever follows them; and any
other bytes from which a program is read are more than its own. -/
theorem ofBytes_toBytes (p : Program) :
    (p.Within64 → ∀ more, ofBytes (p.toBytes ++ more) = .ok p) ∧
      ∀ bs, ofBytes bs = .ok p → p.Within64 ∧ p.toBytes.length ≤ bs.length ∧
        (bs.length = p.toBytes.length → bs = p.toBytes) := by
  constructor
  · intro h more
    exact ofBytes_eq_ok_iff.2 ⟨more, canonical_codec.decode_encode h more⟩
  · intro bs hread
    obtain ⟨rest, hdecode⟩ := ofBytes_eq_ok_iff.1 hread
    obtain ⟨hvalid, taken, rfl, htaken⟩ := canonical_codec.of_decode hdecode
    have hbs := htaken.append_right rest
    exact ⟨hvalid, hbs.length_le, hbs.eq_of_length_eq⟩

/-- A data entry with the greatest number of 64 bits, and a labelled instruction with an operand. -/
def farther : Program where
  data := [⟨⟨14, 15⟩, ⟨17, 18446744073709551615⟩, 2, 4⟩]
  text := [⟨⟨40, 43⟩, [⟨44, 45⟩], some ⟨37, 38⟩, 4, 300⟩]

theorem within64_farther : farther.Within64 where
  length_data := by decide
  data := by
    intro e he
    obtain rfl := List.mem_singleton.1 he
    exact ⟨⟨by decide, by decide⟩, ⟨by decide, by decide⟩, by decide, by decide⟩
  length_text := by decide
  text := by
    intro i hi
    obtain rfl := List.mem_singleton.1 hi
    refine ⟨⟨by decide, by decide⟩, by decide, ?_, ?_, by decide, by decide⟩
    · intro o ho
      obtain rfl := List.mem_singleton.1 ho
      exact ⟨by decide, by decide⟩
    · intro l hl
      obtain rfl := Option.mem_some_iff.1 hl
      exact ⟨by decide, by decide⟩

/-- Its bytes are read back with others behind; and there are longer bytes than its own for the empty
program. -/
theorem ofBytes_toBytes_farther :
    ofBytes (farther.toBytes ++ [7]) = .ok farther ∧
      ofBytes [0x80, 0x00, 0x00] = .ok empty ∧ empty.toBytes.length ≤ 3 ∧ empty.Within64 := by
  have hlonger : ofBytes [0x80, 0x00, 0x00] = .ok empty := rfl
  obtain ⟨hvalid, hlength, -⟩ := (ofBytes_toBytes empty).2 [0x80, 0x00, 0x00] hlonger
  exact ⟨(ofBytes_toBytes farther).1 within64_farther [7], hlonger, hlength, hvalid⟩

/-- What bytes are read as does not change when others follow, and neither does what is wrong with them,
unless it is that they end. That is all that is wrong with the bytes of a program when they are cut
off. -/
theorem ofBytes_append (bs : Bytes) :
    (∀ p, ofBytes bs = .ok p → ∀ more, ofBytes (bs ++ more) = .ok p) ∧
      (∀ e, ofBytes bs = .error e → e ≠ .unexpectedEnd → ∀ more, ofBytes (bs ++ more) = .error e) ∧
      ∀ p : Program, p.Within64 → bs <+: p.toBytes → bs ≠ p.toBytes →
        ofBytes bs = .error .unexpectedEnd := by
  refine ⟨?_, ?_, ?_⟩
  · intro p hread more
    obtain ⟨rest, hdecode⟩ := ofBytes_eq_ok_iff.1 hread
    exact ofBytes_eq_ok_iff.2 ⟨rest ++ more, steady_codec.ok hdecode more⟩
  · intro e hread hne more
    rw [ofBytes_eq_error_iff] at hread ⊢
    exact steady_codec.error hread hne more
  · intro p h hcut hne
    have hwhole := canonical_codec.decode_encode h []
    rw [List.append_nil] at hwhole
    exact ofBytes_eq_error_iff.2 (steady_codec.decode_of_cutOff hwhole hcut hne)

/-- There are three bytes only of its bytes; a number goes on for more than ten bytes; and a byte follows
those of the empty program. -/
theorem ofBytes_append_farther :
    ofBytes (farther.toBytes.take 3) = .error .unexpectedEnd ∧
      ofBytes (List.replicate 10 0xff ++ [0x00]) = .error .badVarint ∧
      ofBytes ([0x00, 0x00] ++ [0x07]) = .ok empty := by
  have hcut : farther.toBytes.take 3 ≠ farther.toBytes := by decide +kernel
  refine ⟨?_, ?_, ?_⟩
  · exact (ofBytes_append _).2.2 farther within64_farther (List.take_prefix 3 _) hcut
  · exact (ofBytes_append (List.replicate 10 0xff)).2.1 .badVarint rfl (by decide) [0x00]
  · exact (ofBytes_append [0x00, 0x00]).1 empty rfl [0x07]

end Program

end Mnemonic
