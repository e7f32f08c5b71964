import Mnemonic.Wire.Varint

set_option autoImplicit false

/-!
# Decoders and the bytes behind

A decoder is *steady* when the bytes that it looks at settle what it answers: bytes that follow them go
to the rest, and they matter to a failure only if it was that the bytes ended. Decoders that take one
byte, or none, are steady, and so are decoders that run one after another (`andThen`), of which all
others are made.

Main statement: when a steady decoder reads back what a codec has written, all that it makes of the
writing cut off somewhere is that the bytes end (`Steady.decode_of_cutOff`).
-/

namespace Mnemonic.Wire

namespace Decoder

variable {α β : Type}

/-- A decoder that takes nothing. -/
def always (a : α) : Decoder α := fun bs => .ok (a, bs)

/-- A decoder that fails whatever the bytes are. -/
def never (e : WireError) : Decoder α := fun _ => .error e

/-- One decoder and then another, which may depend on what the first one found. -/
def andThen (d : Decoder α) (next : α → Decoder β) : Decoder β := fun bs =>
  match d bs with
  | .error e => .error e
  | .ok (a, bs) => next a bs

theorem andThen_of_ok {d : Decoder α} {bs rest : Bytes} {a : α} (h : d bs = .ok (a, rest))
    (next : α → Decoder β) : d.andThen next bs = next a rest := by
  simp only [andThen, h]

theorem andThen_of_error {d : Decoder α} {bs : Bytes} {e : WireError} (h : d bs = .error e)
    (next : α → Decoder β) : d.andThen next bs = .error e := by
  simp only [andThen, h]

theorem andThen_eq_ok {d : Decoder α} {next : α → Decoder β} {bs rest : Bytes} {b : β}
    (h : d.andThen next bs = .ok (b, rest)) :
    ∃ a between, d bs = .ok (a, between) ∧ next a between = .ok (b, rest) := by
  cases hd : d bs with
  | error e =>
      rw [andThen_of_error hd] at h
      simp at h
  | ok found =>
      obtain ⟨a, between⟩ := found
      rw [andThen_of_ok hd] at h
      exact ⟨a, between, rfl, h⟩

/-- What the decoder answers is settled by the bytes that it looks at. -/
structure Steady (d : Decoder α) : Prop where
  ok : ∀ {bs rest : Bytes} {a : α}, d bs = .ok (a, rest) → ∀ more, d (bs ++ more) = .ok (a, rest ++ more)
  error : ∀ {bs : Bytes} {e : WireError}, d bs = .error e → e ≠ .unexpectedEnd →
    ∀ more, d (bs ++ more) = .error e

namespace Steady

theorem always (a : α) : Steady (always a) where
  ok h _ := by
    obtain ⟨rfl, rfl⟩ := Prod.mk.inj (Except.ok.inj h)
    rfl
  error h := by simp [Decoder.always] at h

theorem never (e : WireError) : Steady (never e : Decoder α) where
  ok h := by simp [Decoder.never] at h
  error h _ _ := h

theorem takeByte : Steady takeByte where
  ok {bs rest b} h more := by
    cases bs with
    | nil => simp [Wire.takeByte] at h
    | cons b' bs =>
        obtain ⟨rfl, rfl⟩ := Prod.mk.inj (Except.ok.inj h)
        rfl
  error {bs e} h hne := by
    cases bs with
    | nil => exact absurd (Except.error.inj h).symm hne
    | cons b bs => simp [Wire.takeByte] at h

theorem andThen {d : Decoder α} {next : α → Decoder β} (hd : Steady d)
    (hnext : ∀ a, Steady (next a)) : Steady (d.andThen next) where
  ok h more := by
    obtain ⟨a, between, hfirst, hsecond⟩ := andThen_eq_ok h
    rw [andThen_of_ok (hd.ok hfirst more)]
    exact (hnext a).ok hsecond more
  error {bs e} h hne more := by
    cases hfirst : d bs with
    | error e' =>
        rw [andThen_of_error hfirst] at h
        obtain rfl := Except.error.inj h
        exact andThen_of_error (hd.error hfirst hne more) next
    | ok found =>
        obtain ⟨a, between⟩ := found
        rw [andThen_of_ok hfirst] at h
        rw [andThen_of_ok (hd.ok hfirst more)]
        exact (hnext a).error h hne more

end Steady

end Decoder

open Decoder

variable {α β : Type}

/-! ## How decoders are put together -/

theorem decodeMany_succ (d : Decoder α) (n : Nat) :
    decodeMany d (n + 1) =
      d.andThen fun a => (decodeMany d n).andThen fun as => always (a :: as) := by
  funext bs
  rw [decodeMany]
  cases hd : d bs with
  | error e => rw [andThen_of_error hd]
  | ok found =>
      rw [andThen_of_ok hd]
      cases hmany : decodeMany d n found.2 with
      | error e =>
          rw [andThen_of_error hmany]
          simp only [hmany]
      | ok others =>
          rw [andThen_of_ok hmany]
          simp only [hmany]
          rfl

theorem decodeVarint_succ (lastMax groups : Nat) :
    decodeVarint lastMax (groups + 1) = takeByte.andThen fun b =>
      if b.toNat < 128 then
        if groups = 0 ∧ lastMax < b.toNat then never .badVarint else always b.toNat
      else
        (decodeVarint lastMax groups).andThen fun n => always (b.toNat - 128 + 128 * n) := by
  funext bs
  cases bs with
  | nil => rfl
  | cons b bs =>
      rw [andThen_of_ok (rfl : takeByte (b :: bs) = .ok (b, bs)), decodeVarint]
      by_cases hlast : b.toNat < 128
      · simp only [if_pos hlast]
        by_cases hbad : groups = 0 ∧ lastMax < b.toNat
        · simp only [if_pos hbad]
          rfl
        · simp only [if_neg hbad]
          rfl
      · simp only [if_neg hlast]
        cases hmore : decodeVarint lastMax groups bs with
        | error e => rw [andThen_of_error hmore]
        | ok found =>
            rw [andThen_of_ok hmore]
            rfl

namespace Codec

theorem decode_pair (c : Codec α) (d : Codec β) :
    (c.pair d).decode = c.decode.andThen fun a => d.decode.andThen fun b => always (a, b) := rfl

theorem decode_iso (c : Codec α) (wrap : α → β) (unwrap : β → α) :
    (c.iso wrap unwrap).decode = c.decode.andThen fun a => always (wrap a) := rfl

theorem decode_option (c : Codec α) :
    c.option.decode = takeByte.andThen fun tag =>
      if tag = 0 then always none
      else if tag = 1 then c.decode.andThen fun a => always (some a)
      else never .badOption := by
  funext bs
  cases bs with
  | nil => rfl
  | cons tag bs =>
      rw [andThen_of_ok (rfl : takeByte (tag :: bs) = .ok (tag, bs)), option]
      by_cases hnone : tag = 0
      · simp only [if_pos hnone]
        rfl
      · simp only [if_neg hnone]
        by_cases hsome : tag = 1
        · simp only [if_pos hsome]
          rfl
        · simp only [if_neg hsome]
          rfl

theorem decode_list (item : Codec α) :
    (Wire.list item).decode = nat64.decode.andThen (decodeMany item.decode) := by
  funext bs
  cases hlength : nat64.decode bs with
  | error e =>
      rw [andThen_of_error hlength]
      simp only [Wire.list, hlength]
  | ok found =>
      rw [andThen_of_ok hlength]
      simp only [Wire.list, hlength]

end Codec

namespace Decoder.Steady

theorem decodeMany {d : Decoder α} (h : Steady d) (n : Nat) : Steady (decodeMany d n) := by
  induction n with
  | zero => exact .always []
  | succ n ih =>
      rw [decodeMany_succ]
      exact h.andThen fun a => ih.andThen fun as => .always (a :: as)

theorem decodeVarint (lastMax groups : Nat) : Steady (decodeVarint lastMax groups) := by
  induction groups with
  | zero => exact .never .badVarint
  | succ groups ih =>
      rw [decodeVarint_succ]
      apply takeByte.andThen
      intro b
      split
      · split
        · exact .never _
        · exact .always _
      · exact ih.andThen fun n => .always _

theorem pair {c : Codec α} {d : Codec β} (hc : Steady c.decode) (hd : Steady d.decode) :
    Steady (c.pair d).decode := by
  rw [Codec.decode_pair]
  exact hc.andThen fun a => hd.andThen fun b => .always (a, b)

theorem iso {c : Codec α} (hc : Steady c.decode) (wrap : α → β) (unwrap : β → α) :
    Steady (c.iso wrap unwrap).decode := by
  rw [Codec.decode_iso]
  exact hc.andThen fun a => .always (wrap a)

theorem option {c : Codec α} (hc : Steady c.decode) : Steady c.option.decode := by
  rw [Codec.decode_option]
  apply takeByte.andThen
  intro tag
  split
  · exact .always none
  · split
    · exact hc.andThen fun a => .always (some a)
    · exact .never _

theorem nat64 : Steady nat64.decode := decodeVarint _ _

theorem list {item : Codec α} (h : Steady item.decode) : Steady (Wire.list item).decode := by
  rw [Codec.decode_list]
  exact nat64.andThen fun n => h.decodeMany n

end Decoder.Steady

/-! ## Encodings cut off -/

/-- What is left of an encoding that is cut off before its end does not decode; all that is wrong with
it is that it ends. -/
theorem Decoder.Steady.decode_of_cutOff {d : Decoder α} (h : Steady d) {a : α} {whole : Bytes}
    (hwhole : d whole = .ok (a, [])) {bs : Bytes} (hcut : bs <+: whole) (hne : bs ≠ whole) :
    d bs = .error .unexpectedEnd := by
  obtain ⟨more, rfl⟩ := hcut
  cases hbs : d bs with
  | ok found =>
      obtain ⟨b, rest⟩ := found
      have hmore := h.ok hbs more
      rw [hwhole] at hmore
      obtain ⟨-, hrest⟩ := Prod.mk.inj (Except.ok.inj hmore)
      obtain ⟨-, rfl⟩ := List.append_eq_nil_iff.1 hrest.symm
      exact absurd (List.append_nil bs).symm hne
  | error e =>
      by_cases he : e = .unexpectedEnd
      · rw [he]
      · have hmore := h.error hbs he more
        rw [hwhole] at hmore
        simp at hmore

end Mnemonic.Wire
