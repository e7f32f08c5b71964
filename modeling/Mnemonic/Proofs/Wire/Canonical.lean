import Mnemonic.Proofs.Wire.Steady

set_option autoImplicit false

/-!
# Shortest encodings

A number can be spelled longer than need be, with groups of zero at its end, and a reader accepts that.
So what a codec writes is not the only thing that it reads, but it is the shortest: any other spelling
of the value takes more bytes. This holds of numbers, group by group, and carries over to all that is put
together from them, since the parts of a spelling stand one behind the other.

Main statement: each way to put codecs together keeps them canonical (`Canonical.pair`,
`Canonical.iso`, `Canonical.option`, `Canonical.list`), which numbers are (`canonical_varint`).
-/

namespace Mnemonic.Wire

open Decoder

/-- The bytes are those of the encoding, or they are more. -/
def TakesAtLeast (bs encoding : Bytes) : Prop := bs = encoding ∨ encoding.length < bs.length

namespace TakesAtLeast

variable {bs bs' encoding encoding' : Bytes}

theorem length_le (h : TakesAtLeast bs encoding) : encoding.length ≤ bs.length := by
  rcases h with rfl | h
  · exact Nat.le_refl _
  · exact Nat.le_of_lt h

theorem eq_of_length_eq (h : TakesAtLeast bs encoding) (hlength : bs.length = encoding.length) :
    bs = encoding := by
  rcases h with h | h
  · exact h
  · omega

theorem append (h : TakesAtLeast bs encoding) (h' : TakesAtLeast bs' encoding') :
    TakesAtLeast (bs ++ bs') (encoding ++ encoding') := by
  have hle := h.length_le
  have hle' := h'.length_le
  rcases h with rfl | h
  · rcases h' with rfl | h'
    · exact Or.inl rfl
    · right
      rw [List.length_append, List.length_append]
      omega
  · right
    rw [List.length_append, List.length_append]
    omega

theorem cons (b : UInt8) (h : TakesAtLeast bs encoding) : TakesAtLeast (b :: bs) (b :: encoding) := by
  have hbyte : TakesAtLeast [b] [b] := Or.inl rfl
  exact hbyte.append h

/-- Bytes behind only make more of it. -/
theorem append_right (h : TakesAtLeast bs encoding) (more : Bytes) :
    TakesAtLeast (bs ++ more) encoding := by
  have hmore : TakesAtLeast more [] := by
    cases more with
    | nil => exact Or.inl rfl
    | cons b more => exact Or.inr (Nat.succ_pos _)
  have happend := h.append hmore
  rwa [List.append_nil] at happend

end TakesAtLeast

/-- The codec reads back what it writes of the values with a property, whatever follows; it reads no
other values; and no spelling of a value is as short as its encoding. -/
structure Codec.Canonical {α : Type} (c : Codec α) (valid : α → Prop) : Prop where
  decode_encode : ∀ {a : α}, valid a → ∀ more, c.decode (c.encode a ++ more) = .ok (a, more)
  of_decode : ∀ {bs rest : Bytes} {a : α}, c.decode bs = .ok (a, rest) →
    valid a ∧ ∃ taken, bs = taken ++ rest ∧ TakesAtLeast taken (c.encode a)

theorem eq_cons_of_takeByte {bs rest : Bytes} {b : UInt8} (h : takeByte bs = .ok (b, rest)) :
    bs = b :: rest := by
  cases bs with
  | nil => simp [takeByte] at h
  | cons b' bs =>
      obtain ⟨rfl, rfl⟩ := Prod.mk.inj (Except.ok.inj h)
      rfl

/-! ## Numbers -/

/-- The numbers of so many groups are those below. -/
def varintBound (lastMax : Nat) : Nat → Nat
  | 0 => 0
  | 1 => lastMax + 1
  | groups + 2 => 128 * varintBound lastMax (groups + 1)

theorem varintBound_pos (lastMax groups : Nat) : 0 < varintBound lastMax (groups + 1) := by
  induction groups with
  | zero => exact Nat.succ_pos lastMax
  | succ groups ih => exact Nat.mul_pos (by decide) ih

theorem encodeVarint_of_lt {n : Nat} (h : n < 128) : encodeVarint n = [UInt8.ofNat n] := by
  rw [encodeVarint, if_pos h]

theorem encodeVarint_of_le {n : Nat} (h : 128 ≤ n) :
    encodeVarint n = UInt8.ofNat (n % 128 + 128) :: encodeVarint (n / 128) := by
  rw [encodeVarint, if_neg (by omega)]

theorem encodeVarint_ne_nil (n : Nat) : encodeVarint n ≠ [] := by
  by_cases h : n < 128
  · rw [encodeVarint_of_lt h]
    exact List.cons_ne_nil _ _
  · rw [encodeVarint_of_le (by omega)]
    exact List.cons_ne_nil _ _

theorem toNat_ofNat_of_lt {n : Nat} (h : n < 256) : (UInt8.ofNat n).toNat = n := by
  rw [UInt8.toNat_ofNat', Nat.mod_eq_of_lt h]

section Varint

variable {lastMax : Nat}

theorem decodeVarint_cons_of_lt {groups : Nat} {b : UInt8} (hb : b.toNat < 128)
    (hlast : groups = 0 → b.toNat ≤ lastMax) (bs : Bytes) :
    decodeVarint lastMax (groups + 1) (b :: bs) = .ok (b.toNat, bs) := by
  have hgood : ¬(groups = 0 ∧ lastMax < b.toNat) := fun ⟨hgroups, hbad⟩ =>
    absurd (hlast hgroups) (by omega)
  rw [decodeVarint, if_pos hb, if_neg hgood]

theorem decodeVarint_cons_of_le {groups n : Nat} {b : UInt8} {bs rest : Bytes} (hb : 128 ≤ b.toNat)
    (h : decodeVarint lastMax groups bs = .ok (n, rest)) :
    decodeVarint lastMax (groups + 1) (b :: bs) = .ok (b.toNat - 128 + 128 * n, rest) := by
  rw [decodeVarint, if_neg (by omega), h]

/-- A number that is read ends with its first byte, or goes on in the groups that are left. -/
theorem decodeVarint_eq_ok {groups n : Nat} {bs rest : Bytes}
    (h : decodeVarint lastMax (groups + 1) bs = .ok (n, rest)) :
    (∃ b, bs = b :: rest ∧ b.toNat < 128 ∧ n = b.toNat ∧ (groups = 0 → n ≤ lastMax)) ∨
      ∃ b bs' n', bs = b :: bs' ∧ 128 ≤ b.toNat ∧ decodeVarint lastMax groups bs' = .ok (n', rest) ∧
        n = b.toNat - 128 + 128 * n' := by
  rw [decodeVarint_succ] at h
  obtain ⟨b, bs', hbyte, hrest⟩ := andThen_eq_ok h
  obtain rfl := eq_cons_of_takeByte hbyte
  by_cases hb : b.toNat < 128
  · rw [if_pos hb] at hrest
    split at hrest
    · simp [never] at hrest
    · rename_i hgood
      obtain ⟨rfl, rfl⟩ := Prod.mk.inj (Except.ok.inj hrest)
      exact Or.inl ⟨b, rfl, hb, rfl, by omega⟩
  · rw [if_neg hb] at hrest
    obtain ⟨n', between, hlater, hvalue⟩ := andThen_eq_ok hrest
    obtain ⟨rfl, rfl⟩ := Prod.mk.inj (Except.ok.inj hvalue)
    exact Or.inr ⟨b, bs', n', rfl, by omega, hlater, rfl⟩

theorem decodeVarint_encodeVarint (hlast : lastMax < 128) {groups n : Nat}
    (h : n < varintBound lastMax groups) (more : Bytes) :
    decodeVarint lastMax groups (encodeVarint n ++ more) = .ok (n, more) := by
  induction groups generalizing n with
  | zero => simp [varintBound] at h
  | succ groups ih =>
      by_cases hn : n < 128
      · have hbyte := toNat_ofNat_of_lt (Nat.lt_trans hn (by decide : 128 < 256))
        rw [encodeVarint_of_lt hn]
        have hread : decodeVarint lastMax (groups + 1) (UInt8.ofNat n :: more) =
            .ok ((UInt8.ofNat n).toNat, more) := by
          apply decodeVarint_cons_of_lt
          · omega
          · rintro rfl
            rw [varintBound] at h
            omega
        rw [hbyte] at hread
        exact hread
      · have hbyte : (UInt8.ofNat (n % 128 + 128)).toNat = n % 128 + 128 :=
          toNat_ofNat_of_lt (by omega)
        have hlater : n / 128 < varintBound lastMax groups := by
          cases groups with
          | zero =>
              rw [varintBound] at h
              omega
          | succ groups =>
              rw [varintBound] at h
              omega
        rw [encodeVarint_of_le (by omega), List.cons_append,
          decodeVarint_cons_of_le (by omega) (ih hlater), hbyte]
        simp only [Except.ok.injEq, Prod.mk.injEq, and_true]
        omega

theorem lt_varintBound_of_decode {groups n : Nat} {bs rest : Bytes}
    (h : decodeVarint lastMax groups bs = .ok (n, rest)) : n < varintBound lastMax groups := by
  induction groups generalizing bs n with
  | zero => simp [decodeVarint] at h
  | succ groups ih =>
      rcases decodeVarint_eq_ok h with ⟨b, -, hb, rfl, hlast⟩ | ⟨b, bs', n', -, -, hlater, rfl⟩
      · cases groups with
        | zero =>
            have hle := hlast rfl
            rw [varintBound]
            omega
        | succ groups =>
            have hpos := varintBound_pos lastMax groups
            rw [varintBound]
            omega
      · have hlt := ih hlater
        have hb := b.toNat_lt
        cases groups with
        | zero => simp [varintBound] at hlt
        | succ groups =>
            rw [varintBound]
            omega

theorem exists_taken_of_decodeVarint {groups n : Nat} {bs rest : Bytes}
    (h : decodeVarint lastMax groups bs = .ok (n, rest)) :
    ∃ taken, bs = taken ++ rest ∧ TakesAtLeast taken (encodeVarint n) := by
  induction groups generalizing bs n with
  | zero => simp [decodeVarint] at h
  | succ groups ih =>
      rcases decodeVarint_eq_ok h with ⟨b, rfl, hb, rfl, -⟩ | ⟨b, bs', n', rfl, hb, hlater, rfl⟩
      · refine ⟨[b], rfl, Or.inl ?_⟩
        rw [encodeVarint_of_lt hb, UInt8.ofNat_toNat]
      · obtain ⟨taken, rfl, htaken⟩ := ih hlater
        refine ⟨b :: taken, rfl, ?_⟩
        by_cases hn : n' = 0
        · -- The groups that follow are zero, and the number could have ended before them.
          have hpos := List.length_pos_iff.2 (encodeVarint_ne_nil n')
          have hle := htaken.length_le
          have hlt := b.toNat_lt
          right
          rw [encodeVarint_of_lt (by omega), List.length_singleton, List.length_cons]
          omega
        · have hlt := b.toNat_lt
          have hdigit : (b.toNat - 128 + 128 * n') % 128 + 128 = b.toNat := by omega
          have hrest : (b.toNat - 128 + 128 * n') / 128 = n' := by omega
          rw [encodeVarint_of_le (by omega), hdigit, hrest, UInt8.ofNat_toNat]
          exact htaken.cons b

end Varint

/-- Numbers are written as short as they can be. -/
theorem canonical_varint {w : VarintWidth} (h : w.lastMax < 128) :
    (varint w).Canonical fun n => n < varintBound w.lastMax w.groups where
  decode_encode hn more := decodeVarint_encodeVarint h hn more
  of_decode hread := ⟨lt_varintBound_of_decode hread, exists_taken_of_decodeVarint hread⟩

/-- The numbers of 64 bits are those below. -/
def bound64 : Nat := 18446744073709551616

theorem canonical_nat64 : nat64.Canonical (· < bound64) := canonical_varint (by decide)

/-! ## What is put together -/

theorem decodeMany_flatMap {α : Type} {item : Codec α} {valid : α → Prop} (h : item.Canonical valid)
    {as : List α} (has : ∀ a ∈ as, valid a) (more : Bytes) :
    decodeMany item.decode as.length (as.flatMap item.encode ++ more) = .ok (as, more) := by
  induction as with
  | nil => rfl
  | cons a as ih =>
      have hfirst := h.decode_encode (has a List.mem_cons_self) (as.flatMap item.encode ++ more)
      have hothers := ih fun a' ha' => has a' (List.mem_cons_of_mem a ha')
      rw [List.length_cons, decodeMany_succ, List.flatMap_cons, List.append_assoc,
        andThen_of_ok hfirst, andThen_of_ok hothers]
      rfl

/-- The items of a list that is read, and what was taken for them. -/
theorem exists_taken_of_decodeMany {α : Type} {item : Codec α} {valid : α → Prop}
    (h : item.Canonical valid) {n : Nat} {bs rest : Bytes} {as : List α}
    (hmany : decodeMany item.decode n bs = .ok (as, rest)) :
    as.length = n ∧ (∀ a ∈ as, valid a) ∧
      ∃ taken, bs = taken ++ rest ∧ TakesAtLeast taken (as.flatMap item.encode) := by
  induction n generalizing bs as with
  | zero =>
      obtain ⟨rfl, rfl⟩ := Prod.mk.inj (Except.ok.inj hmany)
      exact ⟨rfl, by simp, [], rfl, Or.inl rfl⟩
  | succ n ih =>
      rw [decodeMany_succ] at hmany
      obtain ⟨a, between, hfirst, hmore⟩ := andThen_eq_ok hmany
      obtain ⟨others, rest', hothers, hlist⟩ := andThen_eq_ok hmore
      obtain ⟨rfl, rfl⟩ := Prod.mk.inj (Except.ok.inj hlist)
      obtain ⟨ha, taken, rfl, htaken⟩ := h.of_decode hfirst
      obtain ⟨hlength, hvalid, taken', rfl, htaken'⟩ := ih hothers
      refine ⟨by rw [List.length_cons, hlength], List.forall_mem_cons.2 ⟨ha, hvalid⟩,
        taken ++ taken', ?_, htaken.append htaken'⟩
      rw [List.append_assoc]

namespace Codec.Canonical

variable {α β : Type} {c : Codec α} {d : Codec β} {valid : α → Prop} {valid' : β → Prop}

theorem congr {same : α → Prop} (h : c.Canonical valid) (hsame : ∀ a, valid a ↔ same a) :
    c.Canonical same where
  decode_encode ha more := h.decode_encode ((hsame _).2 ha) more
  of_decode hread := (h.of_decode hread).imp_left (hsame _).1

theorem pair (hc : c.Canonical valid) (hd : d.Canonical valid') :
    (c.pair d).Canonical fun p => valid p.1 ∧ valid' p.2 where
  decode_encode {p} hp more := by
    obtain ⟨a, b⟩ := p
    have hfirst := hc.decode_encode hp.1 (d.encode b ++ more)
    have hencode : (c.pair d).encode (a, b) = c.encode a ++ d.encode b := rfl
    rw [hencode, List.append_assoc, decode_pair, andThen_of_ok hfirst,
      andThen_of_ok (hd.decode_encode hp.2 more)]
    rfl
  of_decode h := by
    rw [decode_pair] at h
    obtain ⟨a, between, hfirst, hmore⟩ := andThen_eq_ok h
    obtain ⟨b, rest', hsecond, hpair⟩ := andThen_eq_ok hmore
    obtain ⟨rfl, rfl⟩ := Prod.mk.inj (Except.ok.inj hpair)
    obtain ⟨ha, taken, rfl, htaken⟩ := hc.of_decode hfirst
    obtain ⟨hb, taken', rfl, htaken'⟩ := hd.of_decode hsecond
    exact ⟨⟨ha, hb⟩, taken ++ taken', (List.append_assoc _ _ _).symm, htaken.append htaken'⟩

theorem iso (hc : c.Canonical valid) (wrap : α → β) (unwrap : β → α)
    (hwrap : ∀ b, wrap (unwrap b) = b) (hunwrap : ∀ a, unwrap (wrap a) = a) :
    (c.iso wrap unwrap).Canonical fun b => valid (unwrap b) where
  decode_encode {b} hb more := by
    have hread := hc.decode_encode hb more
    have hencode : (c.iso wrap unwrap).encode b = c.encode (unwrap b) := rfl
    rw [hencode, decode_iso, andThen_of_ok hread]
    simp only [always, hwrap]
  of_decode h := by
    rw [decode_iso] at h
    obtain ⟨a, between, hread, hvalue⟩ := andThen_eq_ok h
    obtain ⟨rfl, rfl⟩ := Prod.mk.inj (Except.ok.inj hvalue)
    have hencode : (c.iso wrap unwrap).encode (wrap a) = c.encode a := congrArg c.encode (hunwrap a)
    rw [hencode, hunwrap]
    exact hc.of_decode hread

theorem option (hc : c.Canonical valid) : c.option.Canonical fun o => ∀ a ∈ o, valid a where
  decode_encode {o} ho more := by
    rw [decode_option]
    cases o with
    | none => rfl
    | some a =>
        have hread := hc.decode_encode (ho a rfl) more
        have htag : takeByte (c.option.encode (some a) ++ more) = .ok (1, c.encode a ++ more) := rfl
        rw [andThen_of_ok htag, if_neg (by decide), if_pos rfl, andThen_of_ok hread]
        rfl
  of_decode {bs rest o} h := by
    rw [decode_option] at h
    obtain ⟨tag, between, htag, hvalue⟩ := andThen_eq_ok h
    obtain rfl := eq_cons_of_takeByte htag
    split at hvalue
    · rename_i hnone
      obtain ⟨rfl, rfl⟩ := Prod.mk.inj (Except.ok.inj hvalue)
      exact ⟨by simp, [tag], rfl, Or.inl (by rw [hnone]; rfl)⟩
    · split at hvalue
      · rename_i hsome
        obtain ⟨a, between', hread, hwrap⟩ := andThen_eq_ok hvalue
        obtain ⟨rfl, rfl⟩ := Prod.mk.inj (Except.ok.inj hwrap)
        obtain ⟨ha, taken, rfl, htaken⟩ := hc.of_decode hread
        refine ⟨by simpa using ha, tag :: taken, rfl, ?_⟩
        rw [hsome]
        exact htaken.cons 1
      · simp [never] at hvalue

theorem list (hc : c.Canonical valid) :
    (Wire.list c).Canonical fun as => as.length < bound64 ∧ ∀ a ∈ as, valid a where
  decode_encode {as} has more := by
    have hlength := canonical_nat64.decode_encode has.1 (as.flatMap c.encode ++ more)
    have hencode : (Wire.list c).encode as = nat64.encode as.length ++ as.flatMap c.encode := rfl
    rw [hencode, List.append_assoc, decode_list, andThen_of_ok hlength]
    exact decodeMany_flatMap hc has.2 more
  of_decode h := by
    rw [decode_list] at h
    obtain ⟨n, between, hlength, hmany⟩ := andThen_eq_ok h
    obtain ⟨hn, taken, rfl, htaken⟩ := canonical_nat64.of_decode hlength
    obtain ⟨rfl, hvalid, taken', rfl, htaken'⟩ := exists_taken_of_decodeMany hc hmany
    exact ⟨⟨hn, hvalid⟩, taken ++ taken', (List.append_assoc _ _ _).symm, htaken.append htaken'⟩

end Codec.Canonical

end Mnemonic.Wire
