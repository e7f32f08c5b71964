set_option autoImplicit false

/-!
# Text: characters measured in UTF-8 bytes

Positions in an assembly text are byte offsets, while the text itself is a list of characters. This
module relates the two: `byteLength` measures a text, `splitAtByte?` cuts it at an offset, and
`slice?` takes out what lies between two offsets. A cut inside a character is refused.

Main statements: a cut exists exactly at the offsets that end a run of whole characters
(`splitAtByte?_eq_some_iff`), and a slice is exactly a middle part of the text that starts and ends
at the given offsets (`slice?_eq_some_iff`).
-/

namespace Mnemonic.Text

/-- Number of bytes that a text takes in UTF-8. -/
def byteLength : List Char → Nat
  | [] => 0
  | c :: cs => c.utf8Size + byteLength cs

@[simp] theorem byteLength_nil : byteLength [] = 0 := rfl

@[simp] theorem byteLength_cons (c : Char) (cs : List Char) :
    byteLength (c :: cs) = c.utf8Size + byteLength cs := rfl

@[simp] theorem byteLength_append (a b : List Char) :
    byteLength (a ++ b) = byteLength a + byteLength b := by
  induction a with
  | nil => simp
  | cons c a ih => simp [ih, Nat.add_assoc]

theorem byteLength_eq_zero_iff (a : List Char) : byteLength a = 0 ↔ a = [] := by
  cases a with
  | nil => simp
  | cons c a =>
      have := c.utf8Size_pos
      simp only [byteLength_cons, reduceCtorEq, iff_false]
      omega

/-- Cuts a text `n` bytes after its start. There is no cut past the end and none inside a
character. -/
def splitAtByte? : List Char → Nat → Option (List Char × List Char)
  | cs, 0 => some ([], cs)
  | [], _ + 1 => none
  | c :: cs, n + 1 =>
      if c.utf8Size ≤ n + 1 then
        (splitAtByte? cs (n + 1 - c.utf8Size)).map fun (a, b) => (c :: a, b)
      else
        none

theorem splitAtByte?_append (a b : List Char) :
    splitAtByte? (a ++ b) (byteLength a) = some (a, b) := by
  induction a with
  | nil => simp [splitAtByte?]
  | cons c a ih =>
      have hc := c.utf8Size_pos
      obtain ⟨k, hk⟩ : ∃ k, c.utf8Size + byteLength a = k + 1 :=
        ⟨c.utf8Size + byteLength a - 1, by omega⟩
      have hle : c.utf8Size ≤ k + 1 := by omega
      have hsub : k + 1 - c.utf8Size = byteLength a := by omega
      simp [splitAtByte?, hk, hle, hsub, ih]

theorem append_of_splitAtByte? {t a b : List Char} {n : Nat}
    (h : splitAtByte? t n = some (a, b)) : t = a ++ b ∧ byteLength a = n := by
  fun_induction splitAtByte? t n generalizing a b with
  | case1 cs => simp_all
  | case2 => simp at h
  | case3 c cs n hle ih =>
      obtain ⟨⟨a', b'⟩, h', heq⟩ := Option.map_eq_some_iff.1 h
      obtain ⟨rfl, rfl⟩ := Prod.mk.inj heq
      obtain ⟨hcs, hn⟩ := ih h'
      refine ⟨by simp [hcs], ?_⟩
      simp only [byteLength_cons]
      omega
  | case4 => simp at h

/-- A text is cut at an offset into the parts whose first one takes as many bytes. -/
theorem splitAtByte?_eq_some_iff {t a b : List Char} {n : Nat} :
    splitAtByte? t n = some (a, b) ↔ t = a ++ b ∧ byteLength a = n := by
  constructor
  · exact append_of_splitAtByte?
  · rintro ⟨rfl, rfl⟩
    exact splitAtByte?_append a b

/-- The part of a text from byte `lower` up to, not including, byte `upper`. There is none when the
bounds are in the wrong order, reach past the end, or fall inside a character. -/
def slice? (text : List Char) (lower upper : Nat) : Option (List Char) :=
  if lower ≤ upper then
    match splitAtByte? text lower with
    | none => none
    | some (_, rest) => (splitAtByte? rest (upper - lower)).map Prod.fst
  else
    none

theorem slice?_eq_some_iff {t m : List Char} {lower upper : Nat} :
    slice? t lower upper = some m ↔
      ∃ a b, t = a ++ m ++ b ∧ byteLength a = lower ∧ byteLength a + byteLength m = upper := by
  constructor
  · intro h
    unfold slice? at h
    split at h
    · rename_i hle
      split at h
      · simp at h
      · rename_i a rest ha
        obtain ⟨⟨m', b⟩, hm, rfl⟩ := Option.map_eq_some_iff.1 h
        obtain ⟨rfl, hla⟩ := splitAtByte?_eq_some_iff.1 ha
        obtain ⟨rfl, hlm⟩ := splitAtByte?_eq_some_iff.1 hm
        exact ⟨a, b, by simp, hla, by simp only at *; omega⟩
    · simp at h
  · rintro ⟨a, b, rfl, rfl, rfl⟩
    have hcut : splitAtByte? (a ++ (m ++ b)) (byteLength a) = some (a, m ++ b) :=
      splitAtByte?_append a (m ++ b)
    simp [slice?, hcut, splitAtByte?_append]

/-- A middle part of a text is read back at its own offsets. -/
theorem slice?_append (a m b : List Char) :
    slice? (a ++ m ++ b) (byteLength a) (byteLength a + byteLength m) = some m :=
  slice?_eq_some_iff.2 ⟨a, b, rfl, rfl, rfl⟩

end Mnemonic.Text
