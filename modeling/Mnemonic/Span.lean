import Mnemonic.Text.Bytes

set_option autoImplicit false

/-!
# Spans of a text

A span is a half-open stretch `lower..upper` of byte offsets. It holds no text: whoever needs the
text slices the source again. Nothing ties a span to a source, so it may reach past the end, fall
inside a character or have its bounds in the wrong order; slicing then answers with a `Misfit`.

Main statement: a span slices to a text exactly when that text is the middle part of the source
between its two bounds (`slice?_eq_some_iff`).
-/

namespace Mnemonic

/-- The half-open stretch of bytes from `lower` up to, not including, `upper`. -/
structure Span where
  lower : Nat
  upper : Nat
  deriving DecidableEq, Repr, Inhabited

/-- A span that does not lie in the text it was used on. -/
structure Misfit where
  span : Span
  deriving DecidableEq, Repr

/-- A span whose bounds enclose nothing, or are in the wrong order. -/
structure BoundsError where
  lower : Nat
  upper : Nat
  deriving DecidableEq, Repr

/-- The text of the error. -/
def BoundsError.message (e : BoundsError) : String :=
  s!"lower bound {e.lower} is not below upper bound {e.upper}"

namespace Span

/-- The empty span at an offset, before it has grown. -/
def startingAt (lower : Nat) : Span := ⟨lower, lower⟩

/-- The span with another upper bound. -/
def extendTo (s : Span) (upper : Nat) : Span := { s with upper }

/-- The span without its last `n` bytes. The upper bound never falls below the lower one. -/
def trimEnd (s : Span) (n : Nat) : Span := ⟨s.lower, max (s.upper - n) s.lower⟩

/-- Number of bytes in the span, none when the bounds are in the wrong order. -/
def length (s : Span) : Nat := s.upper - s.lower

/-- The span holds no byte. -/
def isEmpty (s : Span) : Bool := s.length == 0

/-- Checks that the lower bound is below the upper one. -/
def validate (s : Span) : Except BoundsError Unit :=
  if s.lower < s.upper then .ok () else .error ⟨s.lower, s.upper⟩

/-- The text under the span, if the span lies in the source. -/
def slice? (s : Span) (source : List Char) : Option (List Char) :=
  Text.slice? source s.lower s.upper

/-- The text under the span, or the complaint that the span does not lie in the source. -/
def slice (s : Span) (source : List Char) : Except Misfit (List Char) :=
  match s.slice? source with
  | some text => .ok text
  | none => .error ⟨s⟩

theorem slice?_eq_some_iff {s : Span} {source text : List Char} :
    s.slice? source = some text ↔
      ∃ a b, source = a ++ text ++ b ∧ Text.byteLength a = s.lower ∧
        Text.byteLength a + Text.byteLength text = s.upper :=
  Text.slice?_eq_some_iff

theorem slice_eq_ok_iff {s : Span} {source text : List Char} :
    s.slice source = .ok text ↔ s.slice? source = some text := by
  unfold slice
  split <;> simp_all

theorem isEmpty_iff (s : Span) : s.isEmpty = true ↔ s.upper ≤ s.lower := by
  simp [isEmpty, length, Nat.sub_eq_zero_iff_le]

end Span

end Mnemonic
