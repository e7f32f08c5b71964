import Mathlib.Data.List.Forall2
import Mnemonic.Proofs.Reading.Fit
import Mnemonic.Proofs.Running.Calls

set_option autoImplicit false

/-!
# Calls as they are written

An instruction says a call: the texts that stand under the spans of its name and of its operands. This
is the call that a machine makes when the instruction is due, if there is an action of the name.

Main statements: an instruction whose spans fit the source says exactly one call
(`Instruction.exists_spells`, `Instruction.rightUnique_spells`), which is the one that a machine fetches
(`Machine.fetch?_of_spells`).
-/

namespace Mnemonic

/-- The text stands under the span. -/
def Span.Reads (source : List Char) (s : Span) (text : String) : Prop :=
  s.slice? source = some text.toList

instance Span.instDecidableReads (source : List Char) (s : Span) (text : String) :
    Decidable (s.Reads source text) :=
  inferInstanceAs (Decidable (_ = _))

/-- The call that an instruction says, with its name and its operands as they are written. -/
structure Instruction.Spells (source : List Char) (i : Instruction) (call : Call) : Prop where
  name : i.name.Reads source call.name
  operands : List.Forall₂ (Span.Reads source) i.operands call.operands

variable {source : List Char}

theorem Span.reads_of_slice {s : Span} {w : List Char} (h : s.slice source = .ok w) :
    s.Reads source (String.ofList w) := by
  rw [Span.Reads, String.toList_ofList]
  exact Span.slice_eq_ok_iff.1 h

/-- The spans that fit a text are those that have a text there. -/
theorem Span.fits_iff_reads {s : Span} : s.Fits source ↔ ∃ text, s.Reads source text := by
  rw [Span.fits_iff_slice]
  constructor
  · rintro ⟨w, hw⟩
    exact ⟨String.ofList w, Span.reads_of_slice hw⟩
  · rintro ⟨text, htext⟩
    exact ⟨text.toList, Span.slice_eq_ok_iff.2 htext⟩

/-- If each element is related to something, this makes a list. -/
theorem exists_forall₂ {α β : Type} {R : α → β → Prop} {as : List α}
    (h : ∀ a ∈ as, ∃ b, R a b) : ∃ bs, List.Forall₂ R as bs := by
  induction as with
  | nil => exact ⟨[], .nil⟩
  | cons a as ih =>
      obtain ⟨⟨b, hb⟩, hlater⟩ := List.forall_mem_cons.1 h
      obtain ⟨bs, hbs⟩ := ih hlater
      exact ⟨b :: bs, .cons hb hbs⟩

/-- An instruction whose spans fit the source says a call. -/
theorem Instruction.exists_spells {i : Instruction} (hname : i.name.Fits source)
    (hoperands : ∀ o ∈ i.operands, o.Fits source) : ∃ call, i.Spells source call := by
  obtain ⟨name, hreads⟩ := Span.fits_iff_reads.1 hname
  obtain ⟨operands, hall⟩ := exists_forall₂ fun o ho => Span.fits_iff_reads.1 (hoperands o ho)
  exact ⟨⟨name, operands⟩, hreads, hall⟩

/-- A span has one text. -/
theorem rightUnique_reads (source : List Char) : Relator.RightUnique (Span.Reads source) :=
  fun _ _ _ h h' => String.toList_inj.1 (Option.some.inj (h.symm.trans h'))

/-- An instruction says one call. -/
theorem Instruction.rightUnique_spells (source : List Char) :
    Relator.RightUnique (Instruction.Spells source) := by
  rintro i ⟨name, operands⟩ ⟨name', operands'⟩ h h'
  obtain rfl := rightUnique_reads source h.name h'.name
  obtain rfl := (rightUnique_reads source).forall₂ h.operands h'.operands
  rfl

theorem mapM_slice?_of_reads {spans : List Span} {texts : List String}
    (h : List.Forall₂ (Span.Reads source) spans texts) :
    spans.mapM (·.slice? source) = some (texts.map String.toList) := by
  induction h with
  | nil => rfl
  | cons hreads _ ih =>
      rw [Span.Reads] at hreads
      rw [List.mapM_cons, hreads, ih]
      rfl

/-- A machine fetches the call that an instruction says. -/
theorem Machine.fetch?_of_spells {V σ : Type} {m : Machine V σ} {i : Instruction} {call : Call}
    (h : i.Spells m.source.toList call) : m.fetch? i = some (call.name, call.operands) := by
  have hname : i.name.slice? m.source.toList = some call.name.toList := h.name
  simp only [fetch?, hname, mapM_slice?_of_reads h.operands]
  simp [Function.comp_def]

end Mnemonic
