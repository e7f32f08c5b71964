import Mathlib
import Mnemonic.Proofs.Running.Fetching
import Mnemonic.Proofs.Running.Operations

set_option autoImplicit false

/-!
# Machines that match their source

A machine trusts that its program was read from its source. When the program fits the source, every
instruction of it can be fetched, whatever the actions and the host do to the registers, so the trap
for a program that was paired with another text never goes off.

Main statement: what is read from a text fits that text and can be put to every use that a program has
(`read_fits`).
-/

namespace Mnemonic

open Text

namespace Machine

variable {V σ : Type} [HoldsPointer V]

/-- The machine runs a program over a source. -/
structure Over (source : String) (program : Program) (m : Machine V σ) : Prop where
  source_eq : m.source = source
  program_eq : m.program = program

/-- Nothing that is done to a machine changes its program or its source, and if these match, nothing
makes it report that they do not. -/
theorem invariant_over {source : String} {program : Program} (h : program.Fits source.toList) :
    Invariant (Over source program : Machine V σ → Prop)
      fun e => ∀ line column, e ≠ .trap (.sourceMismatch line column) where
  step m hm := by
    obtain ⟨rfl, rfl⟩ := hm
    have houtcome := hasOutcome_step m
    generalize m.step = outcome at houtcome
    cases houtcome with
    | mismatched hpoints htext hfetch =>
        have hfits := h.text _ (List.mem_of_getElem? htext)
        obtain ⟨call, hspells⟩ := Instruction.exists_spells hfits.name.toFits
          fun o ho => (hfits.operands o ho).toFits
        simp [fetch?_of_spells hspells] at hfetch
    | _ => exact ⟨⟨rfl, rfl⟩, by simp⟩
  execute _ hm := ⟨hm.source_eq, hm.program_eq⟩
  stop _ hm := ⟨hm.source_eq, hm.program_eq⟩
  reset _ hm := ⟨hm.source_eq, hm.program_eq⟩
  writeRegisters _ _ hm := ⟨hm.source_eq, hm.program_eq⟩
  writeHost _ _ hm := ⟨hm.source_eq, hm.program_eq⟩

end Machine

/-- However often reading a text is attempted, no span is cut that does not lie in it, and every
program that an attempt finds fits the text: it has its labels, its data and its listing, and a machine
that runs it over the text never takes it for the program of another text. -/
theorem Session.read_fits (source : String) (attempts : Nat) :
    ((ofString source).after attempts).scanner.misfit = none ∧
      ∀ p, ((ofString source).after attempts).read.1 = .ok p → p.Fits source.toList ∧
        Answers (p.labels source.toList) ∧ (∀ symbol, Answers (p.data? source.toList symbol)) ∧
        (∀ style, Answers (Listing.render style source.toList p)) ∧
        ∀ (V σ : Type) [HoldsPointer V] (set : InstructionSet V σ) (config : Config) (host : σ)
          (m : Machine V σ) (events : List Event),
          Machine.Reaches (.ofProgram source p set config host) events m →
            ∀ line column, .trap (.sourceMismatch line column) ∉ events := by
  have hsound := sound_after source.toList attempts
  refine ⟨hsound.stands.misfit, ?_⟩
  intro p hp
  have hfits : p.Fits source.toList := hsound.read.1 p hp
  refine ⟨hfits, hfits.answers_labels, hfits.answers_data?, hfits.answers_render, ?_⟩
  intro V σ _ set config host m events hreaches line column hmem
  have hover : Machine.Over source p (Machine.ofProgram source p set config host) := ⟨rfl, rfl⟩
  exact (hreaches.of_invariant (Machine.invariant_over hfits) hover).2 _ hmem line column rfl

/-- A labelled instruction with an operand, of a name that the instruction set does not have. -/
theorem Session.read_fits_labelled :
    let source := "section .text\nl: a b"
    let p : Program := ⟨[], [⟨⟨17, 18⟩, [⟨19, 20⟩], some ⟨14, 15⟩, 2, 6⟩]⟩
    let m : Machine (Word .int64) Unit := .ofProgram source p .empty .standard ()
    ((ofString source).after 0).read.1 = .ok p ∧ p.Fits source.toList ∧
      ∀ line column, .trap (.sourceMismatch line column) ∉ m.step.2 := by
  intro source p m
  have houtline : Outline.of none none source.toList =
      ⟨[.directive [' '] .text, .blank '\n', .instruction (some (['l'], [' '])) ['a']
        [([' '], ['b'])] []], none⟩ := by
    cbv
  have hread : ((ofString source).after 0).read.1 = .ok p := by
    refine (fst_read none source.toList).trans ?_
    rw [houtline]
    rfl
  obtain ⟨hfits, -, -, -, hmatches⟩ := (read_fits source 0).2 p hread
  refine ⟨hread, hfits, ?_⟩
  exact hmatches (Word .int64) Unit .empty .standard () m.step.1 m.step.2
    (.andThen (.refl m) (.step m))

end Mnemonic
