import Mnemonic.Proofs.Running.Jumps

set_option autoImplicit false

/-!
# Advancing

A step that succeeds moves the instruction pointer one on from where its action left it, and never
beyond the greatest pointer. The kind of value that the registers hold has to keep what comes out. A
narrow kind whose greatest value was left keeps zero instead: a program that was sent past its end
starts again, where it should finish.

Main statement: the next pointer that a kind keeps (`RegisterKind.val_kept_nextPointer`).
-/

namespace Mnemonic

open HoldsPointer

theorem RegisterKind.pointer?_mem_range {k : RegisterKind} {v : k.Carrier} {n : Int64Word}
    (h : pointer? v = some n) : k.range.lo ≤ n.val ∧ n.val ≤ k.range.hi := by
  cases k with
  | value => exact ⟨n.lo_le, n.le_hi⟩
  | _ => exact Word.pointer?_eq_some_iff.1 h ▸ ⟨Word.lo_le v, Word.le_hi v⟩

/-- A kind that holds a pointer keeps the next one, unless that is beyond its range. -/
theorem RegisterKind.val_kept_nextPointer {k : RegisterKind} {n : Int64Word}
    (hlo : k.range.lo ≤ n.val) :
    (k.kept (nextPointer n)).val =
      if min (n.val + 1) WordRange.int64.hi ≤ k.range.hi then min (n.val + 1) WordRange.int64.hi
      else 0 := by
  have hrange : k.range.lo ≤ min (n.val + 1) WordRange.int64.hi := by
    have hnonpos := k.range.lo_nonpos
    have hhi : WordRange.int64.hi = 9223372036854775807 := rfl
    omega
  rw [val_kept, val_nextPointer]
  simp only [hrange, true_and]

namespace Machine

variable {σ : Type} {k : RegisterKind}

theorem LeavesReading.lo_le {m : Machine k.Carrier σ} {n : Int64Word} (h : m.LeavesReading n) :
    k.range.lo ≤ n.val := by
  obtain ⟨i, name, operands, action, workspace, -, -, hpointer⟩ := h
  obtain ⟨v, -, hv⟩ := Option.bind_eq_some_iff.1 hpointer
  exact (RegisterKind.pointer?_mem_range hv).1

/-- A successful tick moves the instruction pointer one on, and leaves the greatest one where it is,
unless the kind of the registers cannot hold the result: then the pointer is zero. So what was sent to
the end of the program or past it finishes with the next step, or else starts again. -/
theorem advances_to {m : Machine k.Carrier σ} {n : Int64Word} (hrunning : m.running = true)
    (h : m.LeavesReading n) :
    m.tick.2 = [] ∧
    (∃ ip, m.tick.1.pointer? = some ip ∧
      ip.val = if min (n.val + 1) WordRange.int64.hi ≤ k.range.hi
        then min (n.val + 1) WordRange.int64.hi else 0) ∧
    (m.tick.1.reachedLimit? = none →
      (m.program.text.length : Int) ≤ min (n.val + 1) WordRange.int64.hi →
      m.tick.1.step = if min (n.val + 1) WordRange.int64.hi ≤ k.range.hi
        then (m.tick.1.counted.reset, [.finish]) else m.tick.1.counted.performAt 0) := by
  have htick : m.tick = m.step := by
    rw [tick, if_pos hrunning]
  rw [htick]
  obtain ⟨hsilent, hprogram, hpointer⟩ := step_of_leavesReading h
  have hval := RegisterKind.val_kept_nextPointer h.lo_le
  refine ⟨hsilent, ⟨_, hpointer, hval⟩, fun hallowed hend => ?_⟩
  split at hval
  · rename_i hfits
    rw [if_pos hfits]
    have hpoints : m.step.1.PointsTo (min (n.val + 1) WordRange.int64.hi).toNat :=
      ⟨hallowed, _, hpointer, by omega⟩
    have htext : m.step.1.program.text[(min (n.val + 1) WordRange.int64.hi).toNat]? = none := by
      rw [hprogram, List.getElem?_eq_none_iff]
      omega
    exact (HasOutcome.finished hpoints htext).step_eq
  · rename_i hnarrow
    rw [if_neg hnarrow]
    exact step_of_pointsTo ⟨hallowed, _, hpointer, hval⟩

/-- A running machine over one instruction, which sets the instruction pointer. -/
def setsPointer (k : RegisterKind) (ip : Int64Word) : Machine k.Carrier Unit :=
  let setPointer : Action k.Carrier Unit := fun _ => modify fun w =>
    { w with registers := w.registers.set pointerName (ofPointer ip) }
  (ofProgram "section .text\nsetip" ⟨[], [⟨⟨14, 19⟩, [], none, 2, 3⟩]⟩
    (InstructionSet.empty.defineInstruction "setip" setPointer) .standard ()).execute

theorem leaves_setsPointer (k : RegisterKind) (ip : Int64Word) : (setsPointer k ip).Leaves ip :=
  leaves_ofProgram rfl rfl fun _ => ⟨_, rfl, (NameMap.get?_set _ _ _ _).trans (if_pos rfl)⟩

/-- The greatest pointer. -/
def greatest : Int64Word := .ofIntOrZero WordRange.int64.hi

/-- Wide registers that were sent as far as can be finish. -/
theorem advances_to_greatest :
    (setsPointer .int64 greatest).LeavesReading greatest ∧
      (setsPointer .int64 greatest).tick.1.step =
        ((setsPointer .int64 greatest).tick.1.counted.reset, [.finish]) :=
  have hleaves : (setsPointer .int64 greatest).LeavesReading greatest :=
    (leaves_setsPointer .int64 greatest).reading
  ⟨hleaves, (advances_to rfl hleaves).2.2 rfl (by decide)⟩

/-- Narrow registers start again. -/
theorem not_advances_to :
    ¬∀ (k : RegisterKind) (m : Machine k.Carrier Unit) (n : Int64Word), m.running = true →
      m.LeavesReading n →
      ∃ ip, m.tick.1.pointer? = some ip ∧ ip.val = min (n.val + 1) WordRange.int64.hi := by
  intro h
  have hleaves := (leaves_setsPointer .int32 (.ofIntOrZero 2147483647)).reading
  obtain ⟨ip, hpointer, hip⟩ := h .int32 _ _ rfl hleaves
  have htick : (setsPointer .int32 (.ofIntOrZero 2147483647)).tick =
      (setsPointer .int32 (.ofIntOrZero 2147483647)).step := rfl
  rw [htick, (step_of_leavesReading hleaves).2.2] at hpointer
  obtain rfl := Option.some.inj hpointer
  revert hip
  decide

end Machine

end Mnemonic
