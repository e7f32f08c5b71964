import Mnemonic.Proofs.Running.Outcomes

set_option autoImplicit false

/-!
# Jumps

An action jumps to an instruction by leaving the number before it in the instruction pointer. The
number goes through the kind of value that the registers hold, is moved one on as a pointer, and goes
through the kind once more. A kind keeps the pointers of its range and zero in place of all others, so
a jump arrives exactly when both numbers, the one before the target and the target, are kept.

No unsigned kind keeps the number before the first instruction: there a jump to the first instruction
goes to the second.

Main statements: the steps that report nothing (`silent_step_iff`), the pointer that a step leaves
(`pointer?_step_of_leaves`), and when that is the target of a jump
(`RegisterKind.val_kept_nextPointer_iff`).
-/

namespace Mnemonic

open HoldsPointer

/-! ## Kinds of register -/

/-- The kinds of value that the registers of a machine hold. -/
inductive RegisterKind where
  | int32
  | int64
  | uint32
  | uint64
  /-- unsigned integers of the size of an address, of which there are 64 bits -/
  | usize
  | value
  deriving DecidableEq, Repr

namespace RegisterKind

/-- The values of a kind. -/
def Carrier : RegisterKind → Type
  | int32 => Word .int32
  | int64 => Word .int64
  | uint32 => Word .uint32
  | uint64 => Word .uint64
  | usize => Word .uint64
  | value => Value

instance instHoldsPointer : (k : RegisterKind) → HoldsPointer k.Carrier
  | int32 => Word.instHoldsPointer .int32
  | int64 => Word.instHoldsPointer .int64
  | uint32 => Word.instHoldsPointer .uint32
  | uint64 => Word.instHoldsPointer .uint64
  | usize => Word.instHoldsPointer .uint64
  | value => Value.instHoldsPointer

/-- The range of the pointers that a kind keeps. -/
def range : RegisterKind → WordRange
  | int32 => .int32
  | int64 => .int64
  | uint32 => .uint32
  | uint64 => .uint64
  | usize => .uint64
  | value => .int64

/-- The pointer that a kind keeps for a pointer. -/
def kept (k : RegisterKind) (ip : Int64Word) : Int64Word :=
  if k.range.lo ≤ ip.val ∧ ip.val ≤ k.range.hi then ip else .zero

end RegisterKind

theorem Word.pointer?_ofPointer_eq (r : WordRange) (ip : Int64Word) :
    pointer? (ofPointer ip : Word r) =
      some (if r.lo ≤ ip.val ∧ ip.val ≤ r.hi then ip else .zero) := by
  by_cases h : r.lo ≤ ip.val ∧ ip.val ≤ r.hi
  · rw [if_pos h, Word.pointer?_ofPointer h.1 h.2]
  · have hnone : (ofInt? ip.val : Option (Word r)) = none := by
      rw [Word.ofInt?_eq_none_iff]
      omega
    have hzero : (ofPointer ip : Word r) = .zero := by
      simp [ofPointer, ofIntOrZero, hnone]
    rw [if_neg h, hzero]
    exact Word.ofInt?_eq_some_iff.2 rfl

/-- What is read back of a pointer is what the kind keeps of it. -/
theorem RegisterKind.pointer?_ofPointer (k : RegisterKind) (ip : Int64Word) :
    pointer? (ofPointer ip : k.Carrier) = some (k.kept ip) := by
  cases k with
  | value =>
      have hin : WordRange.int64.lo ≤ ip.val ∧ ip.val ≤ WordRange.int64.hi := ⟨ip.lo_le, ip.le_hi⟩
      rw [kept, range, if_pos hin]
      rfl
  | _ => exact Word.pointer?_ofPointer_eq _ ip

namespace RegisterKind

theorem val_kept (k : RegisterKind) (ip : Int64Word) :
    (k.kept ip).val = if k.range.lo ≤ ip.val ∧ ip.val ≤ k.range.hi then ip.val else 0 := by
  unfold kept
  split <;> rfl

theorem one_le_hi (k : RegisterKind) : 1 ≤ k.range.hi := by
  cases k <;> decide

/-- The number before a target leads to the target exactly when both are in the range of the kind, and
the target is a pointer. -/
theorem val_kept_nextPointer_iff (k : RegisterKind) {left : Int64Word} {target : Nat}
    (h : left.val = target - 1) :
    (k.kept (nextPointer (k.kept left))).val = target ↔
      k.range.lo < target ∧ (target : Int) ≤ min k.range.hi WordRange.int64.hi := by
  have hlo := k.range.lo_nonpos
  have hhi := k.one_le_hi
  have hleft := left.le_hi
  have hmax : WordRange.int64.hi = 9223372036854775807 := rfl
  rw [val_kept, val_nextPointer, val_kept, h]
  by_cases hkept : k.range.lo ≤ (target : Int) - 1 ∧ (target : Int) - 1 ≤ k.range.hi
  · rw [if_pos hkept]
    split <;> omega
  · rw [if_neg hkept]
    split <;> omega

end RegisterKind

namespace Machine

section Reading

variable {V σ : Type} [HoldsPointer V]

theorem pointer?_of_get? {m : Machine V σ} {v : V}
    (h : m.workspace.registers.get? pointerName = some v) : m.pointer? = HoldsPointer.pointer? v := by
  rw [pointer?, h]
  rfl

/-- The next step runs an action, which succeeds and leaves an instruction pointer that reads `n`. -/
structure LeavesReading (m : Machine V σ) (n : Int64Word) : Prop where
  succeeds : ∃ i name operands action workspace, m.Runs i name operands action ∧
    action operands m.workspace = .ok () workspace ∧
      (m.withWorkspace workspace).pointer? = some n

/-- The steps that report nothing are those in which an action succeeds and leaves an instruction
pointer. -/
theorem silent_step_iff (m : Machine V σ) : m.step.2 = [] ↔ ∃ n, m.LeavesReading n := by
  constructor
  · intro hsilent
    have houtcome := hasOutcome_step m
    generalize m.step = outcome at houtcome hsilent
    cases houtcome with
    | advanced hruns haction hpointer => exact ⟨_, _, _, _, _, _, hruns, haction, hpointer⟩
    | _ => exact absurd hsilent (List.cons_ne_nil _ _)
  · rintro ⟨n, i, name, operands, action, workspace, hruns, haction, hpointer⟩
    rw [step_of_runs_of_ok hruns haction hpointer]

end Reading

variable {σ : Type} {k : RegisterKind}

/-- The step moves the pointer one on, and keeps the program. -/
theorem step_of_leavesReading {m : Machine k.Carrier σ} {n : Int64Word} (h : m.LeavesReading n) :
    m.step.2 = [] ∧ m.step.1.program = m.program ∧
      m.step.1.pointer? = some (k.kept (nextPointer n)) := by
  refine ⟨(silent_step_iff m).2 ⟨n, h⟩, ?_⟩
  obtain ⟨i, name, operands, action, workspace, hruns, haction, hpointer⟩ := h
  rw [step_of_runs_of_ok hruns haction hpointer]
  refine ⟨rfl, ?_⟩
  simp only [pointer?, setRegister, NameMap.get?_set, if_true, Option.bind_some]
  exact k.pointer?_ofPointer _

/-- The next step runs an action, which succeeds and leaves a pointer behind. -/
structure Leaves (m : Machine k.Carrier σ) (left : Int64Word) : Prop where
  succeeds : ∃ i name operands action workspace, m.Runs i name operands action ∧
    action operands m.workspace = .ok () workspace ∧
      workspace.registers.get? pointerName = some (ofPointer left)

/-- What is read of a pointer that was left is what the kind keeps of it. -/
theorem Leaves.reading {m : Machine k.Carrier σ} {left : Int64Word} (h : m.Leaves left) :
    m.LeavesReading (k.kept left) := by
  obtain ⟨i, name, operands, action, workspace, hruns, haction, hleft⟩ := h.succeeds
  have hpointer : (m.withWorkspace workspace).pointer? = HoldsPointer.pointer? (ofPointer left) :=
    pointer?_of_get? hleft
  exact ⟨i, name, operands, action, workspace, hruns, haction,
    hpointer.trans (k.pointer?_ofPointer left)⟩

/-- The step moves the pointer that was left one on. -/
theorem pointer?_step_of_leaves {m : Machine k.Carrier σ} {left : Int64Word} (h : m.Leaves left) :
    m.step.2 = [] ∧ m.step.1.pointer? = some (k.kept (nextPointer (k.kept left))) :=
  have hstep := step_of_leavesReading h.reading
  ⟨hstep.1, hstep.2.2⟩

/-- A jump arrives at its target exactly when the kind of the registers keeps both the number before
the target and the target. -/
theorem jump_arrives_iff {m : Machine k.Carrier σ} {left : Int64Word} {target : Nat}
    (hrunning : m.running = true) (hleaves : m.Leaves left) (hleft : left.val = target - 1)
    (hallowed : m.tick.1.reachedLimit? = none) :
    m.tick.2 = [] ∧ ∃ n, m.tick.1.PointsTo n ∧ m.tick.1.step = m.tick.1.counted.performAt n ∧
      (n = target ↔
        k.range.lo < target ∧ (target : Int) ≤ min k.range.hi WordRange.int64.hi) := by
  have htick : m.tick = m.step := by
    rw [tick, if_pos hrunning]
  rw [htick] at hallowed ⊢
  obtain ⟨hsilent, hpointer⟩ := pointer?_step_of_leaves hleaves
  have hnonneg : 0 ≤ (k.kept (nextPointer (k.kept left))).val := by
    have hlo := k.range.lo_nonpos
    rw [RegisterKind.val_kept, val_nextPointer, RegisterKind.val_kept]
    have hmax : WordRange.int64.hi = 9223372036854775807 := rfl
    split <;> split <;> omega
  have hpoints : m.step.1.PointsTo (k.kept (nextPointer (k.kept left))).val.toNat :=
    ⟨hallowed, _, hpointer, (Int.toNat_of_nonneg hnonneg).symm⟩
  refine ⟨hsilent, _, hpoints, step_of_pointsTo hpoints, ?_⟩
  rw [← k.val_kept_nextPointer_iff hleft]
  omega

/-- A new machine over one instruction, which leaves a pointer behind. -/
theorem leaves_ofProgram {source name : String} {i : Instruction} {action : Action k.Carrier Unit}
    {left : Int64Word} (hname : i.name.slice? source.toList = some name.toList)
    (hoperands : i.operands = [])
    (haction : ∀ w, ∃ w', action [] w = .ok () w' ∧
      w'.registers.get? pointerName = some (ofPointer left)) :
    (ofProgram source ⟨[], [i]⟩ (InstructionSet.empty.defineInstruction name action) .standard
      ()).execute.Leaves left := by
  generalize hm : (ofProgram source ⟨[], [i]⟩ (InstructionSet.empty.defineInstruction name action)
    .standard ()).execute = m
  have hpoints : m.PointsTo 0 := by
    rw [← hm]
    exact ⟨rfl, k.kept .zero, k.pointer?_ofPointer .zero, by cases k <;> rfl⟩
  have hfetch : m.fetch? i = some (name, []) := by
    have hsource : m.source = source := by rw [← hm]; rfl
    rw [fetch?, hsource, hname, hoperands]
    simp
  have hdefined : m.actions.get? name = some action := by
    rw [← hm]
    exact (NameMap.get?_set _ _ _ _).trans (if_pos rfl)
  have htext : m.program.text[0]? = some i := by rw [← hm]; rfl
  obtain ⟨w', hok, hleft⟩ := haction m.workspace
  exact ⟨i, name, [], action, w', ⟨⟨0, hpoints, htext⟩, hfetch, hdefined⟩, hok, hleft⟩

/-- A running machine over one instruction, which jumps to itself. -/
def selfJump (k : RegisterKind) : Machine k.Carrier Unit :=
  let jump : Action k.Carrier Unit := fun _ => modify fun w =>
    { w with registers := w.registers.set pointerName (ofPointer (.ofIntOrZero (-1))) }
  (ofProgram "section .text\njmp" ⟨[], [⟨⟨14, 17⟩, [], none, 2, 3⟩]⟩
    (InstructionSet.empty.defineInstruction "jmp" jump) .standard ()).execute

theorem leaves_selfJump (k : RegisterKind) : (selfJump k).Leaves (.ofIntOrZero (-1)) :=
  leaves_ofProgram rfl rfl fun _ => ⟨_, rfl, (NameMap.get?_set _ _ _ _).trans (if_pos rfl)⟩

/-- Signed registers can jump to the first instruction. -/
theorem jump_arrives_int64 :
    ∃ n, (selfJump .int64).tick.1.PointsTo n ∧
      (selfJump .int64).tick.1.step = (selfJump .int64).tick.1.counted.performAt n ∧ n = 0 := by
  have hleft : (Word.ofIntOrZero (-1) : Int64Word).val = (0 : Nat) - 1 := rfl
  obtain ⟨-, n, hpoints, hstep, hn⟩ := jump_arrives_iff rfl (leaves_selfJump .int64) hleft rfl
  exact ⟨n, hpoints, hstep, hn.2 (by decide)⟩

/-- Unsigned registers cannot. -/
theorem not_jump_arrives :
    ¬∀ (k : RegisterKind) (m : Machine k.Carrier Unit) (left : Int64Word) (target : Nat),
      m.running = true → m.Leaves left → left.val = target - 1 → target ≤ m.program.text.length →
        m.tick.1.reachedLimit? = none → m.tick.1.PointsTo target := by
  intro h
  obtain ⟨-, ip, hpointer, hip⟩ := h .uint32 (selfJump .uint32) (.ofIntOrZero (-1)) 0 rfl
    (leaves_selfJump .uint32) rfl (by decide) rfl
  have htick : (selfJump .uint32).tick = (selfJump .uint32).step := rfl
  rw [htick, (pointer?_step_of_leaves (leaves_selfJump .uint32)).2] at hpointer
  obtain rfl := Option.some.inj hpointer
  revert hip
  decide

end Machine

end Mnemonic
