import Mnemonic.Proofs.Running.Calls
import Mnemonic.Proofs.Running.Reports

set_option autoImplicit false

/-!
# The state after a fault

A fault leaves a machine as it was found, so that it can be inspected. Either something kept the step
from running an action; then the machine is idle, the step is counted unless the limit was reached, and
that is all. Or an action ran and failed, or left no instruction pointer; then what it worked on stays
as it left it.

Main statement: `step_of_fault`.
-/

namespace Mnemonic.Machine

variable {V σ : Type} [HoldsPointer V]

/-- What keeps a step from running an action, and what is reported of it. -/
inductive Prevented (m : Machine V σ) : Report → Prop
  | atLimit {limit : Nat} (h : m.reachedLimit? = some limit) :
      Prevented m (.trap (.stepLimit limit))
  | noPointer (hallowed : m.reachedLimit? = none) (h : m.pointer? = none) :
      Prevented m (.trap .pointerNotInteger)
  | outOfRange {ip : Int64Word} (hallowed : m.reachedLimit? = none) (h : m.pointer? = some ip)
      (hneg : ip.val < 0) : Prevented m (.trap (.pointerOutOfRange ip.val))
  | mismatched {n : Nat} {i : Instruction} (h : m.PointsTo n)
      (htext : m.program.text[n]? = some i) (hfetch : m.fetch? i = none) :
      Prevented m (.trap (.sourceMismatch i.line i.column))
  | undefined {i : Instruction} {name : String} (h : m.FetchesUndefined i name) :
      Prevented m (.undefined name i.line i.column)

/-- An action runs and fails, or leaves no instruction pointer. What it worked on is left as it says. -/
inductive Fails (m : Machine V σ) (i : Instruction) (name : String) (operands : List String) :
    ActionError → Workspace V σ → Prop
  | failed {action : Action V σ} {e : ActionError} {left : Workspace V σ}
      (h : m.Runs i name operands action) (haction : action operands m.workspace = .error e left) :
      Fails m i name operands e left
  | lostPointer {action : Action V σ} {left : Workspace V σ} (h : m.Runs i name operands action)
      (haction : action operands m.workspace = .ok () left)
      (hpointer : (m.withWorkspace left).pointer? = none) :
      Fails m i name operands .pointerNotInteger left

variable {m : Machine V σ}

/-- What is prevented does not run. -/
theorem Prevented.not_runs {r : Report} (h : m.Prevented r) (i : Instruction) (name : String)
    (operands : List String) (action : Action V σ) : ¬m.Runs i name operands action := by
  rintro ⟨⟨n, hpoints, htext⟩, hfetch, hdefined⟩
  -- What runs passed every check, and each way to be prevented fails one of them.
  cases h with
  | atLimit h => simp [hpoints.allowed] at h
  | noPointer _ h =>
      obtain ⟨-, ip, hpointer, -⟩ := hpoints
      simp [h] at hpointer
  | outOfRange _ h hneg =>
      obtain ⟨-, ip, hpointer, hn⟩ := hpoints
      rw [h] at hpointer
      obtain rfl := Option.some.inj hpointer
      omega
  | mismatched hpoints' htext' hfetch' =>
      obtain rfl := hpoints.unique hpoints'
      rw [htext] at htext'
      obtain rfl := Option.some.inj htext'
      simp [hfetch] at hfetch'
  | undefined h =>
      obtain ⟨⟨n', hpoints', htext'⟩, ⟨operands', hfetch'⟩, hname⟩ := h
      obtain rfl := hpoints.unique hpoints'
      rw [htext] at htext'
      obtain rfl := Option.some.inj htext'
      rw [hfetch] at hfetch'
      obtain ⟨rfl, -⟩ := Prod.mk.inj (Option.some.inj hfetch')
      simp [hdefined] at hname

/-- A step that is prevented counts itself, if it is allowed, and makes the machine idle. -/
theorem Prevented.step_eq {r : Report} (h : m.Prevented r) :
    m.step = ({ m with
      running := false
      steps := if m.reachedLimit? = none then m.steps + 1 else m.steps }, r.events) := by
  cases h with
  | atLimit h =>
      rw [(HasOutcome.atLimit h).step_eq, h]
      rfl
  | noPointer hallowed h =>
      rw [(HasOutcome.noPointer hallowed h).step_eq, if_pos hallowed]
      rfl
  | outOfRange hallowed h hneg =>
      rw [(HasOutcome.outOfRange hallowed h hneg).step_eq, if_pos hallowed]
      rfl
  | mismatched h htext hfetch =>
      rw [(HasOutcome.mismatched h htext hfetch).step_eq, if_pos h.allowed]
      rfl
  | undefined h =>
      obtain ⟨n, hpoints, -⟩ := h.pointed
      rw [step_of_fetchesUndefined h, if_pos hpoints.allowed]
      rfl

variable {i : Instruction} {name : String} {operands : List String} {e : ActionError}
  {left : Workspace V σ}

theorem Fails.exists_runs (h : m.Fails i name operands e left) :
    ∃ action, m.Runs i name operands action := by
  cases h with
  | failed h => exact ⟨_, h⟩
  | lostPointer h => exact ⟨_, h⟩

/-- A step whose action fails counts itself, and makes the machine idle. -/
theorem Fails.step_eq (h : m.Fails i name operands e left) :
    m.step = ({ m with workspace := left, running := false, steps := m.steps + 1 },
      (Report.trap (.failedInstruction name i.line i.column e)).events) := by
  cases h with
  | failed h haction =>
      rw [(HasOutcome.failed h haction).step_eq]
      rfl
  | lostPointer h haction hpointer =>
      rw [(HasOutcome.lostPointer h haction hpointer).step_eq]
      rfl

/-- Whenever a step reports a trap, it was prevented or its action failed. -/
theorem prevented_or_fails_of_trap {t : Trap} (h : .trap t ∈ m.step.2) :
    (∃ r, m.Prevented r) ∨ ∃ i name operands e left, m.Fails i name operands e left := by
  have houtcome := hasOutcome_step m
  generalize m.step = outcome at houtcome h
  cases houtcome with
  | atLimit hlimit => exact .inl ⟨_, .atLimit hlimit⟩
  | noPointer hallowed hpointer => exact .inl ⟨_, .noPointer hallowed hpointer⟩
  | outOfRange hallowed hpointer hneg => exact .inl ⟨_, .outOfRange hallowed hpointer hneg⟩
  | finished => simp at h
  | mismatched hpoints htext hfetch => exact .inl ⟨_, .mismatched hpoints htext hfetch⟩
  | undefined hpoints htext hfetch hname =>
      exact .inl ⟨_, .undefined ⟨⟨_, hpoints, htext⟩, ⟨_, hfetch⟩, hname⟩⟩
  | failed hruns haction => exact .inr ⟨_, _, _, _, _, .failed hruns haction⟩
  | lostPointer hruns haction hpointer =>
      exact .inr ⟨_, _, _, _, _, .lostPointer hruns haction hpointer⟩
  | advanced => simp at h

/-- A step that is prevented from running an action calls none, and changes nothing of the machine but
that it is idle and, unless the limit was reached, has made one more step. A step whose action fails, or
leaves no instruction pointer, calls that action once, and what the action leaves is neither moved on
nor reset. There are no other traps. -/
theorem step_of_fault (m : Machine V σ) :
    (∀ r, m.Prevented r →
      m.step = ({ m with
        running := false
        steps := if m.reachedLimit? = none then m.steps + 1 else m.steps }, r.events) ∧
      ∀ calls, (m.noting calls).step = (m.step.1.noting calls, m.step.2)) ∧
    (∀ i name operands e left, m.Fails i name operands e left →
      m.step = ({ m with workspace := left, running := false, steps := m.steps + 1 },
        (Report.trap (.failedInstruction name i.line i.column e)).events) ∧
      ∀ calls, (m.noting calls).step =
        (m.step.1.noting (calls ++ [⟨name, operands⟩]), m.step.2)) ∧
    ∀ t, .trap t ∈ m.step.2 →
      (∃ r, m.Prevented r) ∨ ∃ i name operands e left, m.Fails i name operands e left := by
  refine ⟨?_, ?_, fun t => prevented_or_fails_of_trap⟩
  · intro r h
    exact ⟨h.step_eq, step_noting_of_not_runs h.not_runs⟩
  · intro i name operands e left h
    obtain ⟨action, hruns⟩ := h.exists_runs
    exact ⟨h.step_eq, step_noting_of_runs hruns⟩

/-- Puts zero on the stack, counts that in what the host keeps, and removes the instruction pointer. -/
def losePointer : Action (Word .int64) Nat := fun _ w =>
  .ok () ⟨w.registers.erase pointerName, .zero :: w.stack, w.host + 1⟩

/-- A machine over one instruction with an operand, which loses the instruction pointer, and with so
many steps allowed. -/
def losing (limit : Nat) : Machine (Word .int64) Nat :=
  ofProgram "section .text\nlose it" ⟨[], [⟨⟨14, 18⟩, [⟨19, 21⟩], none, 2, 7⟩]⟩
    (.defineInstruction .empty "lose" losePointer) ⟨1, some limit⟩ 0

/-- The step calls the action with the operand and leaves the machine without the pointer; it calls
nothing where no step is allowed. -/
theorem step_of_fault_losing :
    ((losing 1).noting []).step.1.workspace.host = (1, [⟨"lose", ["it"]⟩]) ∧
      (losing 1).step.1.workspace.stack = [.zero] ∧ (losing 1).step.1.steps = 1 ∧
      (losing 1).step.1.pointer? = none ∧
      (∃ i name operands e left, (losing 1).Fails i name operands e left) ∧
      ((losing 0).noting []).step = ((losing 0).stop.noting [], [.trap (.stepLimit 0)]) := by
  have hpoints : (losing 1).PointsTo 0 := ⟨rfl, .zero, rfl, rfl⟩
  have hruns : (losing 1).Runs ⟨⟨14, 18⟩, [⟨19, 21⟩], none, 2, 7⟩ "lose" ["it"] losePointer :=
    ⟨⟨0, hpoints, rfl⟩, rfl, rfl⟩
  have hfails : (losing 1).Fails _ _ _ .pointerNotInteger _ := .lostPointer hruns rfl rfl
  have hprevented : (losing 0).Prevented (.trap (.stepLimit 0)) := .atLimit rfl
  obtain ⟨hstep, hcalls⟩ := (step_of_fault (losing 1)).2.1 _ _ _ _ _ hfails
  obtain ⟨hstop, hnone⟩ := (step_of_fault (losing 0)).1 _ hprevented
  have htrap : .trap (.failedInstruction "lose" 2 7 .pointerNotInteger) ∈ (losing 1).step.2 := by
    rw [hstep]
    exact List.mem_singleton_self _
  have hcause := ((step_of_fault (losing 1)).2.2 _ htrap).resolve_left
    fun ⟨_, h⟩ => h.not_runs _ _ _ _ hruns
  refine ⟨?_, ?_, ?_, ?_, hcause, ?_⟩
  · rw [hcalls, hstep]
    rfl
  · rw [hstep]
    rfl
  · rw [hstep]
    rfl
  · rw [hstep]
    rfl
  · rw [hnone, hstop]
    rfl

end Mnemonic.Machine
