import Mnemonic.Machine.Step

set_option autoImplicit false

/-!
# The outcomes of a step

A step ends in one of nine ways. Each of them is told apart by what the machine holds before the step
and by what the action does, and each determines the machine after the step and what is reported.

Main statements: every step ends in one of these ways (`hasOutcome_step`), and in one only
(`HasOutcome.step_eq`). What is said of all steps is said of each outcome, without looking into the
step again.
-/

namespace Mnemonic.Machine

variable {V σ : Type} [HoldsPointer V]

omit [HoldsPointer V] in
/-- A step is allowed as long as fewer were made than the limit says. -/
theorem reachedLimit?_eq_none_iff {m : Machine V σ} :
    m.reachedLimit? = none ↔ ∀ limit ∈ m.config.maxSteps, m.steps < limit := by
  simp [reachedLimit?, Option.filter_eq_none_iff]

/-- A step is allowed, and the instruction pointer is the number of an instruction, if the program has
so many. -/
structure PointsTo (m : Machine V σ) (n : Nat) : Prop where
  allowed : m.reachedLimit? = none
  pointer : ∃ ip, m.pointer? = some ip ∧ ip.val = n

/-- The next step runs an action for an instruction. -/
structure Runs (m : Machine V σ) (i : Instruction) (name : String) (operands : List String)
    (action : Action V σ) : Prop where
  pointed : ∃ n, m.PointsTo n ∧ m.program.text[n]? = some i
  fetched : m.fetch? i = some (name, operands)
  defined : m.actions.get? name = some action

/-- The machine with another workspace. -/
def withWorkspace (m : Machine V σ) (workspace : Workspace V σ) : Machine V σ := { m with workspace }

/-- The machine with something else that its host keeps. -/
def withHost (m : Machine V σ) (host : σ) : Machine V σ :=
  m.withWorkspace { m.workspace with host }

/-- The ways in which a step can end. -/
inductive HasOutcome (m : Machine V σ) : Machine V σ × List Event → Prop
  | atLimit {limit : Nat} (h : m.reachedLimit? = some limit) :
      HasOutcome m (m.stop, [.trap (.stepLimit limit)])
  | noPointer (hallowed : m.reachedLimit? = none) (h : m.pointer? = none) :
      HasOutcome m (m.counted.stop, [.trap .pointerNotInteger])
  | outOfRange {ip : Int64Word} (hallowed : m.reachedLimit? = none) (h : m.pointer? = some ip)
      (hneg : ip.val < 0) : HasOutcome m (m.counted.stop, [.trap (.pointerOutOfRange ip.val)])
  | finished {n : Nat} (h : m.PointsTo n) (htext : m.program.text[n]? = none) :
      HasOutcome m (m.counted.reset, [.finish])
  | mismatched {n : Nat} {i : Instruction} (h : m.PointsTo n)
      (htext : m.program.text[n]? = some i) (hfetch : m.fetch? i = none) :
      HasOutcome m (m.counted.stop, [.trap (.sourceMismatch i.line i.column)])
  | undefined {n : Nat} {i : Instruction} {name : String} {operands : List String}
      (h : m.PointsTo n) (htext : m.program.text[n]? = some i)
      (hfetch : m.fetch? i = some (name, operands)) (hname : m.actions.get? name = none) :
      HasOutcome m (m.counted.stop, [.trap (.illegalInstruction name i.line i.column),
        .trap (.failedInstruction name i.line i.column (.undefinedInstruction name))])
  | failed {i : Instruction} {name : String} {operands : List String} {action : Action V σ}
      {e : ActionError} {workspace : Workspace V σ} (h : m.Runs i name operands action)
      (haction : action operands m.workspace = .error e workspace) :
      HasOutcome m ((m.counted.withWorkspace workspace).stop,
        [.trap (.failedInstruction name i.line i.column e)])
  | lostPointer {i : Instruction} {name : String} {operands : List String} {action : Action V σ}
      {workspace : Workspace V σ} (h : m.Runs i name operands action)
      (haction : action operands m.workspace = .ok () workspace)
      (hpointer : (m.withWorkspace workspace).pointer? = none) :
      HasOutcome m ((m.counted.withWorkspace workspace).stop,
        [.trap (.failedInstruction name i.line i.column .pointerNotInteger)])
  | advanced {i : Instruction} {name : String} {operands : List String} {action : Action V σ}
      {workspace : Workspace V σ} {ip : Int64Word} (h : m.Runs i name operands action)
      (haction : action operands m.workspace = .ok () workspace)
      (hpointer : (m.withWorkspace workspace).pointer? = some ip) :
      HasOutcome m ((m.counted.withWorkspace workspace).setRegister pointerName
        (HoldsPointer.ofPointer (nextPointer ip)), [])

/-! ## Outcomes as steps -/

section Counted

variable (m : Machine V σ)

@[simp] theorem pointer?_counted : m.counted.pointer? = m.pointer? := rfl

omit [HoldsPointer V]

@[simp] theorem program_counted : m.counted.program = m.program := rfl

@[simp] theorem actions_counted : m.counted.actions = m.actions := rfl

@[simp] theorem workspace_counted : m.counted.workspace = m.workspace := rfl

@[simp] theorem fetch?_counted (i : Instruction) : m.counted.fetch? i = m.fetch? i := rfl

end Counted

theorem step_of_pointsTo {m : Machine V σ} {n : Nat} (h : m.PointsTo n) :
    m.step = m.counted.performAt n := by
  obtain ⟨hallowed, ip, hpointer, hn⟩ := h
  have hnonneg : ¬ip.val < 0 := by omega
  have hnat : ip.val.toNat = n := by omega
  rw [step, hallowed]
  simp only [runInstruction, pointer?_counted, hpointer, if_neg hnonneg, hnat]

/-- A step that runs an action ends as the action does. -/
theorem step_of_runs {m : Machine V σ} {i : Instruction} {name : String} {operands : List String}
    {action : Action V σ} (h : m.Runs i name operands action) :
    m.step = m.counted.runAction i name operands action := by
  obtain ⟨⟨n, hpoints, htext⟩, hfetch, hdefined⟩ := h
  rw [step_of_pointsTo hpoints]
  simp only [performAt, program_counted, htext, perform, fetch?_counted, hfetch, dispatch,
    actions_counted, hdefined]

/-- When the action succeeds and leaves an instruction pointer, the step moves it one on. -/
theorem step_of_runs_of_ok {m : Machine V σ} {i : Instruction} {name : String}
    {operands : List String} {action : Action V σ} {workspace : Workspace V σ} {ip : Int64Word}
    (h : m.Runs i name operands action) (haction : action operands m.workspace = .ok () workspace)
    (hpointer : (m.withWorkspace workspace).pointer? = some ip) :
    m.step = ((m.counted.withWorkspace workspace).setRegister pointerName
      (HoldsPointer.ofPointer (nextPointer ip)), []) := by
  have hleft : ({ m.counted with workspace } : Machine V σ).pointer? = some ip := hpointer
  rw [step_of_runs h, runAction, workspace_counted, haction]
  simp only [hleft]
  rfl

/-- An outcome says what the step is. -/
theorem HasOutcome.step_eq {m : Machine V σ} {outcome : Machine V σ × List Event}
    (h : HasOutcome m outcome) : m.step = outcome := by
  cases h with
  | atLimit h =>
      rw [step, h]
      rfl
  | noPointer hallowed h =>
      rw [step, hallowed]
      simp only [runInstruction, pointer?_counted, h]
      rfl
  | outOfRange hallowed h hneg =>
      rw [step, hallowed]
      simp only [runInstruction, pointer?_counted, h, if_pos hneg]
      rfl
  | finished h htext => rw [step_of_pointsTo h, performAt, program_counted, htext]
  | mismatched h htext hfetch =>
      rw [step_of_pointsTo h]
      simp only [performAt, program_counted, htext, perform, fetch?_counted, hfetch]
      rfl
  | undefined h htext hfetch hname =>
      rw [step_of_pointsTo h]
      simp only [performAt, program_counted, htext, perform, fetch?_counted, hfetch, dispatch,
        actions_counted, hname]
  | failed h haction =>
      rw [step_of_runs h, runAction, workspace_counted, haction]
      rfl
  | @lostPointer _ _ _ _ workspace h haction hpointer =>
      have hlost : ({ m.counted with workspace } : Machine V σ).pointer? = none := hpointer
      rw [step_of_runs h, runAction, workspace_counted, haction]
      simp only [hlost]
      rfl
  | advanced h haction hpointer => exact step_of_runs_of_ok h haction hpointer

theorem exists_hasOutcome_of_runs {m : Machine V σ} {i : Instruction} {name : String}
    {operands : List String} {action : Action V σ} (h : m.Runs i name operands action) :
    ∃ outcome, HasOutcome m outcome := by
  cases haction : action operands m.workspace with
  | error e workspace => exact ⟨_, .failed h haction⟩
  | ok u workspace =>
      cases hpointer : (m.withWorkspace workspace).pointer? with
      | none => exact ⟨_, .lostPointer h haction hpointer⟩
      | some ip => exact ⟨_, .advanced h haction hpointer⟩

theorem exists_hasOutcome (m : Machine V σ) : ∃ outcome, HasOutcome m outcome := by
  cases hallowed : m.reachedLimit? with
  | some limit => exact ⟨_, .atLimit hallowed⟩
  | none =>
      cases hpointer : m.pointer? with
      | none => exact ⟨_, .noPointer hallowed hpointer⟩
      | some ip =>
          by_cases hneg : ip.val < 0
          · exact ⟨_, .outOfRange hallowed hpointer hneg⟩
          · have hpoints : m.PointsTo ip.val.toNat :=
              ⟨hallowed, ip, hpointer, (Int.toNat_of_nonneg (by omega)).symm⟩
            cases htext : m.program.text[ip.val.toNat]? with
            | none => exact ⟨_, .finished hpoints htext⟩
            | some i =>
                cases hfetch : m.fetch? i with
                | none => exact ⟨_, .mismatched hpoints htext hfetch⟩
                | some found =>
                    cases hname : m.actions.get? found.1 with
                    | none => exact ⟨_, .undefined hpoints htext hfetch hname⟩
                    | some action =>
                        exact exists_hasOutcome_of_runs ⟨⟨_, hpoints, htext⟩, hfetch, hname⟩

/-- Every step ends in one of the ways. -/
theorem hasOutcome_step (m : Machine V σ) : HasOutcome m m.step := by
  obtain ⟨outcome, h⟩ := exists_hasOutcome m
  rwa [h.step_eq]

/-- A reset goes back to the same machine after a step as before it, but for what the host keeps. -/
theorem reset_step (m : Machine V σ) : m.step.1.reset = m.reset.withHost m.step.1.workspace.host := by
  have houtcome := hasOutcome_step m
  generalize m.step = outcome at houtcome
  cases houtcome <;> rfl

theorem config_step (m : Machine V σ) : m.step.1.config = m.config := by
  have h := congrArg Machine.config (reset_step m)
  exact h

theorem actions_step (m : Machine V σ) : m.step.1.actions = m.actions := by
  have h := congrArg Machine.actions (reset_step m)
  exact h

end Mnemonic.Machine
