import Mnemonic.Proofs.Running.Outcomes

set_option autoImplicit false

/-!
# The calls of actions

Which actions a step calls, and with which operands, does not show in the machine. To see it, the
actions of a machine are replaced by ones that note each call in what the host keeps before they do
what they did. Nothing else changes.

Main statement: a step calls one action or none, and it is the one that is due (`step_noting`).
-/

namespace Mnemonic

namespace NameMap

variable {α β : Type}

theorem lookup?_map (f : String → α → β) (name : String) (es : List (String × α)) :
    lookup? name (es.map fun e => (e.1, f e.1 e.2)) = (lookup? name es).map (f name) := by
  induction es with
  | nil => rfl
  | cons e es ih =>
      by_cases hname : e.1 = name
      · simp [lookup?, hname]
      · simp [lookup?, hname, ih]

/-- The map with other values for the same names. -/
def mapNamed (m : NameMap α) (f : String → α → β) : NameMap β :=
  ⟨m.entries.map fun e => (e.1, f e.1 e.2), m.sorted.map _ fun _ _ h => h⟩

@[simp] theorem get?_mapNamed (m : NameMap α) (f : String → α → β) (name : String) :
    (m.mapNamed f).get? name = (m.get? name).map (f name) :=
  lookup?_map f name m.entries

end NameMap

/-- The call of an action: the name of its instruction, and the operands that it got. -/
structure Call where
  name : String
  operands : List String
  deriving DecidableEq, Repr

variable {V σ : Type}

/-- The workspace with notes of calls beside what the host keeps. -/
def Workspace.noting (w : Workspace V σ) (calls : List Call) : Workspace V (σ × List Call) :=
  ⟨w.registers, w.stack, (w.host, calls)⟩

/-- The action of a name, which notes its call. -/
def Action.noting (name : String) (action : Action V σ) : Action V (σ × List Call) :=
  fun operands w =>
    let calls := w.host.2 ++ [⟨name, operands⟩]
    match action operands ⟨w.registers, w.stack, w.host.1⟩ with
    | .ok _ w' => .ok () (w'.noting calls)
    | .error e w' => .error e (w'.noting calls)

namespace Machine

/-- The machine whose actions note their calls, after those that are noted already. -/
def noting (m : Machine V σ) (calls : List Call) : Machine V (σ × List Call) where
  source := m.source
  program := m.program
  workspace := m.workspace.noting calls
  baseline := m.baseline
  actions := m.actions.mapNamed Action.noting
  running := m.running
  config := m.config
  steps := m.steps

theorem get?_actions_noting (m : Machine V σ) (calls : List Call) (name : String) :
    (m.noting calls).actions.get? name = (m.actions.get? name).map (Action.noting name) :=
  m.actions.get?_mapNamed Action.noting name

variable [HoldsPointer V] {m : Machine V σ} {i : Instruction} {name : String}
  {operands : List String} {action : Action V σ}

theorem PointsTo.noting {n : Nat} (h : m.PointsTo n) (calls : List Call) :
    (m.noting calls).PointsTo n :=
  ⟨h.allowed, h.pointer⟩

theorem PointsTo.unique {n n' : Nat} (h : m.PointsTo n) (h' : m.PointsTo n') : n = n' := by
  obtain ⟨-, ip, hpointer, hn⟩ := h
  obtain ⟨-, ip', hpointer', hn'⟩ := h'
  rw [hpointer] at hpointer'
  obtain rfl := Option.some.inj hpointer'
  omega

theorem Runs.noting (h : m.Runs i name operands action) (calls : List Call) :
    (m.noting calls).Runs i name operands (action.noting name) := by
  obtain ⟨⟨n, hpoints, htext⟩, hfetch, hdefined⟩ := h
  refine ⟨⟨n, hpoints.noting calls, htext⟩, hfetch, ?_⟩
  rw [get?_actions_noting, hdefined]
  rfl

/-- A step that runs an action calls it once. -/
theorem step_noting_of_runs (h : m.Runs i name operands action) (calls : List Call) :
    (m.noting calls).step = (m.step.1.noting (calls ++ [⟨name, operands⟩]), m.step.2) := by
  cases haction : action operands m.workspace with
  | error e w =>
      have hnoted : action.noting name operands (m.noting calls).workspace =
          .error e (w.noting (calls ++ [⟨name, operands⟩])) := by
        simp only [Action.noting, Machine.noting, Workspace.noting, haction]
      rw [(HasOutcome.failed h haction).step_eq, (HasOutcome.failed (h.noting calls) hnoted).step_eq]
      rfl
  | ok u w =>
      have hnoted : action.noting name operands (m.noting calls).workspace =
          .ok () (w.noting (calls ++ [⟨name, operands⟩])) := by
        simp only [Action.noting, Machine.noting, Workspace.noting, haction]
      cases hpointer : (m.withWorkspace w).pointer? with
      | none =>
          rw [(HasOutcome.lostPointer h haction hpointer).step_eq,
            (HasOutcome.lostPointer (h.noting calls) hnoted hpointer).step_eq]
          rfl
      | some ip =>
          rw [(HasOutcome.advanced h haction hpointer).step_eq,
            (HasOutcome.advanced (h.noting calls) hnoted hpointer).step_eq]
          rfl

/-- A step that runs no action calls none. -/
theorem step_noting_of_not_runs (h : ∀ i name operands action, ¬m.Runs i name operands action)
    (calls : List Call) : (m.noting calls).step = (m.step.1.noting calls, m.step.2) := by
  have houtcome := hasOutcome_step m
  generalize m.step = outcome at houtcome
  cases houtcome with
  | atLimit hlimit => exact (HasOutcome.atLimit (m := m.noting calls) hlimit).step_eq
  | noPointer hallowed hpointer =>
      exact (HasOutcome.noPointer (m := m.noting calls) hallowed hpointer).step_eq
  | outOfRange hallowed hpointer hneg =>
      exact (HasOutcome.outOfRange (m := m.noting calls) hallowed hpointer hneg).step_eq
  | finished hpoints htext => exact (HasOutcome.finished (hpoints.noting calls) htext).step_eq
  | mismatched hpoints htext hfetch =>
      exact (HasOutcome.mismatched (hpoints.noting calls) htext hfetch).step_eq
  | @undefined _ _ name _ hpoints htext hfetch hname =>
      have hnoted : (m.noting calls).actions.get? name = none := by
        rw [get?_actions_noting, hname]
        rfl
      exact (HasOutcome.undefined (hpoints.noting calls) htext hfetch hnoted).step_eq
  | failed hruns | lostPointer hruns | advanced hruns => exact absurd hruns (h _ _ _ _)

/-- Noting the calls changes nothing else about a step. One call is noted if an action is due, which is
the call of that action with the operands of its instruction, and else none is. -/
theorem step_noting (m : Machine V σ) (calls : List Call) :
    (∃ i name operands action, m.Runs i name operands action ∧
      (m.noting calls).step = (m.step.1.noting (calls ++ [⟨name, operands⟩]), m.step.2)) ∨
    (∀ i name operands action, ¬m.Runs i name operands action) ∧
      (m.noting calls).step = (m.step.1.noting calls, m.step.2) := by
  by_cases h : ∃ i name operands action, m.Runs i name operands action
  · obtain ⟨i, name, operands, action, hruns⟩ := h
    exact .inl ⟨i, name, operands, action, hruns, step_noting_of_runs hruns calls⟩
  · have hnone : ∀ i name operands action, ¬m.Runs i name operands action :=
      fun i name operands action hruns => h ⟨i, name, operands, action, hruns⟩
    exact .inr ⟨hnone, step_noting_of_not_runs hnone calls⟩

end Machine

end Mnemonic
