import Mnemonic.Proofs.Running.Lockstep

set_option autoImplicit false

/-!
# What the host keeps

Actions may read and change what the host keeps besides the registers and the stack. An action is
stateless when it does not depend on that: what it does to the registers and to the stack, and whether
and why it fails, is a function of the registers, the stack and its operands. Then nothing of what the
host keeps shows in a machine.

Main statement: machines with stateless actions that differ only in what their hosts keep show the same
under every script (`performAll_withHost`).
-/

namespace Mnemonic

namespace Action

variable {V σ : Type}

/-- What shows of the result of an action: why it failed, if it did, the registers and the stack. -/
def shown : EStateM.Result ActionError (Workspace V σ) Unit →
    Option ActionError × NameMap V × List V
  | .ok _ w => (none, w.registers, w.stack)
  | .error e w => (some e, w.registers, w.stack)

/-- What shows of the action is a function of its operands, the registers and the stack. -/
def Stateless (action : Action V σ) : Prop :=
  ∃ f : List String → NameMap V → List V → Option ActionError × NameMap V × List V,
    ∀ operands w, shown (action operands w) = f operands w.registers w.stack

theorem Stateless.shown_eq {action : Action V σ} (h : Stateless action) (operands : List String)
    (w : Workspace V σ) (host : σ) :
    shown (action operands { w with host }) = shown (action operands w) := by
  obtain ⟨f, hf⟩ := h
  rw [hf, hf]

theorem Stateless.error {action : Action V σ} (h : Stateless action) {operands : List String}
    {w w' : Workspace V σ} {e : ActionError} (haction : action operands w = .error e w') (host : σ) :
    ∃ host', action operands { w with host } = .error e { w' with host := host' } := by
  have hshown := h.shown_eq operands w host
  rw [haction] at hshown
  cases hother : action operands { w with host } with
  | ok u other => simp [hother, shown] at hshown
  | error e' other =>
      simp only [hother, shown, Prod.mk.injEq, Option.some.injEq] at hshown
      obtain ⟨rfl, hregisters, hstack⟩ := hshown
      refine ⟨other.host, ?_⟩
      rw [← hregisters, ← hstack]

theorem Stateless.ok {action : Action V σ} (h : Stateless action) {operands : List String}
    {w w' : Workspace V σ} (haction : action operands w = .ok () w') (host : σ) :
    ∃ host', action operands { w with host } = .ok () { w' with host := host' } := by
  have hshown := h.shown_eq operands w host
  rw [haction] at hshown
  cases hother : action operands { w with host } with
  | error e other => simp [hother, shown] at hshown
  | ok u other =>
      simp only [hother, shown, Prod.mk.injEq, true_and] at hshown
      obtain ⟨hregisters, hstack⟩ := hshown
      refine ⟨other.host, ?_⟩
      rw [← hregisters, ← hstack]

end Action

namespace Machine

variable {V σ ρ : Type} [HoldsPointer V]

/-! ## Steps -/

/-- Every action of the machine is stateless. -/
def Stateless (m : Machine V σ) : Prop :=
  ∀ name action, m.actions.get? name = some action → Action.Stateless action

theorem PointsTo.withHost {m : Machine V σ} {n : Nat} (h : m.PointsTo n) (host : σ) :
    (m.withHost host).PointsTo n :=
  ⟨h.allowed, h.pointer⟩

theorem Runs.withHost {m : Machine V σ} {i : Instruction} {name : String} {operands : List String}
    {action : Action V σ} (h : m.Runs i name operands action) (host : σ) :
    (m.withHost host).Runs i name operands action := by
  obtain ⟨⟨n, hpoints, htext⟩, hfetch, hname⟩ := h
  exact ⟨⟨n, hpoints.withHost host, htext⟩, hfetch, hname⟩

theorem HasOutcome.withHost {m : Machine V σ} {outcome : Machine V σ × List Event}
    (h : HasOutcome m outcome) (hstateless : m.Stateless) (host : σ) :
    ∃ host', HasOutcome (m.withHost host) (outcome.1.withHost host', outcome.2) := by
  cases h with
  | atLimit h => exact ⟨host, .atLimit h⟩
  | noPointer hallowed h => exact ⟨host, .noPointer hallowed h⟩
  | outOfRange hallowed h hneg => exact ⟨host, .outOfRange hallowed h hneg⟩
  | finished h htext => exact ⟨host, .finished (h.withHost host) htext⟩
  | mismatched h htext hfetch => exact ⟨host, .mismatched (h.withHost host) htext hfetch⟩
  | undefined h htext hfetch hname =>
      exact ⟨host, .undefined (h.withHost host) htext hfetch hname⟩
  | failed h haction =>
      obtain ⟨host', hother⟩ := (hstateless _ _ h.defined).error haction host
      exact ⟨host', .failed (h.withHost host) hother⟩
  | lostPointer h haction hpointer =>
      obtain ⟨host', hother⟩ := (hstateless _ _ h.defined).ok haction host
      exact ⟨host', .lostPointer (h.withHost host) hother hpointer⟩
  | advanced h haction hpointer =>
      obtain ⟨host', hother⟩ := (hstateless _ _ h.defined).ok haction host
      exact ⟨host', .advanced (h.withHost host) hother hpointer⟩

/-- What the host keeps shows in a step only in what the host keeps afterwards. -/
theorem step_withHost {m : Machine V σ} (h : m.Stateless) (host : σ) :
    ∃ host', (m.withHost host).step = (m.step.1.withHost host', m.step.2) := by
  obtain ⟨host', houtcome⟩ := (hasOutcome_step m).withHost h host
  exact ⟨host', houtcome.step_eq⟩

theorem Stateless.step {m : Machine V σ} (h : m.Stateless) : m.step.1.Stateless := by
  intro name action haction
  rw [actions_step] at haction
  exact h name action haction

/-- Machines with stateless actions that differ only in what their hosts keep go on so, and report the
same. -/
theorem lockstep_withHost : Lockstep (fun e => e) Eq
    (fun m m' : Machine V σ => m.Stateless ∧ ∃ host, m' = m.withHost host) fun _ => True where
  isView := Event.isView_id
  running := by
    rintro m _ ⟨-, host, rfl⟩
    rfl
  config := by
    rintro m _ ⟨-, host, rfl⟩
    rfl
  registers := by
    rintro m _ ⟨-, host, rfl⟩
    rfl
  step := by
    rintro m _ ⟨h, host, rfl⟩ -
    obtain ⟨host', hstep⟩ := step_withHost h host
    rw [hstep]
    exact ⟨⟨h.step, host', rfl⟩, rfl⟩
  execute := by
    rintro m _ ⟨h, host, rfl⟩
    exact ⟨h, host, rfl⟩
  stop := by
    rintro m _ ⟨h, host, rfl⟩
    exact ⟨h, host, rfl⟩
  reset := by
    rintro m _ ⟨h, host, rfl⟩
    exact ⟨h, host, rfl⟩
  writeRegisters := by
    rintro m _ registers _ ⟨h, host, rfl⟩ rfl
    exact ⟨h, host, rfl⟩

/-- What shows of a machine: the registers, the stack, whether it is running, and how many steps it
made since the last reset. -/
def seen (m : Machine V σ) : NameMap V × List V × Bool × Nat :=
  (m.workspace.registers, m.workspace.stack, m.running, m.steps)

end Machine

/-! ## Scripts -/

namespace Attended

variable {V σ τ ρ : Type} [HoldsPointer V]

/-- The machine with something else that its host keeps, and the same listeners. -/
def withHost (a : Attended V σ τ) (host : σ) : Attended V σ τ :=
  { a with machine := a.machine.withHost host }

/-- What the host keeps shows under a script only in what the host keeps afterwards. -/
theorem performAll_withHost {a : Attended V σ τ} (h : a.machine.Stateless) (host : σ) (fuel : Nat)
    (s : ρ) (script : List (Operation V τ ρ)) :
    ∃ host', (a.withHost host).performAll fuel s script =
      (a.performAll fuel s script).map fun (a, s, reports) => (a.withHost host', s, reports) := by
  have hscripts : List.Forall₂ (Operation.Alike Eq) script script :=
    List.forall₂_same.2 fun op _ => op.alike_refl
  have hends := Machine.lockstep_withHost.performAll (a := a) ⟨h, host, rfl⟩ s hscripts
    fun v (_ : v ∈ a.steppedAll fuel s script) => trivial
  generalize hafter : a.performAll fuel s script = after,
    hother : Attended.performAll fuel ⟨a.machine.withHost host, a.listeners⟩ s script = other at hends
  cases hends with
  | none => exact ⟨host, hother⟩
  | @some after other hends =>
      obtain ⟨a₁, s₁, reports⟩ := after
      obtain ⟨⟨m₁, listeners⟩, s₂, reports'⟩ := other
      obtain ⟨⟨-, host', hmachine⟩, hlisteners, hpacer, hreports⟩ := hends
      rw [Listeners.shown_id, Listeners.shown_id] at hreports
      obtain rfl : m₁ = a₁.machine.withHost host' := hmachine
      obtain rfl : listeners = a₁.listeners := hlisteners
      obtain rfl : s₂ = s₁ := hpacer
      obtain rfl : reports' = reports := hreports
      exact ⟨host', hother⟩

end Attended

end Mnemonic
