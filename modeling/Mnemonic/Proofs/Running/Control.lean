import Mnemonic.Machine.Listeners
import Mnemonic.Proofs.Running.Ticks

set_option autoImplicit false

/-!
# Control

A host controls a machine: it starts and stops it, ticks and steps it, and changes who listens to it.
Whether the machine is running matters to its ticks only, and who listens matters to nothing that the
machine does. So a host that controls a machine for a while has made a number of steps, and the machine
computed what these steps compute, whatever was done between them.

Main statement: a machine under control against the same machine that is only stepped
(`controlAll_eq_steps`).
-/

namespace Mnemonic

/-- One thing that a host does to control a machine. -/
inductive Control (τ : Type) where
  | execute
  | stop
  | tick
  | step
  /-- replaces the listener for traps, or removes it -/
  | onTrap (listener : Option τ)
  /-- replaces the listener for the finish, or removes it -/
  | onFinish (listener : Option τ)
  deriving Repr

namespace Listeners

variable {τ : Type}

/-- The events, each with the one who hears it, if there is one. -/
def address (l : Listeners τ) (events : List Event) : List (Option τ × Event) :=
  events.map fun e => (l.listener? e, e)

@[simp] theorem map_snd_address (l : Listeners τ) (events : List Event) :
    (l.address events).map Prod.snd = events := by
  simp [address, Function.comp_def]

end Listeners

/-- A machine with those who listen to it. -/
structure Attended (V σ τ : Type) where
  machine : Machine V σ
  listeners : Listeners τ

namespace Machine

variable {V σ : Type} [HoldsPointer V]

/-! ## Steps of a stopped machine -/

section Stopped

omit [HoldsPointer V]

@[simp] theorem workspace_stop (m : Machine V σ) : m.stop.workspace = m.workspace := rfl

@[simp] theorem steps_stop (m : Machine V σ) : m.stop.steps = m.steps := rfl

end Stopped

theorem PointsTo.stop {m : Machine V σ} {n : Nat} (h : m.PointsTo n) : m.stop.PointsTo n :=
  ⟨h.allowed, h.pointer⟩

theorem Runs.stop {m : Machine V σ} {i : Instruction} {name : String} {operands : List String}
    {action : Action V σ} (h : m.Runs i name operands action) :
    m.stop.Runs i name operands action := by
  obtain ⟨⟨n, hpoints, htext⟩, hfetch, hname⟩ := h
  exact ⟨⟨n, hpoints.stop, htext⟩, hfetch, hname⟩

theorem HasOutcome.stop {m : Machine V σ} {outcome : Machine V σ × List Event}
    (h : HasOutcome m outcome) : HasOutcome m.stop (outcome.1.stop, outcome.2) := by
  cases h with
  | atLimit h => exact .atLimit h
  | noPointer hallowed h => exact .noPointer hallowed h
  | outOfRange hallowed h hneg => exact .outOfRange hallowed h hneg
  | finished h htext => exact .finished h.stop htext
  | mismatched h htext hfetch => exact .mismatched h.stop htext hfetch
  | undefined h htext hfetch hname => exact .undefined h.stop htext hfetch hname
  | failed h haction => exact .failed h.stop haction
  | lostPointer h haction hpointer => exact .lostPointer h.stop haction hpointer
  | advanced h haction hpointer => exact .advanced h.stop haction hpointer

/-- A machine makes the same step stopped as running. -/
theorem step_stop (m : Machine V σ) : m.stop.step = (m.step.1.stop, m.step.2) :=
  (hasOutcome_step m).stop.step_eq

/-- Machines that differ only in whether they are running make the same step. -/
theorem step_of_stop_eq {m n : Machine V σ} (h : m.stop = n.stop) :
    m.step.1.stop = n.step.1.stop ∧ m.step.2 = n.step.2 := by
  have hstep : m.stop.step = n.stop.step := by rw [h]
  rw [step_stop, step_stop] at hstep
  exact Prod.mk.inj hstep

end Machine

/-! ## Sequences of controls -/

namespace Control

variable {τ : Type}

/-- The control makes a step of a machine that is running or idle. -/
def makesStep (running : Bool) : Control τ → Bool
  | step => true
  | tick => running
  | _ => false

end Control

namespace Attended

variable {V σ τ : Type} [HoldsPointer V]

/-- Does what a control says. What is reported goes to those who listen at that time. -/
def control (a : Attended V σ τ) : Control τ → Attended V σ τ × List (Option τ × Event)
  | .execute => ({ a with machine := a.machine.execute }, [])
  | .stop => ({ a with machine := a.machine.stop }, [])
  | .tick => ({ a with machine := a.machine.tick.1 }, a.listeners.address a.machine.tick.2)
  | .step => ({ a with machine := a.machine.step.1 }, a.listeners.address a.machine.step.2)
  | .onTrap listener => ({ a with listeners := { a.listeners with onTrap := listener } }, [])
  | .onFinish listener => ({ a with listeners := { a.listeners with onFinish := listener } }, [])

/-- Does what several controls say, one after the other, and collects what is reported. -/
def controlAll (a : Attended V σ τ) :
    List (Control τ) → Attended V σ τ × List (Option τ × Event)
  | [] => (a, [])
  | c :: controls =>
      let (a, reports) := a.control c
      let (a, later) := a.controlAll controls
      (a, reports ++ later)

/-- How many steps the machine makes under several controls. -/
def stepsMade (a : Attended V σ τ) : List (Control τ) → Nat
  | [] => 0
  | c :: controls =>
      (if c.makesStep a.machine.running then 1 else 0) + (a.control c).1.stepsMade controls

theorem control_of_makesStep {a : Attended V σ τ} {c : Control τ}
    (h : c.makesStep a.machine.running = true) :
    (a.control c).1.machine = a.machine.step.1 ∧
      (a.control c).2.map Prod.snd = a.machine.step.2 := by
  cases c with
  | step => simp [control]
  | tick => simp [control, Machine.tick_of_running h]
  | _ => simp [Control.makesStep] at h

theorem control_of_not_makesStep {a : Attended V σ τ} {c : Control τ}
    (h : c.makesStep a.machine.running = false) :
    (a.control c).1.machine.stop = a.machine.stop ∧ (a.control c).2 = [] := by
  cases c with
  | step => simp [Control.makesStep] at h
  | tick => simp [control, Machine.tick_of_idle h, Listeners.address]
  | _ => exact ⟨rfl, rfl⟩

/-- Control keeps a machine in step with one that is only stepped. The two may differ in whether they
are running, so they are compared as they are when stopped. -/
theorem controlAll_of_stop_eq {a : Attended V σ τ} {m : Machine V σ}
    (h : a.machine.stop = m.stop) (controls : List (Control τ)) :
    (a.controlAll controls).1.machine.stop =
        (Machine.times Machine.step (a.stepsMade controls) m).1.stop ∧
      (a.controlAll controls).2.map Prod.snd =
        (Machine.times Machine.step (a.stepsMade controls) m).2 := by
  induction controls generalizing a m with
  | nil => exact ⟨h, rfl⟩
  | cons c controls ih =>
      cases hstep : c.makesStep a.machine.running with
      | true =>
          obtain ⟨hmachine, hreports⟩ := control_of_makesStep hstep
          obtain ⟨hstop, hevents⟩ := Machine.step_of_stop_eq h
          have hafter : (a.control c).1.machine.stop = m.step.1.stop := by
            rw [hmachine, hstop]
          obtain ⟨hend, hlater⟩ := ih hafter
          simp only [stepsMade, hstep, if_true, Nat.add_comm 1, Machine.times_succ]
          refine ⟨hend, ?_⟩
          rw [controlAll, List.map_append, hreports, hlater, hevents]
      | false =>
          obtain ⟨hmachine, hreports⟩ := control_of_not_makesStep hstep
          obtain ⟨hend, hlater⟩ := ih (hmachine.trans h)
          simp only [stepsMade, hstep, Bool.false_eq_true, if_false, Nat.zero_add]
          refine ⟨hend, ?_⟩
          rw [controlAll, List.map_append, hreports, hlater]
          rfl

/-- Whatever a host does to control a machine, and whoever it lets listen, the registers, the stack,
what the host's actions keep, the number of steps and the events are those of the steps that the machine
made. -/
theorem controlAll_eq_steps (a : Attended V σ τ) (controls : List (Control τ)) :
    let after := (a.controlAll controls).1.machine
    let stepped := Machine.times Machine.step (a.stepsMade controls) a.machine
    after.workspace.registers = stepped.1.workspace.registers ∧
      after.workspace.stack = stepped.1.workspace.stack ∧
      after.workspace.host = stepped.1.workspace.host ∧ after.steps = stepped.1.steps ∧
      (a.controlAll controls).2.map Prod.snd = stepped.2 := by
  intro after stepped
  obtain ⟨hstop, hevents⟩ := controlAll_of_stop_eq (rfl : a.machine.stop = a.machine.stop) controls
  have hworkspace : after.workspace = stepped.1.workspace := by
    simpa using congrArg Machine.workspace hstop
  have hsteps : after.steps = stepped.1.steps := by
    simpa using congrArg Machine.steps hstop
  rw [hworkspace]
  exact ⟨rfl, rfl, rfl, hsteps, hevents⟩

/-- A machine over an instruction that does nothing and one that has no action, and a listener for its
traps. -/
def tripping : Attended (Word .int64) Unit String where
  machine := .ofProgram "section .text\nnop\ntrip"
    ⟨[], [⟨⟨14, 17⟩, [], none, 2, 3⟩, ⟨⟨18, 22⟩, [], none, 3, 4⟩]⟩
    (InstructionSet.empty.defineInstruction "nop" fun _ => pure ()) .standard ()
  listeners := ⟨some "host", none⟩

/-- The second of three ticks makes the machine trip and go idle, so the third does nothing. Started again,
and with nobody listening any more, the machine trips again: of four ticks it made three steps. -/
theorem controlAll_tripping :
    let controls : List (Control String) :=
      [.execute, .tick, .tick, .tick, .onTrap none, .execute, .tick]
    let tripped : List Event := [.trap (.illegalInstruction "trip" 3 4),
      .trap (.failedInstruction "trip" 3 4 (.undefinedInstruction "trip"))]
    let after := tripping.controlAll controls
    tripping.stepsMade controls = 3 ∧
      after.2 = tripped.map (some "host", ·) ++ tripped.map (none, ·) ∧
      after.1.machine.workspace.registers =
        (Machine.times Machine.step 3 tripping.machine).1.workspace.registers ∧
      after.1.machine.steps = (Machine.times Machine.step 3 tripping.machine).1.steps ∧
      (Machine.times Machine.step 3 tripping.machine).2 = tripped ++ tripped := by
  intro controls tripped after
  have hmade : tripping.stepsMade controls = 3 := by decide
  have hreports : after.2 = tripped.map (some "host", ·) ++ tripped.map (none, ·) := by decide
  obtain ⟨hregisters, -, -, hsteps, hevents⟩ := controlAll_eq_steps tripping controls
  rw [hmade] at hregisters hsteps hevents
  refine ⟨hmade, hreports, hregisters, hsteps, ?_⟩
  rw [← hevents]
  exact congrArg (List.map Prod.snd) hreports

end Attended

end Mnemonic
