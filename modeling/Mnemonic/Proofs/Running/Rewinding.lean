import Mnemonic.Proofs.Running.Hosts
import Mnemonic.Proofs.Running.Reports

set_option autoImplicit false

/-!
# Going back to the start

A reset takes a machine back to the registers that it was built with, and so does the step that finishes
the program. Whatever was done to the machine before, it is then the machine that would be built anew,
but for what its host keeps. If the actions are stateless that does not show either, and the machine goes
on as a new one under every script.

Main statement: a machine that went back to its start against a new one (`rewound_eq_new`).
-/

namespace Mnemonic

open HoldsPointer

/-! ## Instruction sets by definitions -/

/-- A register or an instruction that is defined for an instruction set. -/
inductive Definition (V σ : Type) where
  | register (name : String) (value : V)
  | instruction (name : String) (action : Action V σ)

/-- The value that a definition gives the register of a name. -/
def Definition.value? {V σ : Type} (name : String) : Definition V σ → Option V
  | register other value => if other = name then some value else none
  | instruction _ _ => none

namespace InstructionSet

variable {V σ : Type}

/-- The instruction set with a definition more. -/
def define (set : InstructionSet V σ) : Definition V σ → InstructionSet V σ
  | .register name value => set.defineRegister name value
  | .instruction name action => set.defineInstruction name action

/-- The instruction set of a list of definitions, which are made one after the other. -/
def ofDefinitions (definitions : List (Definition V σ)) : InstructionSet V σ :=
  definitions.foldl define .empty

theorem get?_registers_define (set : InstructionSet V σ) (d : Definition V σ) (name : String) :
    (set.define d).registers.get? name = (d.value? name).or (set.registers.get? name) := by
  cases d with
  | register other value =>
      by_cases h : other = name <;> simp [define, defineRegister, Definition.value?, h]
  | instruction => rfl

theorem get?_registers_foldl_define (definitions : List (Definition V σ))
    (set : InstructionSet V σ) (name : String) :
    (definitions.foldl define set).registers.get? name =
      (definitions.filterMap (·.value? name)).getLast?.or (set.registers.get? name) := by
  induction definitions generalizing set with
  | nil => rfl
  | cons d definitions ih =>
      rw [List.foldl_cons, ih, get?_registers_define]
      cases hvalue : d.value? name with
      | none => simp [hvalue]
      | some value =>
          rw [List.filterMap_cons_some hvalue, List.getLast?_cons]
          cases (definitions.filterMap (·.value? name)).getLast? <;> rfl

/-- A register has the value of its last definition. -/
theorem get?_registers_ofDefinitions (definitions : List (Definition V σ)) (name : String) :
    (ofDefinitions definitions).registers.get? name =
      (definitions.filterMap (·.value? name)).getLast? := by
  rw [ofDefinitions, get?_registers_foldl_define]
  simp [empty]

end InstructionSet

namespace Machine

variable {V σ τ ρ : Type} [HoldsPointer V]

/-! ## The start of a machine -/

/-- Nothing that is done to a machine changes what a reset goes back to, but for what the host keeps. -/
theorem invariant_reset (start : Machine V σ) :
    Invariant (fun m : Machine V σ => m.reset = start.withHost m.workspace.host) fun _ => True where
  step m hm := by
    refine ⟨?_, fun _ _ => trivial⟩
    rw [reset_step, hm]
    rfl
  execute _ hm := hm
  stop _ hm := hm
  reset _ hm := hm
  writeRegisters _ _ hm := hm
  writeHost m host hm := by
    have h := congrArg (withHost · host) hm
    exact h

theorem reset_of_reaches {m m' : Machine V σ} {events : List Event} (h : Reaches m events m') :
    m'.reset = m.reset.withHost m'.workspace.host :=
  (h.of_invariant (invariant_reset m.reset) rfl).1

/-- The step that reports the finish resets the machine. -/
theorem step_of_finish {m : Machine V σ} (h : .finish ∈ m.step.2) : m.step.1 = m.reset := by
  have houtcome := hasOutcome_step m
  generalize m.step = outcome at houtcome h
  cases houtcome with
  | finished => rfl
  | _ => simp at h

/-- A run that reports the finish ends with the step that does. -/
theorem Drives.reset_of_finish {pacer : Pacer ρ} {m : Machine V σ} {s : ρ} {o : Outcome V σ ρ}
    (h : Drives pacer m s o) (hfinish : .finish ∈ o.events) : o.machine.reset = o.machine := by
  induction h with
  | idle => simp at hfinish
  | declined => simp at hfinish
  | @granted m s s' o _ _ hlater ih =>
      rcases List.mem_append.1 hfinish with hnow | hafter
      · have hreset := step_of_finish hnow
        have hidle : m.step.1.running = false := by
          rw [hreset]
          rfl
        obtain rfl := hlater.eq_of_idle hidle
        change m.step.1.reset = m.step.1
        rw [hreset]
        rfl
      · exact ih hafter

/-- What takes a machine back to its start: a reset, or whatever makes it report the finish. -/
inductive Rewinds : Machine V σ → Machine V σ → Prop
  | reset (m : Machine V σ) : Rewinds m m.reset
  | finish {m m' : Machine V σ} {events : List Event} (hdoes : Does m events m')
      (hfinish : .finish ∈ events) : Rewinds m m'

theorem Rewinds.exists_does {m m' : Machine V σ} (h : Rewinds m m') : ∃ events, Does m events m' := by
  cases h with
  | reset => exact ⟨[], .reset m⟩
  | finish hdoes => exact ⟨_, hdoes⟩

/-- There, another reset changes nothing. -/
theorem Rewinds.reset_eq {m m' : Machine V σ} (h : Rewinds m m') : m'.reset = m' := by
  cases h with
  | reset => rfl
  | finish hdoes hfinish =>
      cases hdoes with
      | step =>
          rw [step_of_finish hfinish]
          rfl
      | tick =>
          cases hrunning : m.running with
          | false => simp [tick_of_idle hrunning] at hfinish
          | true =>
              rw [tick_of_running hrunning] at hfinish ⊢
              rw [step_of_finish hfinish]
              rfl
      | run hrun => exact (drives_of_drive hrun).reset_of_finish hfinish
      | _ => simp at hfinish

/-- A machine that went back to its start is a new one, but for what its host keeps. -/
theorem Rewinds.eq_ofProgram {source : String} {program : Program} {set : InstructionSet V σ}
    {config : Config} {host : σ} {m m' : Machine V σ} {events : List Event}
    (hreaches : Reaches (ofProgram source program set config host) events m) (h : Rewinds m m') :
    m' = (ofProgram source program set config host).withHost m'.workspace.host := by
  obtain ⟨more, hdoes⟩ := h.exists_does
  have hreset := reset_of_reaches (hreaches.andThen hdoes)
  rw [h.reset_eq] at hreset
  exact hreset

/-- Whatever is done to a machine, its baseline stays the registers that it was built with, which are
the last definition of each register and zero for the instruction pointer. Whenever it then goes back to
its start, it shows the same as a new machine, and if its actions are stateless, it shows and reports
the same as a new machine with the same listeners under every script. -/
theorem rewound_eq_new (source : String) (program : Program) (definitions : List (Definition V σ))
    (config : Config) (host : σ) {m : Machine V σ} {events : List Event}
    (hreaches : Reaches (ofProgram source program (.ofDefinitions definitions) config host) events m) :
    m.baseline =
      (ofProgram source program (.ofDefinitions definitions) config host).workspace.registers ∧
    (∀ name, m.baseline.get? name =
      if name = pointerName then some (ofPointer .zero)
      else (definitions.filterMap (·.value? name)).getLast?) ∧
    ∀ m', Rewinds m m' →
      m'.seen = (ofProgram source program (.ofDefinitions definitions) config host).seen ∧
      ((∀ name action, (InstructionSet.ofDefinitions definitions).actions.get? name = some action →
          Action.Stateless action) →
        ∀ (newHost : σ) (listeners : Listeners τ) (s : ρ) (fuel : Nat)
          (script : List (Operation V τ ρ)),
          ((⟨m', listeners⟩ : Attended V σ τ).performAll fuel s script).map
              (fun (a, s, reports) => (a.machine.seen, s, reports)) =
            ((⟨ofProgram source program (.ofDefinitions definitions) config newHost, listeners⟩ :
                Attended V σ τ).performAll fuel s script).map
              fun (a, s, reports) => (a.machine.seen, s, reports)) := by
  have hbaseline : m.baseline =
      (ofProgram source program (.ofDefinitions definitions) config host).workspace.registers := by
    have h := congrArg Machine.baseline (reset_of_reaches hreaches)
    exact h
  refine ⟨hbaseline, ?_, ?_⟩
  · intro name
    rw [hbaseline, ofProgram, NameMap.get?_set, InstructionSet.get?_registers_ofDefinitions]
    by_cases hname : name = pointerName
    · rw [if_pos hname, if_pos hname.symm]
    · rw [if_neg hname, if_neg (Ne.symm hname)]
  · intro m' hrewinds
    have hnew := hrewinds.eq_ofProgram hreaches
    refine ⟨by rw [hnew]; rfl, ?_⟩
    intro hstateless newHost listeners s fuel script
    rw [hnew]
    -- a new machine with another host is the new machine with something else that its host keeps
    obtain ⟨host', hscript⟩ := Attended.performAll_withHost
      (a := ⟨ofProgram source program (.ofDefinitions definitions) config newHost, listeners⟩)
      hstateless m'.workspace.host fuel s script
    have hperform : (⟨(ofProgram source program (.ofDefinitions definitions) config host).withHost
        m'.workspace.host, listeners⟩ : Attended V σ τ).performAll fuel s script = _ := hscript
    rw [hperform, Option.map_map]
    rfl

/-- Puts zero on the stack, and counts that without looking at the count. -/
def pushZero : Action (Word .int64) Nat := fun _ =>
  modify fun w => { w with stack := .zero :: w.stack, host := w.host + 1 }

theorem stateless_pushZero : Action.Stateless pushZero :=
  ⟨fun _ registers stack => (none, registers, .zero :: stack), fun _ _ => rfl⟩

/-- Definitions that define a register twice and try to define the instruction pointer. -/
def pushDefinitions : List (Definition (Word .int64) Nat) :=
  [.register "a" (.ofIntOrZero 1), .register "ip" (.ofIntOrZero 9), .instruction "push" pushZero,
    .register "a" (.ofIntOrZero 2)]

/-- A machine over one instruction that puts zero on the stack. -/
def pushOnce (host : Nat) : Machine (Word .int64) Nat :=
  ofProgram "section .text\npush" ⟨[], [⟨⟨14, 18⟩, [], none, 2, 4⟩]⟩ (.ofDefinitions pushDefinitions)
    .standard host

/-- Its second step finishes the program, after which it runs as a new machine does. -/
theorem rewound_eq_new_pushOnce :
    let used := (pushOnce 0).step.1
    used.workspace.stack = [.zero] ∧ used.baseline.get? "a" = some (.ofIntOrZero 2) ∧
      used.baseline.get? "ip" = some .zero ∧ .finish ∈ used.step.2 ∧
      used.step.1.seen = (pushOnce 0).seen ∧
      (((⟨used.step.1, .all "host"⟩ : Attended _ _ String).performAll 4 Pacer.Budget.unlimited
          [.run .immediate]).map fun (a, s, reports) => (a.machine.seen, s, reports)) =
        ((⟨pushOnce 5, .all "host"⟩ : Attended _ _ String).performAll 4 Pacer.Budget.unlimited
          [.run .immediate]).map fun (a, s, reports) => (a.machine.seen, s, reports) := by
  intro used
  have hreaches : Reaches (pushOnce 0) (pushOnce 0).step.2 used := .of_does (.step (pushOnce 0))
  have hfinish : .finish ∈ used.step.2 := by
    have hevents : used.step.2 = [.finish] := rfl
    rw [hevents]
    exact List.mem_singleton_self _
  have hstateless : ∀ name action,
      (InstructionSet.ofDefinitions pushDefinitions).actions.get? name = some action →
        Action.Stateless action := by
    intro name action haction
    have hset : (InstructionSet.ofDefinitions pushDefinitions).actions =
        NameMap.empty.set "push" pushZero := rfl
    rw [hset, NameMap.get?_set] at haction
    split at haction
    · obtain rfl := Option.some.inj haction
      exact stateless_pushZero
    · simp at haction
  obtain ⟨-, hbaseline, hrewound⟩ := rewound_eq_new _ _ pushDefinitions _ _ hreaches
  obtain ⟨hseen, hscripts⟩ := hrewound _ (.finish (.step used) hfinish)
  exact ⟨rfl, hbaseline "a", hbaseline "ip", hfinish, hseen, hscripts hstateless 5 _ _ _ _⟩

end Machine

end Mnemonic
