import Mnemonic.Proofs.Running.Calls
import Mnemonic.Proofs.Running.Scripts

set_option autoImplicit false

/-!
# The steps of a script

A script makes steps: each step that is asked for, each tick of a running machine, and each tick that is
granted in a run. Here these steps are listed by the machines that they are made of. What is done
between two steps is not listed.

Main statements: what steps and everything between them preserve holds of each machine that a step is
made of (`Persistent.forall_steppedAll`); and the calls of a script are those of its steps
(`performAll_noting`).
-/

namespace Mnemonic

/-- The operation is a reset. -/
def Operation.resets {V τ ρ : Type} : Operation V τ ρ → Bool
  | reset => true
  | _ => false

namespace Machine

variable {V σ ρ : Type} [HoldsPointer V]

/-- The machines that the loop of a run makes a step of, one after the other. -/
def stepped (pacer : Pacer ρ) : Nat → Machine V σ → ρ → List (Machine V σ)
  | 0, _, _ => []
  | fuel + 1, m, s =>
      if m.running then
        match pacer.wait m.config.interval s with
        | (false, _) => []
        | (true, s) => m :: stepped pacer fuel m.tick.1 s
      else
        []

theorem stepped_of_idle (pacer : Pacer ρ) (fuel : Nat) {m : Machine V σ} (s : ρ)
    (h : m.running = false) : stepped pacer (fuel + 1) m s = [] := by
  simp [stepped, h]

theorem stepped_of_declined {pacer : Pacer ρ} (fuel : Nat) {m : Machine V σ} {s s' : ρ}
    (h : m.running = true) (hwait : pacer.wait m.config.interval s = (false, s')) :
    stepped pacer (fuel + 1) m s = [] := by
  simp [stepped, h, hwait]

theorem stepped_of_granted {pacer : Pacer ρ} (fuel : Nat) {m : Machine V σ} {s s' : ρ}
    (h : m.running = true) (hwait : pacer.wait m.config.interval s = (true, s')) :
    stepped pacer (fuel + 1) m s = m :: stepped pacer fuel m.step.1 s' := by
  simp only [stepped, h, hwait, if_true, tick_of_running h]

end Machine

namespace Attended

variable {V σ τ ρ : Type} [HoldsPointer V]

/-- The machines that an operation makes a step of. -/
def stepped (fuel : Nat) (a : Attended V σ τ) (s : ρ) : Operation V τ ρ → List (Machine V σ)
  | .control c => if c.makesStep a.machine.running then [a.machine] else []
  | .run pacer => Machine.stepped pacer fuel a.machine.execute s
  | _ => []

/-- The machines that a script makes a step of, one after the other. -/
def steppedAll (fuel : Nat) (a : Attended V σ τ) (s : ρ) :
    List (Operation V τ ρ) → List (Machine V σ)
  | [] => []
  | op :: script =>
      a.stepped fuel s op ++
        match a.perform fuel s op with
        | none => []
        | some (a, s, _) => a.steppedAll fuel s script

theorem steppedAll_cons_of_none {fuel : Nat} {a : Attended V σ τ} {s : ρ} {op : Operation V τ ρ}
    (h : a.perform fuel s op = none) (script : List (Operation V τ ρ)) :
    a.steppedAll fuel s (op :: script) = a.stepped fuel s op := by
  rw [steppedAll, h, List.append_nil]

theorem steppedAll_cons_of_some {fuel : Nat} {a a' : Attended V σ τ} {s s' : ρ}
    {op : Operation V τ ρ} {reports : List (Option τ × Event)}
    (h : a.perform fuel s op = some (a', s', reports)) (script : List (Operation V τ ρ)) :
    a.steppedAll fuel s (op :: script) = a.stepped fuel s op ++ a'.steppedAll fuel s' script := by
  rw [steppedAll, h]

end Attended

/-! ## What persists between resets -/

/-- A property of machines that only a reset can take away. -/
structure Machine.Persistent {V σ : Type} [HoldsPointer V] (P : Machine V σ → Prop) : Prop where
  step : ∀ m, P m → P m.step.1
  execute : ∀ m, P m → P m.execute
  stop : ∀ m, P m → P m.stop
  writeRegisters : ∀ (m : Machine V σ) (registers : NameMap V), P m →
    P (m.withWorkspace { m.workspace with registers })

namespace Machine.Persistent

variable {V σ τ ρ : Type} [HoldsPointer V] {P : Machine V σ → Prop}

theorem forall_stepped (h : Persistent P) {pacer : Pacer ρ} {m : Machine V σ} (hm : P m) (s : ρ)
    (fuel : Nat) : ∀ v ∈ stepped pacer fuel m s, P v := by
  induction fuel generalizing m s with
  | zero => simp [stepped]
  | succ fuel ih =>
      cases turn pacer m s with
      | idle hidle => simp [stepped_of_idle pacer fuel s hidle]
      | declined hrunning hwait => simp [stepped_of_declined fuel hrunning hwait]
      | granted hrunning hwait =>
          rw [stepped_of_granted fuel hrunning hwait]
          exact List.forall_mem_cons.2 ⟨hm, ih (h.step m hm) _⟩

theorem drives (h : Persistent P) {pacer : Pacer ρ} {m : Machine V σ} {s : ρ} {o : Outcome V σ ρ}
    (hdrives : Drives pacer m s o) (hm : P m) : P o.machine := by
  induction hdrives with
  | idle => exact hm
  | @declined m => exact h.stop m hm
  | @granted m _ _ _ _ _ _ ih => exact ih (h.step m hm)

theorem tick (h : Persistent P) {m : Machine V σ} (hm : P m) : P m.tick.1 := by
  unfold Machine.tick
  split
  · exact h.step m hm
  · exact hm

theorem perform (h : Persistent P) {fuel : Nat} {a a' : Attended V σ τ} {s s' : ρ}
    {op : Operation V τ ρ} {reports : List (Option τ × Event)} (ha : P a.machine)
    (hop : op.resets = false) (hperform : a.perform fuel s op = some (a', s', reports)) :
    P a'.machine := by
  cases op with
  | reset => simp [Operation.resets] at hop
  | edit change =>
      simp only [Attended.perform, Option.some.injEq, Prod.mk.injEq] at hperform
      obtain ⟨rfl, -⟩ := hperform
      exact h.writeRegisters a.machine _ ha
  | run pacer =>
      obtain ⟨o, ho, hparts⟩ := Option.map_eq_some_iff.1 hperform
      obtain ⟨rfl, -⟩ := Prod.mk.inj hparts
      exact h.drives (drives_of_drive ho) (h.execute a.machine ha)
  | control c =>
      simp only [Attended.perform, Option.some.injEq, Prod.mk.injEq] at hperform
      obtain ⟨rfl, -⟩ := hperform
      cases c with
      | execute => exact h.execute a.machine ha
      | stop => exact h.stop a.machine ha
      | tick => exact h.tick ha
      | step => exact h.step a.machine ha
      | onTrap => exact ha
      | onFinish => exact ha

/-- What only a reset can take away holds of each machine that a script without one makes a step of. -/
theorem forall_steppedAll (h : Persistent P) {fuel : Nat} {a : Attended V σ τ} (ha : P a.machine)
    (s : ρ) {script : List (Operation V τ ρ)} (hscript : ∀ op ∈ script, op.resets = false) :
    ∀ v ∈ a.steppedAll fuel s script, P v := by
  induction script generalizing a s with
  | nil => simp [Attended.steppedAll]
  | cons op script ih =>
      have hnow : ∀ v ∈ a.stepped fuel s op, P v := by
        cases op with
        | control c =>
            intro v hv
            rw [Attended.stepped] at hv
            split at hv
            · rwa [List.mem_singleton.1 hv]
            · simp at hv
        | run pacer => exact h.forall_stepped (h.execute a.machine ha) s fuel
        | _ => simp [Attended.stepped]
      cases hperform : a.perform fuel s op with
      | none => rwa [Attended.steppedAll_cons_of_none hperform]
      | some after =>
          obtain ⟨a', s', reports⟩ := after
          rw [Attended.steppedAll_cons_of_some hperform]
          have ha' := h.perform ha (hscript op List.mem_cons_self) hperform
          exact List.forall_mem_append.2
            ⟨hnow, ih ha' s' fun op hop => hscript op (List.mem_cons_of_mem _ hop)⟩

end Machine.Persistent

/-! ## The calls of a script -/

namespace Machine

variable {V σ ρ : Type} [HoldsPointer V]

/-- The calls that a step makes, as noting them shows. -/
def calls (m : Machine V σ) : List Call := (m.noting []).step.1.workspace.host.2

theorem calls_of_runs {m : Machine V σ} {i : Instruction} {name : String} {operands : List String}
    {action : Action V σ} (h : m.Runs i name operands action) : m.calls = [⟨name, operands⟩] := by
  rw [calls, step_noting_of_runs h]
  rfl

theorem calls_of_not_runs {m : Machine V σ}
    (h : ∀ i name operands action, ¬m.Runs i name operands action) : m.calls = [] := by
  rw [calls, step_noting_of_not_runs h]
  rfl

/-- A step notes its calls behind those that are noted already. -/
theorem step_noting_eq (m : Machine V σ) (calls : List Call) :
    (m.noting calls).step = (m.step.1.noting (calls ++ m.calls), m.step.2) := by
  rcases step_noting m calls with ⟨i, name, operands, action, hruns, hstep⟩ | ⟨hnone, hstep⟩
  · rw [hstep, calls_of_runs hruns]
  · rw [hstep, calls_of_not_runs hnone, List.append_nil]

/-- A step is allowed. -/
def allows (m : Machine V σ) : Bool := m.reachedLimit?.isNone

/-- A step makes at most one call, and none if it is not allowed. -/
theorem length_calls_le (m : Machine V σ) : m.calls.length ≤ if m.allows then 1 else 0 := by
  rcases step_noting m [] with ⟨i, name, operands, action, hruns, -⟩ | ⟨hnone, -⟩
  · obtain ⟨n, hpoints, -⟩ := hruns.pointed
    rw [calls_of_runs hruns, allows, hpoints.allowed]
    exact Nat.le_refl 1
  · rw [calls_of_not_runs hnone]
    exact Nat.zero_le _

/-- Steps make no more calls than they are allowed steps. -/
theorem length_flatMap_calls_le (visited : List (Machine V σ)) :
    (visited.flatMap calls).length ≤ visited.countP allows := by
  induction visited with
  | nil => exact Nat.le_refl 0
  | cons m visited ih =>
      have hnow := m.length_calls_le
      rw [List.flatMap_cons, List.length_append, List.countP_cons]
      omega

theorem drive_noting (pacer : Pacer ρ) (fuel : Nat) (m : Machine V σ) (s : ρ) (calls : List Call) :
    drive pacer fuel (m.noting calls) s = (drive pacer fuel m s).map fun o =>
      ⟨o.machine.noting (calls ++ (stepped pacer fuel m s).flatMap Machine.calls), o.pacer,
        o.events⟩ := by
  induction fuel generalizing m s calls with
  | zero => rfl
  | succ fuel ih =>
      cases turn pacer m s with
      | idle hidle =>
          have hnoting : (m.noting calls).running = false := hidle
          rw [drive_of_idle pacer fuel s hidle, drive_of_idle pacer fuel s hnoting,
            stepped_of_idle pacer fuel s hidle]
          simp
      | declined hrunning hwait =>
          have hnoting : (m.noting calls).running = true := hrunning
          rw [drive_of_declined fuel hrunning hwait, drive_of_declined fuel hnoting hwait,
            stepped_of_declined fuel hrunning hwait, List.flatMap_nil, List.append_nil]
          rfl
      | granted hrunning hwait =>
          have hnoting : (m.noting calls).running = true := hrunning
          rw [drive_of_granted fuel hrunning hwait, drive_of_granted fuel hnoting hwait,
            stepped_of_granted fuel hrunning hwait, step_noting_eq, ih, Option.map_map,
            Option.map_map, List.flatMap_cons, List.append_assoc]
          rfl

end Machine

namespace Attended

variable {V σ τ ρ : Type} [HoldsPointer V]

/-- The machine whose actions note their calls, and the same listeners. -/
def noting (a : Attended V σ τ) (calls : List Call) : Attended V (σ × List Call) τ :=
  ⟨a.machine.noting calls, a.listeners⟩

theorem control_noting (a : Attended V σ τ) (c : Control τ) (calls : List Call) :
    (a.noting calls).control c =
      ((a.control c).1.noting
        (calls ++ if c.makesStep a.machine.running then a.machine.calls else []),
        (a.control c).2) := by
  cases c with
  | step => simp [control, noting, Machine.step_noting_eq, Control.makesStep]
  | tick =>
      cases hrunning : a.machine.running with
      | false =>
          have hnoting : (a.machine.noting calls).running = false := hrunning
          simp [control, noting, Machine.tick_of_idle hrunning, Machine.tick_of_idle hnoting,
            Control.makesStep]
      | true =>
          have hnoting : (a.machine.noting calls).running = true := hrunning
          simp [control, noting, Machine.tick_of_running hrunning,
            Machine.tick_of_running hnoting, Machine.step_noting_eq, Control.makesStep]
  | _ =>
      simp only [Control.makesStep, Bool.false_eq_true, if_false, List.append_nil]
      rfl

theorem perform_noting (fuel : Nat) (a : Attended V σ τ) (s : ρ) (op : Operation V τ ρ)
    (calls : List Call) :
    (a.noting calls).perform fuel s op = (a.perform fuel s op).map fun (a', s', reports) =>
      (a'.noting (calls ++ (a.stepped fuel s op).flatMap Machine.calls), s', reports) := by
  cases op with
  | control c =>
      rw [perform, perform, control_noting, stepped]
      split <;> simp
  | run pacer =>
      have hrun : (a.noting calls).machine.run pacer fuel s = _ :=
        Machine.drive_noting pacer fuel a.machine.execute s calls
      rw [perform, perform, hrun, Option.map_map, Machine.run, Option.map_map]
      rfl
  | _ =>
      simp only [stepped, List.flatMap_nil, List.append_nil]
      rfl

/-- To note the calls of a script changes nothing else about it. They are the calls of its steps. -/
theorem performAll_noting (fuel : Nat) (a : Attended V σ τ) (s : ρ)
    (script : List (Operation V τ ρ)) (calls : List Call) :
    (a.noting calls).performAll fuel s script =
      (a.performAll fuel s script).map fun (a', s', reports) =>
        (a'.noting (calls ++ (a.steppedAll fuel s script).flatMap Machine.calls), s', reports) := by
  induction script generalizing a s calls with
  | nil => simp [performAll, steppedAll]
  | cons op script ih =>
      have hnoting := perform_noting fuel a s op calls
      cases hperform : a.perform fuel s op with
      | none =>
          rw [hperform] at hnoting
          rw [performAll_cons_of_none hperform, performAll_cons_of_none hnoting]
          rfl
      | some after =>
          obtain ⟨a', s', reports⟩ := after
          rw [hperform] at hnoting
          rw [performAll_cons_of_some hperform, performAll_cons_of_some hnoting, ih,
            steppedAll_cons_of_some hperform, Option.map_map, Option.map_map, List.flatMap_append,
            List.append_assoc]
          rfl

end Attended

end Mnemonic
