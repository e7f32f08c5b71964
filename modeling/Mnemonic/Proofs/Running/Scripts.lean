import Mnemonic.Proofs.Running.Control
import Mnemonic.Proofs.Running.Operations

set_option autoImplicit false

/-!
# Scripts

A script is a list of the things that a host does to a machine. Being data, it can be performed on two
machines to compare them. Its runs share the state of one pacer, which may be made of any number of
pacers; each run says how its ticks are granted. A run need not end, so a script is performed with fuel
for each run.

Main statement: what a script reaches is a history of the machine (`reaches_of_performAll`).
-/

namespace Mnemonic

/-- One thing that a host does to a machine. -/
inductive Operation (V τ ρ : Type) where
  | control (c : Control τ)
  | reset
  /-- changes the registers from outside -/
  | edit (change : NameMap V → NameMap V)
  /-- runs the machine as far as the pacer grants it -/
  | run (pacer : Pacer ρ)

namespace Attended

variable {V σ τ ρ : Type} [HoldsPointer V]

/-- What a host does changes the machine, who listens, and the state of the pacer, and something is
reported. -/
def perform (fuel : Nat) (a : Attended V σ τ) (s : ρ) :
    Operation V τ ρ → Option (Attended V σ τ × ρ × List (Option τ × Event))
  | .control c => some ((a.control c).1, s, (a.control c).2)
  | .reset => some ({ a with machine := a.machine.reset }, s, [])
  | .edit change =>
      let registers := change a.machine.workspace.registers
      some ({ a with machine := a.machine.withWorkspace { a.machine.workspace with registers } }, s, [])
  | .run pacer => (a.machine.run pacer fuel s).map fun o =>
      ({ a with machine := o.machine }, o.pacer, a.listeners.address o.events)

/-- Performs a script and collects what is reported. -/
def performAll (fuel : Nat) (a : Attended V σ τ) (s : ρ) :
    List (Operation V τ ρ) → Option (Attended V σ τ × ρ × List (Option τ × Event))
  | [] => some (a, s, [])
  | op :: script =>
      (a.perform fuel s op).bind fun (a, s, reports) =>
        (a.performAll fuel s script).map fun (a, s, later) => (a, s, reports ++ later)

theorem performAll_cons_of_none {fuel : Nat} {a : Attended V σ τ} {s : ρ} {op : Operation V τ ρ}
    (h : a.perform fuel s op = none) (script : List (Operation V τ ρ)) :
    a.performAll fuel s (op :: script) = none := by
  rw [performAll, h]
  rfl

theorem performAll_cons_of_some {fuel : Nat} {a a' : Attended V σ τ} {s s' : ρ}
    {op : Operation V τ ρ} {reports : List (Option τ × Event)}
    (h : a.perform fuel s op = some (a', s', reports)) (script : List (Operation V τ ρ)) :
    a.performAll fuel s (op :: script) =
      (a'.performAll fuel s' script).map fun (a, s, later) => (a, s, reports ++ later) := by
  rw [performAll, h]
  rfl

end Attended

namespace Machine

variable {V σ τ ρ : Type} [HoldsPointer V]

theorem Reaches.of_does {m m' : Machine V σ} {events : List Event} (h : Does m events m') :
    Reaches m events m' := .andThen (.refl m) h

theorem Reaches.trans {m m' m'' : Machine V σ} {events more : List Event} (h : Reaches m events m')
    (hmore : Reaches m' more m'') : Reaches m (events ++ more) m'' := by
  induction hmore with
  | refl =>
      rw [List.append_nil]
      exact h
  | andThen _ hdoes ih =>
      rw [← List.append_assoc]
      exact .andThen ih hdoes

/-- Who listens does not belong to the machine, so a change of it leaves the machine where it is. -/
theorem reaches_of_control (a : Attended V σ τ) (c : Control τ) :
    Reaches a.machine ((a.control c).2.map Prod.snd) (a.control c).1.machine := by
  cases c with
  | execute => exact .of_does (.execute a.machine)
  | stop => exact .of_does (.stop a.machine)
  | tick =>
      rw [Attended.control, Listeners.map_snd_address]
      exact .of_does (.tick a.machine)
  | step =>
      rw [Attended.control, Listeners.map_snd_address]
      exact .of_does (.step a.machine)
  | onTrap => exact .refl a.machine
  | onFinish => exact .refl a.machine

theorem reaches_of_perform {fuel : Nat} {a a' : Attended V σ τ} {s s' : ρ} {op : Operation V τ ρ}
    {reports : List (Option τ × Event)} (h : a.perform fuel s op = some (a', s', reports)) :
    Reaches a.machine (reports.map Prod.snd) a'.machine := by
  cases op with
  | control c =>
      simp only [Attended.perform, Option.some.injEq, Prod.mk.injEq] at h
      obtain ⟨rfl, rfl, rfl⟩ := h
      exact reaches_of_control a c
  | reset =>
      simp only [Attended.perform, Option.some.injEq, Prod.mk.injEq] at h
      obtain ⟨rfl, rfl, rfl⟩ := h
      exact .of_does (.reset a.machine)
  | edit change =>
      simp only [Attended.perform, Option.some.injEq, Prod.mk.injEq] at h
      obtain ⟨rfl, rfl, rfl⟩ := h
      exact .of_does (.writeRegisters a.machine _)
  | run pacer =>
      obtain ⟨o, ho, hparts⟩ := Option.map_eq_some_iff.1 h
      simp only [Prod.mk.injEq] at hparts
      obtain ⟨rfl, rfl, rfl⟩ := hparts
      rw [Listeners.map_snd_address]
      exact .of_does (.run ho)

/-- What a script reaches is a history of the machine. -/
theorem reaches_of_performAll {fuel : Nat} {a a' : Attended V σ τ} {s s' : ρ}
    {script : List (Operation V τ ρ)} {reports : List (Option τ × Event)}
    (h : a.performAll fuel s script = some (a', s', reports)) :
    Reaches a.machine (reports.map Prod.snd) a'.machine := by
  induction script generalizing a s reports with
  | nil =>
      simp only [Attended.performAll, Option.some.injEq, Prod.mk.injEq] at h
      obtain ⟨rfl, rfl, rfl⟩ := h
      exact .refl a.machine
  | cons op script ih =>
      cases hop : a.perform fuel s op with
      | none =>
          rw [Attended.performAll_cons_of_none hop] at h
          simp at h
      | some after =>
          obtain ⟨a₁, s₁, now⟩ := after
          rw [Attended.performAll_cons_of_some hop] at h
          obtain ⟨⟨a₂, s₂, later⟩, hlater, hparts⟩ := Option.map_eq_some_iff.1 h
          simp only [Prod.mk.injEq] at hparts
          obtain ⟨rfl, rfl, rfl⟩ := hparts
          rw [List.map_append]
          exact (reaches_of_perform hop).trans (ih hlater)

end Machine

end Mnemonic
