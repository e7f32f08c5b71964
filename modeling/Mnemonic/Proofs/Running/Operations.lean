import Mnemonic.Proofs.Running.Ticks

set_option autoImplicit false

/-!
# Operations

What can be done to a machine from outside: it can be stepped, ticked, run, started, stopped and reset,
and its registers and what its host keeps can be changed at will. A history of a machine is any number
of these, one after the other, with all that is reported meanwhile.

Main statement: what every step preserves, and every change from outside, a whole history preserves,
and what holds of the events of every step holds of all events of the history (`Reaches.of_invariant`).
A run is no exception, since it is made of ticks.
-/

namespace Mnemonic.Machine

variable {V σ : Type} [HoldsPointer V]

/-- One thing that is done to a machine, with what is reported meanwhile. -/
inductive Does : Machine V σ → List Event → Machine V σ → Prop
  | step (m : Machine V σ) : Does m m.step.2 m.step.1
  | tick (m : Machine V σ) : Does m m.tick.2 m.tick.1
  | execute (m : Machine V σ) : Does m [] m.execute
  | stop (m : Machine V σ) : Does m [] m.stop
  | reset (m : Machine V σ) : Does m [] m.reset
  | writeRegisters (m : Machine V σ) (registers : NameMap V) :
      Does m [] (m.withWorkspace { m.workspace with registers })
  | writeHost (m : Machine V σ) (host : σ) : Does m [] (m.withWorkspace { m.workspace with host })
  | run {ρ : Type} {pacer : Pacer ρ} {fuel : Nat} {m : Machine V σ} {s : ρ} {o : Outcome V σ ρ}
      (h : m.run pacer fuel s = some o) : Does m o.events o.machine

/-- Any number of things that are done to a machine, one after the other. -/
inductive Reaches : Machine V σ → List Event → Machine V σ → Prop
  | refl (m : Machine V σ) : Reaches m [] m
  | andThen {m m' m'' : Machine V σ} {events more : List Event} (h : Reaches m events m')
      (hdoes : Does m' more m'') : Reaches m (events ++ more) m''

/-- A property of machines that nothing done to them takes away, while all that they report is of
some kind. -/
structure Invariant (P : Machine V σ → Prop) (Q : Event → Prop) : Prop where
  step : ∀ m, P m → P m.step.1 ∧ ∀ e ∈ m.step.2, Q e
  execute : ∀ m, P m → P m.execute
  stop : ∀ m, P m → P m.stop
  reset : ∀ m, P m → P m.reset
  writeRegisters : ∀ (m : Machine V σ) (registers : NameMap V), P m →
    P (m.withWorkspace { m.workspace with registers })
  writeHost : ∀ (m : Machine V σ) (host : σ), P m → P (m.withWorkspace { m.workspace with host })

namespace Invariant

variable {P : Machine V σ → Prop} {Q : Event → Prop}

theorem tick (h : Invariant P Q) {m : Machine V σ} (hm : P m) :
    P m.tick.1 ∧ ∀ e ∈ m.tick.2, Q e := by
  unfold Machine.tick
  split
  · exact h.step m hm
  · exact ⟨hm, by simp⟩

/-- Whatever the pacer does, a run is made of ticks. -/
theorem drives (h : Invariant P Q) {ρ : Type} {pacer : Pacer ρ} {m : Machine V σ} {s : ρ}
    {o : Outcome V σ ρ} (hdrives : Drives pacer m s o) (hm : P m) :
    P o.machine ∧ ∀ e ∈ o.events, Q e := by
  induction hdrives with
  | idle => exact ⟨hm, by simp⟩
  | @declined m => exact ⟨h.stop m hm, by simp⟩
  | @granted m _ _ _ _ _ _ ih =>
      obtain ⟨hstep, hnow⟩ := h.step m hm
      obtain ⟨hend, hlater⟩ := ih hstep
      exact ⟨hend, List.forall_mem_append.2 ⟨hnow, hlater⟩⟩

theorem does (h : Invariant P Q) {m m' : Machine V σ} {events : List Event} (hm : P m)
    (hdoes : Does m events m') : P m' ∧ ∀ e ∈ events, Q e := by
  cases hdoes with
  | step => exact h.step m hm
  | tick => exact h.tick hm
  | execute => exact ⟨h.execute m hm, by simp⟩
  | stop => exact ⟨h.stop m hm, by simp⟩
  | reset => exact ⟨h.reset m hm, by simp⟩
  | writeRegisters => exact ⟨h.writeRegisters m _ hm, by simp⟩
  | writeHost => exact ⟨h.writeHost m _ hm, by simp⟩
  | run hrun => exact h.drives (drives_of_drive hrun) (h.execute m hm)

end Invariant

/-- What an invariant says holds of everything that is reached. -/
theorem Reaches.of_invariant {P : Machine V σ → Prop} {Q : Event → Prop} (h : Invariant P Q)
    {m m' : Machine V σ} {events : List Event} (hreaches : Reaches m events m') (hm : P m) :
    P m' ∧ ∀ e ∈ events, Q e := by
  induction hreaches with
  | refl => exact ⟨hm, by simp⟩
  | andThen _ hdoes ih =>
      obtain ⟨hbefore, hearlier⟩ := ih
      obtain ⟨hafter, hnow⟩ := h.does hbefore hdoes
      exact ⟨hafter, List.forall_mem_append.2 ⟨hearlier, hnow⟩⟩

end Mnemonic.Machine
