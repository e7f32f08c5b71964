import Mnemonic.Machine.Step

set_option autoImplicit false

/-!
# Runs

A run lets a machine tick until it goes idle. Before every tick a pacer is asked to wait for the tick
interval; it may decline, which ends the run. A pacer is a small machine of its own, with a state that
each wait may change. It is taken to share no state with the host of the actions: a wait neither sees
the machine nor changes what its actions keep.

A run need not end, so it is computed with fuel: `run` answers nothing when the fuel is used up, and
any larger amount of fuel gives an answer that a smaller one gave.

A host that checks its arithmetic runs a machine as any other does, up to a step that the counter of
steps cannot count. That is `checkedRun`.
-/

namespace Mnemonic

/-- What grants or declines the ticks of a run. It gets the interval to wait for, in nanoseconds. -/
structure Pacer (ρ : Type) where
  wait : Nat → ρ → Bool × ρ

namespace Pacer

/-- How many ticks were granted without waiting, and how many may be, if there is a limit. Like the steps
of a machine, the ticks are counted exactly here, and in a 64-bit word by a host. -/
structure Budget where
  budget : Option Nat
  granted : Nat
  deriving DecidableEq, Repr

namespace Budget

/-- No tick is granted yet, and there is no limit. -/
def unlimited : Budget := ⟨none, 0⟩

/-- No tick is granted yet, and so many may be. -/
def ofNat (budget : Nat) : Budget := ⟨some budget, 0⟩

/-- Every tick of the budget is granted. -/
def isSpent (b : Budget) : Bool := b.budget.any (· ≤ b.granted)

end Budget

/-- Grants ticks back to back, up to the budget. -/
def immediate : Pacer Budget where
  wait _ b := if b.isSpent then (false, b) else (true, { b with granted := b.granted + 1 })

/-- Grants every tick, when the interval is over. How long that takes does not show. -/
def steady : Pacer Unit where
  wait _ _ := (true, ())

/-- What is noted of the waits of a run. -/
structure Log where
  waits : Nat
  /-- the interval of the last wait -/
  lastInterval : Option Nat
  deriving DecidableEq, Repr

namespace Log

/-- Nothing is noted yet. -/
def empty : Log := ⟨0, none⟩

end Log

/-- A pacer that notes its waits. -/
def logged {ρ : Type} (p : Pacer ρ) : Pacer (ρ × Log) where
  wait interval := fun (s, log) =>
    let (granted, s) := p.wait interval s
    (granted, s, ⟨log.waits + 1, some interval⟩)

end Pacer

namespace Machine

variable {V σ ρ : Type} [HoldsPointer V]

/-- What is left at the end of a run: the machine, the pacer's state, and what was reported. -/
structure Outcome (V σ ρ : Type) where
  machine : Machine V σ
  pacer : ρ
  events : List Event

/-- Ticks as long as the machine is running and the pacer grants it. -/
def drive (pacer : Pacer ρ) : Nat → Machine V σ → ρ → Option (Outcome V σ ρ)
  | 0, _, _ => none
  | fuel + 1, m, s =>
      if m.running then
        match pacer.wait m.config.interval s with
        | (false, s) => some ⟨m.stop, s, []⟩
        | (true, s) =>
            let (m, events) := m.tick
            (drive pacer fuel m s).map fun o => { o with events := events ++ o.events }
      else
        some ⟨m, s, []⟩

/-- Starts the machine and lets it tick until it is idle or the pacer declines. -/
def run (pacer : Pacer ρ) (fuel : Nat) (m : Machine V σ) (s : ρ) : Option (Outcome V σ ρ) :=
  drive pacer fuel m.execute s

/-- Ticks as `drive` does, on a host that checks its arithmetic. If a step that overflows is due, the host
is brought down, and the machine is given as it is then. -/
def checkedDrive (pacer : Pacer ρ) :
    Nat → Machine V σ → ρ → Option (Except (Machine V σ) (Outcome V σ ρ))
  | 0, _, _ => none
  | fuel + 1, m, s =>
      if m.running then
        match pacer.wait m.config.interval s with
        | (false, s) => some (.ok ⟨m.stop, s, []⟩)
        | (true, s) =>
            if m.overflows then
              some (.error m)
            else
              let (m, events) := m.tick
              (checkedDrive pacer fuel m s).map fun ending =>
                ending.map fun o => { o with events := events ++ o.events }
      else
        some (.ok ⟨m, s, []⟩)

/-- Starts the machine and lets it tick as `run` does, on a host that checks its arithmetic. -/
def checkedRun (pacer : Pacer ρ) (fuel : Nat) (m : Machine V σ) (s : ρ) :
    Option (Except (Machine V σ) (Outcome V σ ρ)) :=
  checkedDrive pacer fuel m.execute s

theorem drive_mono {pacer : Pacer ρ} {fuel : Nat} {m : Machine V σ} {s : ρ} {o : Outcome V σ ρ}
    (h : drive pacer fuel m s = some o) : drive pacer (fuel + 1) m s = some o := by
  induction fuel generalizing m s o with
  | zero => simp [drive] at h
  | succ fuel ih =>
      rw [drive] at h ⊢
      split
      · rename_i hrun
        simp only [hrun, if_true] at h
        cases hwait : pacer.wait m.config.interval s with
        | mk granted s' =>
            cases granted with
            | false => simpa [hwait] using h
            | true =>
                simp only [hwait] at h ⊢
                obtain ⟨o', ho', rfl⟩ := Option.map_eq_some_iff.1 h
                rw [ih ho']
                rfl
      · rename_i hrun
        simpa [hrun] using h

end Machine

end Mnemonic
