import Mnemonic.Machine.Run
import Mnemonic.Proofs.Running.Outcomes

set_option autoImplicit false

/-!
# Ticks and runs

A run is a loop around ticks. The loop is computed with fuel; what it does is said without fuel by the
relation `Drives`, which has one rule for each way that the loop can turn: the machine is idle, the
pacer declines, or the pacer grants a tick and the loop goes on.

What a pacer notes beside its answers does not show in a run. A tally is such a note: it counts how
often the pacer granted and how often it declined.

Main statements: the loop leads to the outcome that it ends in with some fuel (`drives_of_drive`), it ends
in one only, whatever the fuel (`drive_unique`), and a run with a tally is the run without it
(`drive_tallied`).
-/

namespace Mnemonic

namespace Pacer

variable {ρ : Type}

/-- How often a pacer granted a tick, and how often it declined one. -/
structure Tally where
  granted : Nat
  declined : Nat
  deriving DecidableEq, Repr

namespace Tally

/-- The pacer was not asked yet. -/
def zero : Tally := ⟨0, 0⟩

/-- The tally with one more answer. -/
def note (t : Tally) : Bool → Tally
  | true => { t with granted := t.granted + 1 }
  | false => { t with declined := t.declined + 1 }

/-- How often the pacer was asked. -/
def asked (t : Tally) : Nat := t.granted + t.declined

theorem asked_note (t : Tally) (granted : Bool) : (t.note granted).asked = t.asked + 1 := by
  cases granted <;> simp +arith [note, asked]

end Tally

/-- A pacer that counts its answers. -/
def tallied (p : Pacer ρ) : Pacer (ρ × Tally) where
  wait interval := fun (s, t) =>
    let (granted, s) := p.wait interval s
    (granted, s, t.note granted)

theorem tallied_wait {p : Pacer ρ} {interval : Nat} {s s' : ρ} {granted : Bool}
    (h : p.wait interval s = (granted, s')) (t : Tally) :
    p.tallied.wait interval (s, t) = (granted, s', t.note granted) := by
  simp only [tallied, h]

theorem tally_of_wait {p : Pacer ρ} {interval : Nat} {s s' : ρ × Tally} {granted : Bool}
    (h : p.tallied.wait interval s = (granted, s')) : s'.2 = s.2.note granted := by
  rw [tallied_wait rfl s.2, Prod.mk.injEq] at h
  rw [← h.2, h.1]

end Pacer

namespace Machine

variable {V σ ρ : Type} [HoldsPointer V]

/-! ## Ticks -/

theorem tick_of_running {m : Machine V σ} (h : m.running = true) : m.tick = m.step := by
  rw [tick, if_pos h]

theorem tick_of_idle {m : Machine V σ} (h : m.running = false) : m.tick = (m, []) := by
  rw [tick, if_neg (by simp [h])]

section Times

omit [HoldsPointer V]

variable {act : Machine V σ → Machine V σ × List Event}

theorem times_succ (n : Nat) (m : Machine V σ) :
    times act (n + 1) m = ((times act n (act m).1).1, (act m).2 ++ (times act n (act m).1).2) := rfl

/-- To do something a number of times and then again a number of times is to do it as often as both
together. -/
theorem times_add (k n : Nat) (m : Machine V σ) :
    times act (k + n) m =
      ((times act n (times act k m).1).1, (times act k m).2 ++ (times act n (times act k m).1).2) := by
  induction k generalizing m with
  | zero => simp [times]
  | succ k ih =>
      rw [Nat.add_right_comm, times_succ, times_succ, ih]
      simp only [List.append_assoc]

end Times

theorem times_tick_of_idle {m : Machine V σ} (h : m.running = false) (n : Nat) :
    times tick n m = (m, []) := by
  induction n with
  | zero => rfl
  | succ n ih =>
      rw [times_succ, tick_of_idle h, ih]
      rfl

/-! ## The loop of a run -/

/-- How the loop of a run can turn. -/
inductive Turn (pacer : Pacer ρ) (m : Machine V σ) (s : ρ) : Prop
  | idle (h : m.running = false)
  | declined {s' : ρ} (h : m.running = true) (hwait : pacer.wait m.config.interval s = (false, s'))
  | granted {s' : ρ} (h : m.running = true) (hwait : pacer.wait m.config.interval s = (true, s'))

omit [HoldsPointer V] in
theorem turn (pacer : Pacer ρ) (m : Machine V σ) (s : ρ) : Turn pacer m s := by
  cases hrunning : m.running with
  | false => exact .idle hrunning
  | true =>
      cases hwait : pacer.wait m.config.interval s with
      | mk granted s' =>
          cases granted with
          | false => exact .declined hrunning hwait
          | true => exact .granted hrunning hwait

/-- What the loop of a run leads to. -/
inductive Drives (pacer : Pacer ρ) : Machine V σ → ρ → Outcome V σ ρ → Prop
  | idle {m : Machine V σ} {s : ρ} (h : m.running = false) : Drives pacer m s ⟨m, s, []⟩
  | declined {m : Machine V σ} {s s' : ρ} (h : m.running = true)
      (hwait : pacer.wait m.config.interval s = (false, s')) : Drives pacer m s ⟨m.stop, s', []⟩
  | granted {m : Machine V σ} {s s' : ρ} {o : Outcome V σ ρ} (h : m.running = true)
      (hwait : pacer.wait m.config.interval s = (true, s')) (hlater : Drives pacer m.step.1 s' o) :
      Drives pacer m s { o with events := m.step.2 ++ o.events }

theorem drive_of_idle (pacer : Pacer ρ) (fuel : Nat) {m : Machine V σ} (s : ρ)
    (h : m.running = false) : drive pacer (fuel + 1) m s = some ⟨m, s, []⟩ := by
  simp [drive, h]

theorem drive_of_declined {pacer : Pacer ρ} (fuel : Nat) {m : Machine V σ} {s s' : ρ}
    (h : m.running = true) (hwait : pacer.wait m.config.interval s = (false, s')) :
    drive pacer (fuel + 1) m s = some ⟨m.stop, s', []⟩ := by
  simp [drive, h, hwait]

theorem drive_of_granted {pacer : Pacer ρ} (fuel : Nat) {m : Machine V σ} {s s' : ρ}
    (h : m.running = true) (hwait : pacer.wait m.config.interval s = (true, s')) :
    drive pacer (fuel + 1) m s =
      (drive pacer fuel m.step.1 s').map fun o => { o with events := m.step.2 ++ o.events } := by
  simp only [drive, h, hwait, if_true, tick_of_running h]

/-- The loop leads to the outcome that it ends in with some fuel. -/
theorem drives_of_drive {pacer : Pacer ρ} {fuel : Nat} {m : Machine V σ} {s : ρ}
    {o : Outcome V σ ρ} (h : drive pacer fuel m s = some o) : Drives pacer m s o := by
  induction fuel generalizing m s o with
  | zero => simp [drive] at h
  | succ fuel ih =>
      cases turn pacer m s with
      | idle hidle =>
          rw [drive_of_idle pacer fuel s hidle] at h
          obtain rfl := Option.some.inj h
          exact .idle hidle
      | declined hrunning hwait =>
          rw [drive_of_declined fuel hrunning hwait] at h
          obtain rfl := Option.some.inj h
          exact .declined hrunning hwait
      | granted hrunning hwait =>
          rw [drive_of_granted fuel hrunning hwait] at h
          obtain ⟨o', ho', rfl⟩ := Option.map_eq_some_iff.1 h
          exact .granted hrunning hwait (ih ho')

theorem drive_of_le {pacer : Pacer ρ} {fuel more : Nat} {m : Machine V σ} {s : ρ}
    {o : Outcome V σ ρ} (hle : fuel ≤ more) (h : drive pacer fuel m s = some o) :
    drive pacer more m s = some o := by
  induction hle with
  | refl => exact h
  | step _ ih => exact drive_mono ih

/-- More or less fuel does not change how a run ends. -/
theorem drive_unique {pacer : Pacer ρ} {fuel fuel' : Nat} {m : Machine V σ} {s : ρ}
    {o o' : Outcome V σ ρ} (h : drive pacer fuel m s = some o) (h' : drive pacer fuel' m s = some o') :
    o = o' := by
  have hmax := drive_of_le (Nat.le_max_left fuel fuel') h
  rw [drive_of_le (Nat.le_max_right fuel fuel') h'] at hmax
  exact (Option.some.inj hmax).symm

/-! ## Notes of pacers -/

/-- The outcome with another view of the pacer. -/
def Outcome.mapPacer {ρ' : Type} (f : ρ → ρ') (o : Outcome V σ ρ) : Outcome V σ ρ' :=
  ⟨o.machine, f o.pacer, o.events⟩

/-- Two pacers that answer alike drive a machine alike. -/
theorem drive_mapPacer {ρ' : Type} {p : Pacer ρ} {p' : Pacer ρ'} {f : ρ → ρ'}
    (h : ∀ interval s, p'.wait interval (f s) = ((p.wait interval s).1, f (p.wait interval s).2))
    (fuel : Nat) (m : Machine V σ) (s : ρ) :
    drive p' fuel m (f s) = (drive p fuel m s).map (Outcome.mapPacer f) := by
  induction fuel generalizing m s with
  | zero => rfl
  | succ fuel ih =>
      cases turn p m s with
      | idle hidle =>
          rw [drive_of_idle p' fuel _ hidle, drive_of_idle p fuel _ hidle]
          rfl
      | @declined s' hrunning hwait =>
          have hwait' : p'.wait m.config.interval (f s) = (false, f s') := by rw [h, hwait]
          rw [drive_of_declined fuel hrunning hwait', drive_of_declined fuel hrunning hwait]
          rfl
      | @granted s' hrunning hwait =>
          have hwait' : p'.wait m.config.interval (f s) = (true, f s') := by rw [h, hwait]
          rw [drive_of_granted fuel hrunning hwait', drive_of_granted fuel hrunning hwait, ih,
            Option.map_map, Option.map_map]
          rfl

/-- Counting the answers of a pacer changes nothing else. -/
theorem drive_tallied (pacer : Pacer ρ) (fuel : Nat) (m : Machine V σ) (s : ρ) (t : Pacer.Tally) :
    drive pacer fuel m s = (drive pacer.tallied fuel m (s, t)).map (Outcome.mapPacer Prod.fst) :=
  drive_mapPacer (f := Prod.fst) (fun _ _ => rfl) fuel m (s, t)

end Machine

end Mnemonic
