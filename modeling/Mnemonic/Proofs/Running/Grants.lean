import Mathlib.Data.ENat.Lattice
import Mnemonic.Proofs.Running.Ticks

set_option autoImplicit false

/-!
# Granted ticks

A pacer that grants a number of ticks and declines the next makes a run end. Such a run is the machine
started, ticked as often as granted, and stopped; ticks that are granted to an idle machine do nothing,
and a run does not even ask for them. A pacer with a budget is one of these, and budgets add up as long
as each but the last of them is used up.

Main statement: a run against the ticks that it is granted (`run_eq_granted_ticks`).
-/

namespace Mnemonic

namespace Pacer

variable {ρ : Type}

/-- The pacer grants so many ticks, one after the other, and declines the next. -/
def GrantsExactly (p : Pacer ρ) (interval : Nat) : Nat → ρ → Prop
  | 0, s => (p.wait interval s).1 = false
  | g + 1, s => (p.wait interval s).1 = true ∧ p.GrantsExactly interval g (p.wait interval s).2

theorem GrantsExactly.declined {p : Pacer ρ} {interval : Nat} {s : ρ}
    (h : p.GrantsExactly interval 0 s) : ∃ s', p.wait interval s = (false, s') :=
  ⟨_, Prod.ext h rfl⟩

theorem GrantsExactly.granted {p : Pacer ρ} {interval g : Nat} {s : ρ}
    (h : p.GrantsExactly interval (g + 1) s) :
    ∃ s', p.wait interval s = (true, s') ∧ p.GrantsExactly interval g s' :=
  ⟨_, Prod.ext h.1 rfl, h.2⟩

/-- The pacer after it was asked for several intervals. -/
def after (p : Pacer ρ) (s : ρ) (intervals : List Nat) : ρ :=
  intervals.foldl (fun s interval => (p.wait interval s).2) s

/-- What is left of a budget is granted, and no more. -/
theorem grantsExactly_immediate (interval left granted : Nat) :
    immediate.GrantsExactly interval left ⟨some (granted + left), granted⟩ := by
  induction left generalizing granted with
  | zero => simp [GrantsExactly, immediate, Budget.isSpent]
  | succ left ih =>
      have hleft : Budget.isSpent ⟨some (granted + (left + 1)), granted⟩ = false := by
        simp [Budget.isSpent]
      simp only [GrantsExactly, immediate, hleft, Bool.false_eq_true, if_false, true_and]
      rw [show granted + (left + 1) = granted + 1 + left by omega]
      exact ih (granted + 1)

theorem grantsExactly_ofNat (interval budget : Nat) :
    immediate.GrantsExactly interval budget (.ofNat budget) := by
  have h := grantsExactly_immediate interval budget 0
  rwa [Nat.zero_add] at h

/-- However often a budget is asked, it grants no more ticks than it has. -/
theorem granted_after_le (budget : Nat) (intervals : List Nat) :
    (immediate.after (.ofNat budget) intervals).granted ≤ budget := by
  suffices h : ∀ b : Budget, b.budget = some budget → b.granted ≤ budget →
      (immediate.after b intervals).granted ≤ budget from h (.ofNat budget) rfl (Nat.zero_le budget)
  induction intervals with
  | nil => exact fun b _ hb => hb
  | cons interval intervals ih =>
      intro b hbudget hle
      have hwait : (immediate.wait interval b).2.budget = some budget ∧
          (immediate.wait interval b).2.granted ≤ budget := by
        by_cases hspent : b.isSpent = true
        · simp [immediate, hspent, hbudget, hle]
        · have hlt : b.granted < budget := by
            simpa [Budget.isSpent, hbudget] using hspent
          simp only [immediate, hspent, Bool.false_eq_true, if_false]
          exact ⟨hbudget, hlt⟩
      exact ih _ hwait.1 hwait.2

end Pacer

namespace Machine

variable {V σ ρ : Type} [HoldsPointer V]

section Flag

omit [HoldsPointer V]

theorem stop_of_idle {m : Machine V σ} (h : m.running = false) : m.stop = m := by
  cases m
  simp_all [stop]

theorem execute_stop_of_running {m : Machine V σ} (h : m.running = true) : m.stop.execute = m := by
  cases m
  simp_all [stop, execute]

end Flag

/-- How many ticks it takes until the machine is idle, if it is ever. -/
noncomputable def ticksToIdle (m : Machine V σ) : ℕ∞ :=
  ⨅ n : {n : ℕ // (times tick n m).1.running = false}, (n : ℕ∞)

theorem le_ticksToIdle {m : Machine V σ} {n : ℕ}
    (h : ∀ k < n, (times tick k m).1.running = true) : (n : ℕ∞) ≤ m.ticksToIdle := by
  refine le_iInf ?_
  rintro ⟨k, hk⟩
  refine Nat.cast_le.2 (Nat.le_of_not_lt fun hlt => ?_)
  simp [h k hlt] at hk

theorem ticksToIdle_le {m : Machine V σ} {n : ℕ} (h : (times tick n m).1.running = false) :
    m.ticksToIdle ≤ n :=
  iInf_le (fun n : {n : ℕ // (times tick n m).1.running = false} => (n : ℕ∞)) ⟨n, h⟩

/-- The ticks that a run makes of those it is granted. -/
structure Makes (m : Machine V σ) (granted made : ℕ) : Prop where
  le_granted : made ≤ granted
  running : ∀ n < made, (times tick n m).1.running = true
  ends : made = granted ∨ (times tick made m).1.running = false

theorem Makes.eq_min {m : Machine V σ} {granted made : ℕ} (h : m.Makes granted made) :
    (made : ℕ∞) = min (granted : ℕ∞) m.ticksToIdle := by
  refine le_antisymm (le_min (Nat.cast_le.2 h.le_granted) (le_ticksToIdle h.running)) ?_
  rcases h.ends with rfl | hidle
  · exact min_le_left _ _
  · exact (min_le_right _ _).trans (ticksToIdle_le hidle)

theorem makes_zero (m : Machine V σ) : m.Makes 0 0 :=
  ⟨Nat.le_refl 0, fun _ hn => absurd hn (Nat.not_lt_zero _), .inl rfl⟩

theorem makes_of_idle {m : Machine V σ} (h : m.running = false) (granted : ℕ) :
    m.Makes granted 0 :=
  ⟨Nat.zero_le granted, fun _ hn => absurd hn (Nat.not_lt_zero _), .inr h⟩

theorem Makes.succ {m : Machine V σ} {granted made : ℕ} (hrunning : m.running = true)
    (h : m.tick.1.Makes granted made) : m.Makes (granted + 1) (made + 1) where
  le_granted := Nat.succ_le_succ h.le_granted
  running n hn := by
    cases n with
    | zero => exact hrunning
    | succ n => exact h.running n (Nat.lt_of_succ_lt_succ hn)
  ends := h.ends.imp (congrArg (· + 1)) id

/-- An idle machine is as ticks leave it, and the pacer is not asked. -/
theorem drive_tallied_of_idle (pacer : Pacer ρ) (fuel : ℕ) {m : Machine V σ} (h : m.running = false)
    (g : ℕ) (s : ρ) (t : Pacer.Tally) :
    drive pacer.tallied (fuel + 1) m (s, t) =
      some ⟨(times tick g m).1.stop, (s, ⟨t.granted + 0,
        t.declined + if (times tick g m).1.running then 1 else 0⟩), (times tick g m).2⟩ := by
  rw [drive_of_idle _ fuel _ h, times_tick_of_idle h, stop_of_idle h, h]
  rfl

/-- The loop of a run whose pacer grants a number of ticks makes the machine tick as often and stops
it. The pacer is asked until the machine is idle, and declines only if it is not idle by then. -/
theorem drive_of_grantsExactly {pacer : Pacer ρ} {g fuel : ℕ} {m : Machine V σ} {s : ρ}
    (h : pacer.GrantsExactly m.config.interval g s) (hfuel : g < fuel) (t : Pacer.Tally) :
    ∃ s' made, m.Makes g made ∧ drive pacer.tallied fuel m (s, t) =
      some ⟨(times tick g m).1.stop, (s', ⟨t.granted + made,
        t.declined + if (times tick g m).1.running then 1 else 0⟩), (times tick g m).2⟩ := by
  obtain ⟨fuel, rfl⟩ : ∃ less, fuel = less + 1 := ⟨fuel - 1, by omega⟩
  induction g generalizing fuel m s t with
  | zero =>
      cases hrunning : m.running with
      | false => exact ⟨s, 0, makes_of_idle hrunning 0, drive_tallied_of_idle pacer fuel hrunning 0 s t⟩
      | true =>
          obtain ⟨s', hwait⟩ := h.declined
          refine ⟨s', 0, makes_zero m, ?_⟩
          rw [drive_of_declined fuel hrunning (Pacer.tallied_wait hwait t), times, hrunning]
          rfl
  | succ g ih =>
      cases hrunning : m.running with
      | false =>
          exact ⟨s, 0, makes_of_idle hrunning (g + 1),
            drive_tallied_of_idle pacer fuel hrunning (g + 1) s t⟩
      | true =>
          obtain ⟨less, rfl⟩ : ∃ less, fuel = less + 1 := ⟨fuel - 1, by omega⟩
          obtain ⟨s₁, hwait, hlater⟩ := h.granted
          rw [← config_step m] at hlater
          obtain ⟨s', made, hmade, hdrive⟩ := ih hlater (t.note true) less (by omega)
          refine ⟨s', made + 1, .succ hrunning ?_, ?_⟩
          · rwa [tick_of_running hrunning]
          · rw [drive_of_granted _ hrunning (Pacer.tallied_wait hwait t), times_succ,
              tick_of_running hrunning, hdrive]
            simp only [Option.map_some, Pacer.Tally.note, Nat.add_assoc, Nat.add_comm 1]

/-- A run whose pacer grants a number of ticks starts the machine, makes it tick as often, and stops
it. The pacer declines if the machine is still running then. -/
theorem run_of_grantsExactly {pacer : Pacer ρ} {g fuel : ℕ} {m : Machine V σ} {s : ρ}
    (h : pacer.GrantsExactly m.config.interval g s) (hfuel : g < fuel) :
    ∃ (s' : ρ) (tally : Pacer.Tally),
      m.run pacer fuel s =
        some ⟨(times tick g m.execute).1.stop, s', (times tick g m.execute).2⟩ ∧
      m.run pacer.tallied fuel (s, .zero) =
        some ⟨(times tick g m.execute).1.stop, (s', tally), (times tick g m.execute).2⟩ ∧
      (tally.granted : ℕ∞) = min (g : ℕ∞) m.execute.ticksToIdle ∧
      tally.declined = if (times tick g m.execute).1.running then 1 else 0 := by
  obtain ⟨s', made, hmade, hdrive⟩ := drive_of_grantsExactly (m := m.execute) h hfuel .zero
  refine ⟨s', _, ?_, hdrive, ?_, Nat.zero_add _⟩
  · rw [run, drive_tallied pacer fuel m.execute s .zero, hdrive]
    rfl
  · rw [← hmade.eq_min, Pacer.Tally.zero, Nat.zero_add]

/-- A run that a budget ended stops a running machine after as many ticks as the budget has. -/
theorem eq_of_run_declined {budget fuel : ℕ} {m : Machine V σ}
    {o : Outcome V σ (Pacer.Budget × Pacer.Tally)}
    (h : m.run Pacer.immediate.tallied fuel (.ofNat budget, .zero) = some o)
    (hdeclined : o.pacer.2.declined ≠ 0) :
    o.machine = (times tick budget m.execute).1.stop ∧
      o.events = (times tick budget m.execute).2 ∧
      (times tick budget m.execute).1.running = true := by
  obtain ⟨s', tally, -, hrun, -, htally⟩ := run_of_grantsExactly (m := m)
    (Pacer.grantsExactly_ofNat _ budget) (Nat.lt_succ_self budget)
  obtain rfl := drive_unique hrun h
  refine ⟨rfl, rfl, ?_⟩
  cases hrunning : (times tick budget m.execute).1.running with
  | true => rfl
  | false => simp [htally, hrunning] at hdeclined

/-- A run whose pacer grants a number of ticks and then declines is the machine started, ticked as
often, and stopped, and the pacer granted the ticks that it takes until the machine is idle, or all of
them if there are not as many. A budget is never exceeded, and after a run that ended because its budget
was spent, a run with a second budget goes on as one run with both would have. -/
theorem run_eq_granted_ticks (m : Machine V σ) :
    (∀ (pacer : Pacer ρ) (s : ρ) (g fuel : ℕ), pacer.GrantsExactly m.config.interval g s →
      g < fuel → ∃ (s' : ρ) (tally : Pacer.Tally),
        m.run pacer fuel s =
          some ⟨(times tick g m.execute).1.stop, s', (times tick g m.execute).2⟩ ∧
        m.run pacer.tallied fuel (s, .zero) =
          some ⟨(times tick g m.execute).1.stop, (s', tally), (times tick g m.execute).2⟩ ∧
        (tally.granted : ℕ∞) = min (g : ℕ∞) m.execute.ticksToIdle) ∧
    (∀ (budget : ℕ) (intervals : List ℕ),
      (Pacer.immediate.after (.ofNat budget) intervals).granted ≤ budget) ∧
    ∀ (first second fuel : ℕ) (o : Outcome V σ (Pacer.Budget × Pacer.Tally)),
      m.run Pacer.immediate.tallied fuel (.ofNat first, .zero) = some o →
      o.pacer.2.declined ≠ 0 →
      ∃ (more : ℕ) (rest whole : Outcome V σ Pacer.Budget),
        o.machine.run Pacer.immediate more (.ofNat second) = some rest ∧
        m.run Pacer.immediate more (.ofNat (first + second)) = some whole ∧
        whole.machine = rest.machine ∧ whole.events = o.events ++ rest.events := by
  refine ⟨?_, Pacer.granted_after_le, ?_⟩
  · intro pacer s g fuel hgrants hfuel
    obtain ⟨s', tally, hrun, htallied, hgranted, -⟩ := run_of_grantsExactly hgrants hfuel
    exact ⟨s', tally, hrun, htallied, hgranted⟩
  · intro first second fuel o hrun hdeclined
    obtain ⟨hmachine, hevents, hrunning⟩ := eq_of_run_declined hrun hdeclined
    obtain ⟨s₁, -, hrest, -⟩ := run_of_grantsExactly (m := o.machine)
      (Pacer.grantsExactly_ofNat _ second) (show second < first + second + 1 by omega)
    obtain ⟨s₂, -, hwhole, -⟩ := run_of_grantsExactly (m := m)
      (Pacer.grantsExactly_ofNat _ (first + second)) (Nat.lt_succ_self (first + second))
    refine ⟨_, _, _, hrest, hwhole, ?_⟩
    -- the machine that the budget stopped runs again where it was
    rw [hmachine, execute_stop_of_running hrunning, times_add, hevents]
    exact ⟨rfl, rfl⟩

/-- A machine over three instructions that do nothing. -/
def threeNops : Machine (Word .int64) Unit :=
  ofProgram "section .text\nnop" ⟨[], List.replicate 3 ⟨⟨14, 17⟩, [], none, 2, 3⟩⟩
    (InstructionSet.empty.defineInstruction "nop" fun _ => pure ()) .standard ()

/-- A budget of seven ticks is more than it needs, and budgets of one and two ticks are less. -/
theorem run_threeNops :
    Pacer.immediate.GrantsExactly threeNops.config.interval 7 (.ofNat 7) ∧
    (∃ s' tally, threeNops.run Pacer.immediate.tallied 8 (.ofNat 7, .zero) =
        some ⟨(times tick 7 threeNops.execute).1.stop, (s', tally), [.finish]⟩ ∧
      (tally.granted : ℕ∞) = min ((7 : ℕ) : ℕ∞) threeNops.execute.ticksToIdle) ∧
    ∃ o more rest whole, threeNops.run Pacer.immediate.tallied 2 (.ofNat 1, .zero) = some o ∧
      o.pacer.2.declined ≠ 0 ∧ o.machine.run Pacer.immediate more (.ofNat 2) = some rest ∧
      threeNops.run Pacer.immediate more (.ofNat 3) = some whole ∧
      whole.machine = rest.machine ∧ whole.events = o.events ++ rest.events := by
  obtain ⟨hgranted, -, hbudgets⟩ :=
    run_eq_granted_ticks (V := Word .int64) (σ := Unit) (ρ := Pacer.Budget) threeNops
  have hseven := Pacer.grantsExactly_ofNat threeNops.config.interval 7
  obtain ⟨o, hrun, hdeclined⟩ : ∃ o, threeNops.run Pacer.immediate.tallied 2 (.ofNat 1, .zero) =
      some o ∧ o.pacer.2.declined = 1 := ⟨_, rfl, rfl⟩
  refine ⟨hseven, ?_, ?_⟩
  · obtain ⟨s', tally, -, htallied, hmin⟩ := hgranted Pacer.immediate _ 7 8 hseven (by decide)
    exact ⟨s', tally, htallied, hmin⟩
  · have hne : o.pacer.2.declined ≠ 0 := by rw [hdeclined]; decide
    obtain ⟨more, rest, whole, hparts⟩ := hbudgets 1 2 2 o hrun hne
    exact ⟨o, more, rest, whole, hrun, hne, hparts⟩

end Machine

end Mnemonic
