import Mnemonic.Proofs.Running.Limits
import Mnemonic.Proofs.Running.Undeclined

set_option autoImplicit false

/-!
# Counting in a word

The steps of a machine are counted in a 64-bit word. A host that checks its arithmetic is brought down by
a step that the word cannot count, and until then it runs a machine as any other host does.

Main statements: a run of fewer ticks than the word can count ends on such a host as elsewhere
(`RunsTo.checked`), and one that would make more steps without a report brings it down before the step
that overflows (`checkedRun_of_goes`).
-/

namespace Mnemonic.Machine

variable {V σ ρ : Type}

/-! ## Steps that overflow -/

theorem overflows_eq_true_iff {m : Machine V σ} :
    m.overflows = true ↔ m.reachedLimit? = none ∧ 2 ^ 64 ≤ m.steps + 1 := by
  have hlo : WordRange.uint64.lo = 0 := rfl
  have hhi : WordRange.uint64.hi = 18446744073709551615 := rfl
  rw [overflows, Bool.and_eq_true, Option.isNone_iff_eq_none, Option.isNone_iff_eq_none,
    Word.ofInt?_eq_none_iff]
  refine and_congr_right fun _ => ?_
  omega

theorem overflows_eq_false {m : Machine V σ} (h : m.steps + 1 < 2 ^ 64) : m.overflows = false := by
  rw [Bool.eq_false_iff, Ne, overflows_eq_true_iff]
  omega

variable [HoldsPointer V]

theorem checkedDrive_of_idle (pacer : Pacer ρ) (fuel : Nat) {m : Machine V σ} (s : ρ)
    (h : m.running = false) : checkedDrive pacer (fuel + 1) m s = some (.ok ⟨m, s, []⟩) := by
  simp [checkedDrive, h]

theorem checkedDrive_of_declined {pacer : Pacer ρ} (fuel : Nat) {m : Machine V σ} {s s' : ρ}
    (h : m.running = true) (hwait : pacer.wait m.config.interval s = (false, s')) :
    checkedDrive pacer (fuel + 1) m s = some (.ok ⟨m.stop, s', []⟩) := by
  simp [checkedDrive, h, hwait]

theorem checkedDrive_of_overflows {pacer : Pacer ρ} (fuel : Nat) {m : Machine V σ} {s s' : ρ}
    (h : m.running = true) (hwait : pacer.wait m.config.interval s = (true, s'))
    (hoverflows : m.overflows = true) : checkedDrive pacer (fuel + 1) m s = some (.error m) := by
  simp [checkedDrive, h, hwait, hoverflows]

theorem checkedDrive_of_granted {pacer : Pacer ρ} (fuel : Nat) {m : Machine V σ} {s s' : ρ}
    (h : m.running = true) (hwait : pacer.wait m.config.interval s = (true, s'))
    (hfits : m.overflows = false) :
    checkedDrive pacer (fuel + 1) m s = (checkedDrive pacer fuel m.step.1 s').map fun ending =>
      ending.map fun o => { o with events := m.step.2 ++ o.events } := by
  simp only [checkedDrive, h, hwait, hfits, if_true, Bool.false_eq_true, if_false, tick_of_running h]

/-! ## Runs whose steps are all counted -/

theorem steps_step_le (m : Machine V σ) : m.step.1.steps ≤ m.steps + 1 := by
  have houtcome := hasOutcome_step m
  generalize m.step = outcome at houtcome
  cases houtcome <;> simp [counted, withWorkspace, setRegister, reset]

/-- As long as all steps can be counted, the loop of a run is the same on a host that checks its
arithmetic. -/
theorem checkedDrive_eq_drive {pacer : Pacer ρ} {fuel : Nat} {m : Machine V σ} {s : ρ}
    (h : m.steps + (stepped pacer fuel m s).length < 2 ^ 64) :
    checkedDrive pacer fuel m s = (drive pacer fuel m s).map .ok := by
  induction fuel generalizing m s with
  | zero => rfl
  | succ fuel ih =>
      cases turn pacer m s with
      | idle hidle =>
          rw [checkedDrive_of_idle pacer fuel s hidle, drive_of_idle pacer fuel s hidle]
          rfl
      | declined hrunning hwait =>
          rw [checkedDrive_of_declined fuel hrunning hwait, drive_of_declined fuel hrunning hwait]
          rfl
      | granted hrunning hwait =>
          rw [stepped_of_granted fuel hrunning hwait, List.length_cons] at h
          have hsteps := m.steps_step_le
          rw [checkedDrive_of_granted fuel hrunning hwait (overflows_eq_false (by omega)),
            drive_of_granted fuel hrunning hwait, ih (by omega), Option.map_map, Option.map_map]
          rfl

/-- A tally has a grant for each step of the run. -/
theorem granted_of_drive {pacer : Pacer ρ} {fuel : Nat} {m : Machine V σ} {s : ρ × Pacer.Tally}
    {o : Outcome V σ (ρ × Pacer.Tally)} (h : drive pacer.tallied fuel m s = some o) :
    o.pacer.2.granted = s.2.granted + (stepped pacer.tallied fuel m s).length := by
  induction fuel generalizing m s o with
  | zero => simp [drive] at h
  | succ fuel ih =>
      cases turn pacer.tallied m s with
      | idle hidle =>
          rw [drive_of_idle _ fuel s hidle] at h
          obtain rfl := Option.some.inj h
          rw [stepped_of_idle _ fuel s hidle]
          rfl
      | declined hrunning hwait =>
          rw [drive_of_declined fuel hrunning hwait] at h
          obtain rfl := Option.some.inj h
          rw [stepped_of_declined fuel hrunning hwait, Pacer.tally_of_wait hwait]
          rfl
      | granted hrunning hwait =>
          rw [drive_of_granted fuel hrunning hwait] at h
          obtain ⟨o', ho', rfl⟩ := Option.map_eq_some_iff.1 h
          refine (ih ho').trans ?_
          rw [Pacer.tally_of_wait hwait, stepped_of_granted fuel hrunning hwait, List.length_cons]
          simp only [Pacer.Tally.note]
          omega

/-- A run that ends with the machine, as in `RunsTo`, also on a host that checks its arithmetic. -/
structure CheckedRunsTo (pacer : Pacer ρ) (s : ρ) (fuel : Nat) (m m' : Machine V σ)
    (calls : List Call) (ticks : Nat) (events : List Event) : Prop
    extends RunsTo pacer s fuel m m' calls ticks events where
  checkedRun : ∃ s', m.checkedRun pacer.tallied fuel (s, .zero) =
    some (.ok ⟨m', (s', ⟨ticks, 0⟩), events⟩)

/-- A run whose ticks the counter can count ends as elsewhere on a host that checks its arithmetic. -/
theorem RunsTo.checked {pacer : Pacer ρ} {s : ρ} {fuel : Nat} {m m' : Machine V σ} {calls : List Call}
    {ticks : Nat} {events : List Event} (h : RunsTo pacer s fuel m m' calls ticks events)
    (hcounted : m.steps + ticks < 2 ^ 64) : CheckedRunsTo pacer s fuel m m' calls ticks events where
  toRunsTo := h
  checkedRun := by
    obtain ⟨s', hrun⟩ := h.run
    rw [Machine.run] at hrun
    have hticks : ticks = 0 + (stepped pacer.tallied fuel m.execute (s, .zero)).length :=
      granted_of_drive hrun
    have hfits : m.steps + (stepped pacer.tallied fuel m.execute (s, .zero)).length < 2 ^ 64 := by
      omega
    refine ⟨s', ?_⟩
    rw [Machine.checkedRun, checkedDrive_eq_drive hfits, hrun]
    rfl

/-! ## Runs that overflow -/

/-- Steps that report nothing can be cut off after any number of them. -/
theorem Goes.split {m m' : Machine V σ} {n k : Nat} {calls : List Call} (h : Goes m (n + k) calls m') :
    ∃ m₁ first later, Goes m n first m₁ ∧ Goes m₁ k later m' ∧ calls = first ++ later := by
  induction n generalizing m calls with
  | zero => exact ⟨m, [], calls, .refl m, by rwa [Nat.zero_add] at h, rfl⟩
  | succ n ih =>
      rw [Nat.add_right_comm] at h
      cases h with
      | step hstep hlater =>
          obtain ⟨m₁, first, later, hfirst, hrest, rfl⟩ := ih hlater
          exact ⟨m₁, _, later, .step hstep hfirst, hrest, (List.append_assoc _ _ _).symm⟩

theorem steps_of_silent {m m' : Machine V σ} (h : m.step = (m', [])) :
    m.reachedLimit? = none ∧ m'.steps = m.steps + 1 := by
  have hstep := steps_step_of_silent (congrArg Prod.snd h)
  rwa [h] at hstep

/-- Steps that report nothing are all counted. -/
theorem Goes.steps {m m' : Machine V σ} {n : Nat} {calls : List Call} (h : Goes m n calls m') :
    m'.steps = m.steps + n := by
  induction h with
  | refl m => rfl
  | @step m m₁ m' n calls hstep _ ih =>
      rw [ih, (steps_of_silent hstep).2, Nat.add_assoc, Nat.add_comm 1]

/-- As long as the steps that report nothing can be counted, the loop of a run makes them on a host that
checks its arithmetic. -/
theorem checkedDrive_of_goes {pacer : Pacer ρ} {m m' : Machine V σ} {n : Nat} {calls : List Call}
    (hgoes : Goes m n calls m') {s : ρ} (hpacer : pacer.NeverDeclines m.config.interval s)
    (hrunning : m.running = true) (hfits : m.steps + n < 2 ^ 64) (fuel : Nat) :
    ∃ s', pacer.NeverDeclines m'.config.interval s' ∧ m'.running = true ∧
      checkedDrive pacer (n + fuel) m s = checkedDrive pacer fuel m' s' := by
  induction hgoes generalizing s with
  | refl m => exact ⟨s, hpacer, hrunning, by rw [Nat.zero_add]⟩
  | @step m m₁ m' n calls h hlater ih =>
      obtain ⟨s₁, hwait, hpacer₁⟩ := hpacer.granted
      have hsteps := (steps_of_silent h).2
      obtain ⟨s', hpacer', hrunning', hdrive⟩ :=
        ih (config_of_silent h ▸ hpacer₁) ((running_of_silent h).trans hrunning) (by omega)
      refine ⟨s', hpacer', hrunning', ?_⟩
      rw [Nat.add_right_comm,
        checkedDrive_of_granted (n + fuel) hrunning hwait (overflows_eq_false (by omega)), h, hdrive]
      cases checkedDrive pacer fuel m' s' with
      | none => rfl
      | some ending => cases ending <;> rfl

/-- A run that is not declined and makes more steps without a report than the counter can count brings
down a host that checks its arithmetic, before the first step that overflows. -/
theorem checkedRun_of_goes {pacer : Pacer ρ} {s : ρ} {m m' : Machine V σ} {n fuel : Nat}
    {calls : List Call} (hpacer : pacer.NeverDeclines m.config.interval s)
    (hgoes : Goes m.execute n calls m') (hsteps : 2 ^ 64 ≤ m.steps + n) (hstart : m.steps < 2 ^ 64)
    (hfuel : n < fuel) :
    ∃ m₁, m.checkedRun pacer fuel s = some (.error m₁) ∧ m₁.running = true ∧
      m₁.steps + 1 = 2 ^ 64 := by
  -- the steps that the word counts, and one more
  obtain ⟨k, rest, rfl, hk⟩ : ∃ k rest, n = k + (rest + 1) ∧ m.steps + k + 1 = 2 ^ 64 :=
    ⟨2 ^ 64 - 1 - m.steps, n - (2 ^ 64 - m.steps), by omega, by omega⟩
  obtain ⟨less, rfl⟩ : ∃ less, fuel = k + (less + 1) := ⟨fuel - k - 1, by omega⟩
  obtain ⟨m₁, first, later, hfirst, hlater, -⟩ := hgoes.split
  have hmade : m₁.steps = m.steps + k := hfirst.steps
  have hfits : m.steps + k < 2 ^ 64 := by omega
  obtain ⟨s₁, hpacer₁, hrunning, hdrive⟩ := checkedDrive_of_goes hfirst hpacer rfl hfits (less + 1)
  have hallowed : m₁.reachedLimit? = none := by
    cases hlater with
    | step hstep _ => exact (steps_of_silent hstep).1
  obtain ⟨s₂, hwait, -⟩ := hpacer₁.granted
  have hoverflows : m₁.overflows = true := overflows_eq_true_iff.2 ⟨hallowed, by omega⟩
  refine ⟨m₁, ?_, hrunning, by omega⟩
  rw [checkedRun, hdrive, checkedDrive_of_overflows less hrunning hwait hoverflows]

end Mnemonic.Machine
