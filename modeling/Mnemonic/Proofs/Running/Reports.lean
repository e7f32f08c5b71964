import Mathlib.Logic.ExistsUnique
import Mnemonic.Proofs.Running.Ticks

set_option autoImplicit false

/-!
# Reports

A step reports nothing and leaves the machine running or idle as it was, or it reports something and
leaves the machine idle. What it reports is the finish, one trap, or the two traps of an instruction
name that has no action. A run ends with the first tick that reports something, so a run reports what
one step may report, and it reports nothing only if the pacer declined.

Main statement: the reports of every step and of every run that ends (`report_step_and_run`).
-/

namespace Mnemonic

/-- All that a step reports, or a run. -/
inductive Report where
  | nothing
  | finish
  | trap (t : Trap)
  /-- an instruction name has no action, which is reported twice -/
  | undefined (name : String) (line column : Nat)
  deriving DecidableEq, Repr

/-- The wording of an event, if it has one. -/
def Event.message? : Event → Option String
  | trap t => some t.message
  | finish => none

namespace Report

/-- The events of a report. -/
def events : Report → List Event
  | nothing => []
  | finish => [.finish]
  | trap t => [.trap t]
  | undefined name line column =>
      [.trap (.illegalInstruction name line column),
        .trap (.failedInstruction name line column (.undefinedInstruction name))]

theorem events_inj {r r' : Report} : r.events = r'.events ↔ r = r' := by
  constructor
  · intro h
    cases r <;> cases r' <;> simp_all [events]
  · intro h
    rw [h]

theorem events_eq_nil_iff {r : Report} : r.events = [] ↔ r = nothing := by
  rw [← events_inj]
  rfl

/-- The finish is reported at most once, and not together with a trap. -/
theorem finish_alone (r : Report) :
    r.events.count .finish ≤ 1 ∧ ¬(.finish ∈ r.events ∧ ∃ t, .trap t ∈ r.events) := by
  cases r <;> simp [events]

end Report

namespace Machine

variable {V σ ρ : Type} [HoldsPointer V]

/-! ## Steps -/

/-- A step is allowed, and the name of the instruction that it fetches has no action. -/
structure FetchesUndefined (m : Machine V σ) (i : Instruction) (name : String) : Prop where
  pointed : ∃ n, m.PointsTo n ∧ m.program.text[n]? = some i
  fetched : ∃ operands, m.fetch? i = some (name, operands)
  undefined : m.actions.get? name = none

theorem step_of_fetchesUndefined {m : Machine V σ} {i : Instruction} {name : String}
    (h : m.FetchesUndefined i name) :
    m.step = (m.counted.stop, (Report.undefined name i.line i.column).events) := by
  obtain ⟨⟨n, hpoints, htext⟩, ⟨operands, hfetch⟩, hname⟩ := h
  exact (HasOutcome.undefined hpoints htext hfetch hname).step_eq

theorem exists_report_step (m : Machine V σ) :
    ∃ r : Report, m.step.2 = r.events ∧
      m.step.1.running = if r = .nothing then m.running else false := by
  have houtcome := hasOutcome_step m
  generalize m.step = outcome at houtcome
  cases houtcome with
  | finished => exact ⟨.finish, rfl, rfl⟩
  | undefined => exact ⟨.undefined _ _ _, rfl, rfl⟩
  | advanced => exact ⟨.nothing, rfl, rfl⟩
  | _ => exact ⟨.trap _, rfl, rfl⟩

/-- A name without an action, and nothing else, is reported twice. -/
theorem step_eq_undefined_iff {m : Machine V σ} {name : String} {line column : Nat} :
    m.step.2 = (Report.undefined name line column).events ↔
      ∃ i, m.FetchesUndefined i name ∧ i.line = line ∧ i.column = column := by
  constructor
  · intro h
    have houtcome := hasOutcome_step m
    generalize m.step = outcome at houtcome h
    cases houtcome with
    | undefined hpoints htext hfetch hname =>
        have hreport : Report.undefined _ _ _ = Report.undefined name line column :=
          Report.events_inj.1 h
        obtain ⟨rfl, rfl, rfl⟩ := Report.undefined.inj hreport
        exact ⟨_, ⟨⟨_, hpoints, htext⟩, ⟨_, hfetch⟩, hname⟩, rfl, rfl⟩
    | _ => simp [Report.events] at h
  · rintro ⟨i, h, rfl, rfl⟩
    rw [step_of_fetchesUndefined h]

/-! ## Runs -/

/-- A machine that is idle is not driven any further. -/
theorem Drives.eq_of_idle {pacer : Pacer ρ} {m : Machine V σ} {s : ρ} {o : Outcome V σ ρ}
    (h : Drives pacer m s o) (hidle : m.running = false) : o = ⟨m, s, []⟩ := by
  cases h with
  | idle => rfl
  | declined hrunning => simp [hidle] at hrunning
  | granted hrunning => simp [hidle] at hrunning

/-- What the loop of a run reports is what one step may report; it is nothing exactly when the pacer
declined, which it does at most once. -/
theorem Drives.exists_report {pacer : Pacer ρ} {m : Machine V σ} {s : ρ × Pacer.Tally}
    {o : Outcome V σ (ρ × Pacer.Tally)} (h : Drives pacer.tallied m s o)
    (hrunning : m.running = true) :
    o.machine.running = false ∧ ∃ r : Report, o.events = r.events ∧
      o.pacer.2.declined = s.2.declined + if r = .nothing then 1 else 0 := by
  induction h with
  | idle hidle => simp [hidle] at hrunning
  | declined _ hwait =>
      refine ⟨rfl, .nothing, rfl, ?_⟩
      simp [Pacer.tally_of_wait hwait, Pacer.Tally.note]
  | @granted m s s' o _ hwait hlater ih =>
      have hs' : s'.2.declined = s.2.declined := by
        rw [Pacer.tally_of_wait hwait]
        rfl
      obtain ⟨r, hevents, hflag⟩ := exists_report_step m
      by_cases hr : r = .nothing
      · -- nothing happened, so the loop goes on
        rw [if_pos hr, hrunning] at hflag
        obtain ⟨hend, r', hevents', hdeclined⟩ := ih hflag
        refine ⟨hend, r', ?_, ?_⟩
        · rw [hevents, hr, hevents']
          rfl
        · rw [hdeclined, hs']
      · -- something was reported, so the machine is idle and the loop ends
        rw [if_neg hr] at hflag
        obtain rfl := hlater.eq_of_idle hflag
        refine ⟨hflag, r, ?_, ?_⟩
        · simp [hevents]
        · simp [hs', hr]

/-- Every step reports nothing and leaves the machine running or idle as it was, or reports the finish,
a trap, or a name without an action twice, and leaves the machine idle; and every run that ends leaves
the machine idle and reports one of these, nothing if and only if the pacer declined. -/
theorem report_step_and_run :
    (∀ m : Machine V σ,
      (∃! r : Report, m.step.2 = r.events ∧
        m.step.1.running = if r = .nothing then m.running else false) ∧
      ∀ name line column, m.step.2 = (Report.undefined name line column).events ↔
        ∃ i, m.FetchesUndefined i name ∧ i.line = line ∧ i.column = column) ∧
    (∀ name line column, (Report.undefined name line column).events.map Event.message? =
      [some s!"Illegal instruction: {name} at {line}:{column}",
        some (s!"Instruction {name} execution error at {line}:{column}: " ++
          s!"instruction '{name}' is not defined")]) ∧
    ∀ (pacer : Pacer ρ) (fuel : Nat) (m : Machine V σ) (s : ρ) (o : Outcome V σ ρ),
      m.run pacer fuel s = some o →
        o.machine.running = false ∧ (∃! r : Report, o.events = r.events) ∧
        (∃ tally : Pacer.Tally, m.run pacer.tallied fuel (s, .zero) =
            some ⟨o.machine, (o.pacer, tally), o.events⟩ ∧
          (o.events = [] ↔ tally.declined = 1)) ∧
        o.events.count .finish ≤ 1 ∧ ¬(.finish ∈ o.events ∧ ∃ t, .trap t ∈ o.events) := by
  refine ⟨?_, ?_, ?_⟩
  · intro m
    obtain ⟨r, hevents, hflag⟩ := exists_report_step m
    refine ⟨⟨r, ⟨hevents, hflag⟩, ?_⟩, fun _ _ _ => step_eq_undefined_iff⟩
    rintro r' ⟨hevents', -⟩
    exact Report.events_inj.1 (hevents'.symm.trans hevents)
  · intro name line column
    rfl
  · intro pacer fuel m s o h
    rw [run, drive_tallied pacer fuel m.execute s .zero] at h
    obtain ⟨o', ho', rfl⟩ := Option.map_eq_some_iff.1 h
    obtain ⟨hend, r, hevents, hdeclined⟩ := (drives_of_drive ho').exists_report rfl
    refine ⟨hend, ⟨r, hevents, ?_⟩, ⟨o'.pacer.2, ho', ?_⟩, ?_⟩
    · intro r' hevents'
      exact Report.events_inj.1 (hevents'.symm.trans hevents)
    · change o'.events = [] ↔ _
      rw [hevents, Report.events_eq_nil_iff, hdeclined]
      by_cases hr : r = .nothing <;> simp [hr, Pacer.Tally.zero]
    · change o'.events.count .finish ≤ 1 ∧ ¬(.finish ∈ o'.events ∧ ∃ t, .trap t ∈ o'.events)
      rw [hevents]
      exact r.finish_alone

/-- A machine over one instruction, whose name has no action. -/
def undefinedName : Machine (Word .int64) Unit :=
  ofProgram "section .text\nbad" ⟨[], [⟨⟨14, 17⟩, [], none, 2, 3⟩]⟩ .empty .standard ()

/-- Its run reports the name twice, and the pacer does not decline. -/
theorem report_run_undefinedName :
    ∃ o, undefinedName.run .immediate 2 .unlimited = some o ∧ o.machine.running = false ∧
      o.events = (Report.undefined "bad" 2 3).events ∧
      ∃ tally : Pacer.Tally, undefinedName.run Pacer.immediate.tallied 2 (.unlimited, .zero) =
        some ⟨o.machine, (o.pacer, tally), o.events⟩ ∧ tally.declined ≠ 1 := by
  obtain ⟨o, hrun, hevents⟩ : ∃ o, undefinedName.run .immediate 2 .unlimited = some o ∧
      o.events = (Report.undefined "bad" 2 3).events := ⟨_, rfl, rfl⟩
  obtain ⟨hend, -, ⟨tally, htallied, hdeclined⟩, -⟩ := report_step_and_run.2.2 _ _ _ _ o hrun
  refine ⟨o, hrun, hend, hevents, tally, htallied, ?_⟩
  rw [Ne, ← hdeclined, hevents]
  simp [Report.events]

end Machine

end Mnemonic
