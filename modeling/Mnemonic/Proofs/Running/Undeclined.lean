import Mnemonic.Proofs.Running.Faults
import Mnemonic.Proofs.Running.Grants
import Mnemonic.Proofs.Running.Stepped

set_option autoImplicit false

/-!
# Runs that are not declined

A pacer that never declines leaves the end of a run to the machine. Such a run is a number of steps
that report nothing, and one more step, which makes the machine idle.

Main statement: what such a run ends with, how many ticks it takes and which actions it calls
(`runsTo_of_goes`), whether the program is finished, the step limit is reached, or an action fails.
-/

namespace Mnemonic

namespace Pacer

variable {ρ : Type}

/-- The pacer grants every tick, however often it is asked. -/
def NeverDeclines (p : Pacer ρ) (interval : Nat) (s : ρ) : Prop :=
  ∀ n, (p.wait interval (p.after s (List.replicate n interval))).1 = true

theorem NeverDeclines.granted {p : Pacer ρ} {interval : Nat} {s : ρ}
    (h : p.NeverDeclines interval s) :
    ∃ s', p.wait interval s = (true, s') ∧ p.NeverDeclines interval s' :=
  ⟨_, Prod.ext (h 0) rfl, fun n => h (n + 1)⟩

theorem neverDeclines_of_invariant {p : Pacer ρ} {interval : Nat} {P : ρ → Prop}
    (h : ∀ s, P s → (p.wait interval s).1 = true ∧ P (p.wait interval s).2) {s : ρ} (hs : P s) :
    p.NeverDeclines interval s := by
  intro n
  induction n generalizing s with
  | zero => exact (h s hs).1
  | succ n ih => exact ih (h s hs).2

/-- Counting the answers of a pacer does not make it decline. -/
theorem NeverDeclines.tallied {p : Pacer ρ} {interval : Nat} {s : ρ} (h : p.NeverDeclines interval s)
    (t : Tally) : p.tallied.NeverDeclines interval (s, t) := by
  refine neverDeclines_of_invariant (P := fun st => p.NeverDeclines interval st.1) ?_ h
  rintro ⟨s, t⟩ hs
  obtain ⟨s', hwait, hs'⟩ := hs.granted
  rw [tallied_wait hwait t]
  exact ⟨rfl, hs'⟩

theorem neverDeclines_steady (interval : Nat) : steady.NeverDeclines interval () :=
  neverDeclines_of_invariant (P := fun _ => True) (fun _ _ => ⟨rfl, trivial⟩) trivial

theorem neverDeclines_immediate (interval : Nat) : immediate.NeverDeclines interval .unlimited := by
  refine neverDeclines_of_invariant (P := fun b => b.budget = none) ?_ rfl
  intro b hb
  have hunspent : b.isSpent = false := by simp [Budget.isSpent, hb]
  simp [immediate, hunspent, hb]

end Pacer

namespace Machine

variable {V σ ρ : Type} [HoldsPointer V]

/-- The machine makes a number of steps that report nothing, with these calls. -/
inductive Goes : Machine V σ → Nat → List Call → Machine V σ → Prop
  | refl (m : Machine V σ) : Goes m 0 [] m
  | step {m m₁ m' : Machine V σ} {n : Nat} {calls : List Call} (h : m.step = (m₁, []))
      (hlater : Goes m₁ n calls m') : Goes m (n + 1) (m.calls ++ calls) m'

theorem Goes.trans {m m' m'' : Machine V σ} {n n' : Nat} {calls more : List Call}
    (h : Goes m n calls m') (h' : Goes m' n' more m'') : Goes m (n + n') (calls ++ more) m'' := by
  induction h with
  | refl m => rwa [Nat.zero_add]
  | @step m m₁ m' n calls hstep _ ih =>
      rw [List.append_assoc, Nat.add_right_comm]
      exact .step hstep (ih h')

theorem running_of_silent {m m' : Machine V σ} (h : m.step = (m', [])) : m'.running = m.running := by
  obtain ⟨r, hevents, hflag⟩ := exists_report_step m
  rw [h] at hevents hflag
  have hr : r = .nothing := Report.events_eq_nil_iff.1 hevents.symm
  rwa [if_pos hr] at hflag

theorem config_of_silent {m m' : Machine V σ} (h : m.step = (m', [])) : m'.config = m.config := by
  have hstep := config_step m
  rwa [h] at hstep

/-- A run that ends with the machine, whose pacer granted so many ticks and was never asked again,
with the calls of actions and the events. -/
structure RunsTo (pacer : Pacer ρ) (s : ρ) (fuel : Nat) (m m' : Machine V σ) (calls : List Call)
    (ticks : Nat) (events : List Event) : Prop where
  run : ∃ s', m.run pacer.tallied fuel (s, .zero) = some ⟨m', (s', ⟨ticks, 0⟩), events⟩
  noting : ∃ s', (m.noting []).run pacer.tallied fuel (s, .zero) =
    some ⟨m'.noting calls, (s', ⟨ticks, 0⟩), events⟩

/-- The loop of a run that is not declined makes the steps that report nothing. -/
theorem drive_of_goes {pacer : Pacer ρ} {m m' : Machine V σ} {n : Nat} {calls : List Call}
    (hgoes : Goes m n calls m') {s : ρ} (hpacer : pacer.NeverDeclines m.config.interval s)
    (hrunning : m.running = true) (fuel : Nat) (t : Pacer.Tally) :
    ∃ s', pacer.NeverDeclines m'.config.interval s' ∧ m'.running = true ∧
      drive pacer.tallied (n + fuel) m (s, t) =
        drive pacer.tallied fuel m' (s', ⟨t.granted + n, t.declined⟩) ∧
      (stepped pacer.tallied (n + fuel) m (s, t)).flatMap Machine.calls = calls ++
        (stepped pacer.tallied fuel m' (s', ⟨t.granted + n, t.declined⟩)).flatMap
          Machine.calls := by
  induction hgoes generalizing s t with
  | refl m => exact ⟨s, hpacer, hrunning, by rw [Nat.zero_add]; rfl, by rw [Nat.zero_add]; rfl⟩
  | @step m m₁ m' n calls h hlater ih =>
      obtain ⟨s₁, hwait, hpacer₁⟩ := hpacer.granted
      have htallied := Pacer.tallied_wait hwait t
      have hfuel : n + 1 + fuel = n + fuel + 1 := Nat.add_right_comm n 1 fuel
      have hgranted : (t.note true).granted + n = t.granted + (n + 1) := by
        simp +arith [Pacer.Tally.note]
      obtain ⟨s', hpacer', hrunning', hdrive, hcalls⟩ :=
        ih (config_of_silent h ▸ hpacer₁) ((running_of_silent h).trans hrunning) (t.note true)
      rw [hgranted] at hdrive hcalls
      refine ⟨s', hpacer', hrunning', ?_, ?_⟩
      · rw [hfuel, drive_of_granted (n + fuel) hrunning htallied, h, hdrive]
        exact congrFun Option.map_id _
      · rw [hfuel, stepped_of_granted (n + fuel) hrunning htallied, h, List.flatMap_cons, hcalls,
          List.append_assoc]
        rfl

/-- A run that is not declined ends with the first step that makes the machine idle. -/
theorem runsTo_of_goes {pacer : Pacer ρ} {m m₁ m' : Machine V σ} {n fuel : Nat} {calls : List Call}
    {events : List Event} {s : ρ} (hpacer : pacer.NeverDeclines m.config.interval s)
    (hgoes : Goes m.execute n calls m₁) (hlast : m₁.step = (m', events))
    (hidle : m'.running = false) (hfuel : n + 1 < fuel) :
    RunsTo pacer s fuel m m' (calls ++ m₁.calls) (n + 1) events := by
  obtain ⟨fuel, rfl⟩ : ∃ less, fuel = n + (less + 1 + 1) := ⟨fuel - n - 2, by omega⟩
  obtain ⟨s₁, hpacer₁, hrunning, hdrive, hcalls⟩ :=
    drive_of_goes hgoes hpacer rfl (fuel + 1 + 1) .zero
  obtain ⟨s', hwait, -⟩ := hpacer₁.granted
  have hend : m₁.step.1.running = false := by rwa [hlast]
  have htallied := Pacer.tallied_wait hwait ⟨Pacer.Tally.zero.granted + n, Pacer.Tally.zero.declined⟩
  rw [drive_of_granted (fuel + 1) hrunning htallied, drive_of_idle _ fuel _ hend, hlast] at hdrive
  rw [stepped_of_granted (fuel + 1) hrunning htallied, stepped_of_idle _ fuel _ hend] at hcalls
  have hrun : m.run pacer.tallied (n + (fuel + 1 + 1)) (s, .zero) =
      some ⟨m', (s', ⟨n + 1, 0⟩), events⟩ := by
    rw [run, hdrive]
    simp [Pacer.Tally.note, Pacer.Tally.zero]
  refine ⟨⟨s', hrun⟩, s', ?_⟩
  have hnoting := drive_noting pacer.tallied (n + (fuel + 1 + 1)) m.execute (s, .zero) []
  have hexecute : (m.noting []).execute = m.execute.noting [] := rfl
  rw [run, hexecute, hnoting, hcalls]
  rw [run] at hrun
  rw [hrun]
  simp

/-! ## How a run ends -/

variable {pacer : Pacer ρ} {s : ρ} {m m₁ : Machine V σ} {n fuel : Nat} {calls : List Call}

/-- A run may end behind the last instruction. -/
theorem runsTo_of_finished {k : Nat} (hpacer : pacer.NeverDeclines m.config.interval s)
    (hgoes : Goes m.execute n calls m₁) (hpoints : m₁.PointsTo k)
    (htext : m₁.program.text[k]? = none) (hfuel : n + 1 < fuel) :
    RunsTo pacer s fuel m m₁.counted.reset calls (n + 1) [.finish] := by
  have hcalls : m₁.calls = [] := by
    refine calls_of_not_runs fun i name operands action hruns => ?_
    obtain ⟨k', hpoints', htext'⟩ := hruns.pointed
    rw [← hpoints.unique hpoints', htext] at htext'
    simp at htext'
  have hruns := runsTo_of_goes hpacer hgoes (HasOutcome.finished hpoints htext).step_eq rfl hfuel
  rwa [hcalls, List.append_nil] at hruns

/-- A run may end at the step limit. -/
theorem runsTo_of_reachedLimit {limit : Nat} (hpacer : pacer.NeverDeclines m.config.interval s)
    (hgoes : Goes m.execute n calls m₁) (hreached : m₁.reachedLimit? = some limit)
    (hfuel : n + 1 < fuel) :
    RunsTo pacer s fuel m m₁.stop calls (n + 1) [.trap (.stepLimit limit)] := by
  have hcalls : m₁.calls = [] := calls_of_not_runs (Prevented.atLimit hreached).not_runs
  have hruns := runsTo_of_goes hpacer hgoes (HasOutcome.atLimit hreached).step_eq rfl hfuel
  rwa [hcalls, List.append_nil] at hruns

/-- A run may end with an action that fails. -/
theorem runsTo_of_fails {i : Instruction} {name : String} {operands : List String}
    {action : Action V σ} {e : ActionError} {left : Workspace V σ}
    (hpacer : pacer.NeverDeclines m.config.interval s) (hgoes : Goes m.execute n calls m₁)
    (hruns : m₁.Runs i name operands action)
    (hfails : action operands m₁.workspace = .error e left) (hfuel : n + 1 < fuel) :
    RunsTo pacer s fuel m (m₁.counted.withWorkspace left).stop (calls ++ [⟨name, operands⟩]) (n + 1)
      [.trap (.failedInstruction name i.line i.column e)] := by
  have hend := runsTo_of_goes hpacer hgoes (HasOutcome.failed hruns hfails).step_eq rfl hfuel
  rwa [calls_of_runs hruns] at hend

end Machine

end Mnemonic
