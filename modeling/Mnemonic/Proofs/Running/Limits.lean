import Mnemonic.Proofs.Running.Rewinding
import Mnemonic.Proofs.Running.Stepped

set_option autoImplicit false

/-!
# The step limit

A machine with a step limit makes so many steps between two resets and no more, whatever its actions do
and however often it is stopped, started and run. Every step that is allowed is counted, whether it goes
well or not, and a step that is not allowed does nothing but report so. So each run ends, and one that
the limit ends has made all the steps that were left.

Main statements: the allowed steps of a script are counted, and no others (`steps_of_performAll`); each
run ends (`Limited.exists_drive`); a run that reports the limit made the steps that were left
(`Limited.eq_of_stepLimit`); and `steps_within_limit`.
-/

namespace Mnemonic

namespace Machine

variable {V σ τ ρ : Type}

/-! ## Allowed steps -/

/-- The machine has a step limit, and has not made more steps than that. -/
structure Limited (limit : Nat) (m : Machine V σ) : Prop where
  maxSteps : m.config.maxSteps = some limit
  steps_le : m.steps ≤ limit

namespace Limited

variable {limit : Nat} {m : Machine V σ}

theorem reachedLimit?_eq (h : m.Limited limit) :
    m.reachedLimit? = if m.steps = limit then some limit else none := by
  have hle := h.steps_le
  have hiff : limit ≤ m.steps ↔ m.steps = limit := by omega
  simp [reachedLimit?, h.maxSteps, hiff, Option.filter_some]

theorem lt_of_allowed (h : m.Limited limit) (hallowed : m.reachedLimit? = none) :
    m.steps < limit :=
  reachedLimit?_eq_none_iff.1 hallowed limit h.maxSteps

theorem eq_of_reached {l : Nat} (h : m.Limited limit) (hreached : m.reachedLimit? = some l) :
    l = limit ∧ m.steps = limit := by
  by_cases heq : m.steps = limit
  · rw [h.reachedLimit?_eq, if_pos heq] at hreached
    exact ⟨(Option.some.inj hreached).symm, heq⟩
  · simp [h.reachedLimit?_eq, heq] at hreached

end Limited

variable [HoldsPointer V]

/-- A step that does not finish the program is counted if it is allowed. -/
theorem steps_step {m : Machine V σ} (h : .finish ∉ m.step.2) :
    m.step.1.steps = m.steps + if m.allows then 1 else 0 := by
  have houtcome := hasOutcome_step m
  generalize m.step = outcome at houtcome h
  cases houtcome with
  | atLimit hlimit => simp [allows, hlimit]
  | noPointer hallowed => simp [allows, hallowed, counted]
  | outOfRange hallowed => simp [allows, hallowed, counted]
  | finished => simp at h
  | mismatched hpoints => simp [allows, hpoints.allowed, counted]
  | undefined hpoints => simp [allows, hpoints.allowed, counted]
  | failed hruns | lostPointer hruns | advanced hruns =>
      obtain ⟨n, hpoints, -⟩ := hruns.pointed
      simp [allows, hpoints.allowed, counted, withWorkspace, setRegister]

/-- A step that reports nothing is allowed, and is counted. -/
theorem steps_step_of_silent {m : Machine V σ} (h : m.step.2 = []) :
    m.reachedLimit? = none ∧ m.step.1.steps = m.steps + 1 := by
  have hfinish : .finish ∉ m.step.2 := by simp [h]
  cases hreached : m.reachedLimit? with
  | none => simp [steps_step hfinish, allows, hreached]
  | some limit => simp [(HasOutcome.atLimit hreached).step_eq] at h

/-- The allowed steps of a run are counted, and no others. -/
theorem steps_of_drive {pacer : Pacer ρ} {fuel : Nat} {m : Machine V σ} {s : ρ} {o : Outcome V σ ρ}
    (h : drive pacer fuel m s = some o)
    (hfinish : ∀ v ∈ stepped pacer fuel m s, .finish ∉ v.step.2) :
    o.machine.steps = m.steps + (stepped pacer fuel m s).countP allows := by
  induction fuel generalizing m s o with
  | zero => simp [drive] at h
  | succ fuel ih =>
      cases turn pacer m s with
      | idle hidle =>
          rw [drive_of_idle pacer fuel s hidle] at h
          obtain rfl := Option.some.inj h
          rw [stepped_of_idle pacer fuel s hidle]
          rfl
      | declined hrunning hwait =>
          rw [drive_of_declined fuel hrunning hwait] at h
          obtain rfl := Option.some.inj h
          rw [stepped_of_declined fuel hrunning hwait]
          rfl
      | granted hrunning hwait =>
          rw [drive_of_granted fuel hrunning hwait] at h
          obtain ⟨o', ho', rfl⟩ := Option.map_eq_some_iff.1 h
          rw [stepped_of_granted fuel hrunning hwait] at hfinish ⊢
          obtain ⟨hnow, hlater⟩ := List.forall_mem_cons.1 hfinish
          rw [List.countP_cons, ih ho' hlater, steps_step hnow]
          omega

end Machine

namespace Attended

variable {V σ τ ρ : Type} [HoldsPointer V]

theorem steps_of_perform {fuel : Nat} {a a' : Attended V σ τ} {s s' : ρ} {op : Operation V τ ρ}
    {reports : List (Option τ × Event)} (h : a.perform fuel s op = some (a', s', reports))
    (hop : op.resets = false) (hfinish : ∀ v ∈ a.stepped fuel s op, .finish ∉ v.step.2) :
    a'.machine.steps = a.machine.steps + (a.stepped fuel s op).countP Machine.allows := by
  cases op with
  | reset => simp [Operation.resets] at hop
  | edit change =>
      simp only [perform, Option.some.injEq, Prod.mk.injEq] at h
      obtain ⟨rfl, -⟩ := h
      rfl
  | run pacer =>
      obtain ⟨o, ho, hparts⟩ := Option.map_eq_some_iff.1 h
      obtain ⟨rfl, -⟩ := Prod.mk.inj hparts
      exact Machine.steps_of_drive ho hfinish
  | control c =>
      simp only [perform, Option.some.injEq, Prod.mk.injEq] at h
      obtain ⟨rfl, -⟩ := h
      cases hmakes : c.makesStep a.machine.running with
      | true =>
          rw [stepped, if_pos hmakes] at hfinish ⊢
          rw [(control_of_makesStep hmakes).1, List.countP_singleton,
            Machine.steps_step (hfinish _ (List.mem_singleton_self _))]
      | false =>
          have hsteps := congrArg Machine.steps (control_of_not_makesStep hmakes).1
          rw [stepped, hmakes]
          exact hsteps

/-- The allowed steps of a script without resets are counted, and no others. -/
theorem steps_of_performAll {fuel : Nat} {a a' : Attended V σ τ} {s s' : ρ}
    {script : List (Operation V τ ρ)} {reports : List (Option τ × Event)}
    (h : a.performAll fuel s script = some (a', s', reports))
    (hscript : ∀ op ∈ script, op.resets = false)
    (hfinish : ∀ v ∈ a.steppedAll fuel s script, .finish ∉ v.step.2) :
    a'.machine.steps = a.machine.steps + (a.steppedAll fuel s script).countP Machine.allows := by
  induction script generalizing a s reports with
  | nil =>
      simp only [performAll, Option.some.injEq, Prod.mk.injEq] at h
      obtain ⟨rfl, -⟩ := h
      rfl
  | cons op script ih =>
      cases hop : a.perform fuel s op with
      | none => simp [performAll_cons_of_none hop] at h
      | some after =>
          obtain ⟨a₁, s₁, now⟩ := after
          rw [performAll_cons_of_some hop] at h
          obtain ⟨⟨a₂, s₂, later⟩, hlater, hparts⟩ := Option.map_eq_some_iff.1 h
          simp only [Prod.mk.injEq] at hparts
          obtain ⟨rfl, rfl, -⟩ := hparts
          rw [steppedAll_cons_of_some hop] at hfinish ⊢
          obtain ⟨hnow, hthen⟩ := List.forall_mem_append.1 hfinish
          obtain ⟨hfirst, hrest⟩ := List.forall_mem_cons.1 hscript
          rw [ih hlater hrest hthen, steps_of_perform hop hfirst hnow, List.countP_append]
          omega

end Attended

/-! ## Runs within the limit -/

namespace Machine

variable {V σ τ ρ : Type} [HoldsPointer V] {limit : Nat}

/-- Nothing that is done to a machine takes it over its limit. -/
theorem invariant_limited (limit : Nat) :
    Invariant (Limited limit : Machine V σ → Prop) fun _ => True where
  step m hm := by
    refine ⟨⟨?_, ?_⟩, fun _ _ => trivial⟩
    · rw [config_step, hm.maxSteps]
    · by_cases hfinish : .finish ∈ m.step.2
      · rw [step_of_finish hfinish]
        exact Nat.zero_le limit
      · rw [steps_step hfinish, allows]
        cases hallowed : m.reachedLimit? with
        | none => exact hm.lt_of_allowed hallowed
        | some => exact hm.steps_le
  execute _ hm := ⟨hm.maxSteps, hm.steps_le⟩
  stop _ hm := ⟨hm.maxSteps, hm.steps_le⟩
  reset _ hm := ⟨hm.maxSteps, Nat.zero_le limit⟩
  writeRegisters _ _ hm := ⟨hm.maxSteps, hm.steps_le⟩
  writeHost _ _ hm := ⟨hm.maxSteps, hm.steps_le⟩

/-- A step reports the limit only if it is reached. -/
theorem reachedLimit?_of_stepLimit {m : Machine V σ} (h : .trap (.stepLimit limit) ∈ m.step.2) :
    m.reachedLimit? = some limit := by
  have houtcome := hasOutcome_step m
  generalize m.step = outcome at houtcome h
  cases houtcome with
  | atLimit hlimit =>
      obtain rfl : limit = _ := by simpa using h
      exact hlimit
  | _ => simp at h

/-- Once the limit is reached, only a reset changes that. -/
theorem persistent_reachedLimit (limit : Nat) :
    Persistent fun m : Machine V σ => m.reachedLimit? = some limit where
  step m hm := by
    rw [(HasOutcome.atLimit hm).step_eq]
    exact hm
  execute _ hm := hm
  stop _ hm := hm
  writeRegisters _ _ hm := hm

namespace Limited

variable {m : Machine V σ}

theorem step (h : m.Limited limit) : m.step.1.Limited limit := ((invariant_limited limit).step m h).1

/-- A step that reports nothing is one of those that were left. -/
theorem steps_step_of_silent (h : m.Limited limit) (hsilent : m.step.2 = []) :
    m.step.1.steps = m.steps + 1 ∧ m.steps < limit := by
  obtain ⟨hallowed, hsteps⟩ := Machine.steps_step_of_silent hsilent
  exact ⟨hsteps, h.lt_of_allowed hallowed⟩

/-- Every run ends, whatever the pacer answers, and asks it for the steps that are left and for one
more at most. -/
theorem exists_drive (h : m.Limited limit) (pacer : Pacer ρ) (s : ρ × Pacer.Tally) {fuel : Nat}
    (hfuel : limit + 1 - m.steps < fuel) :
    ∃ o, drive pacer.tallied fuel m s = some o ∧
      o.pacer.2.asked ≤ s.2.asked + (limit + 1 - m.steps) := by
  induction fuel generalizing m s with
  | zero => exact absurd hfuel (Nat.not_lt_zero _)
  | succ fuel ih =>
      have hle := h.steps_le
      cases turn pacer.tallied m s with
      | idle hidle => exact ⟨_, drive_of_idle _ fuel s hidle, Nat.le_add_right _ _⟩
      | @declined s' hrunning hwait =>
          refine ⟨_, drive_of_declined fuel hrunning hwait, ?_⟩
          rw [Pacer.tally_of_wait hwait, Pacer.Tally.asked_note]
          omega
      | @granted s' hrunning hwait =>
          have hasked : s'.2.asked = s.2.asked + 1 := by
            rw [Pacer.tally_of_wait hwait, Pacer.Tally.asked_note]
          obtain ⟨r, hevents, hflag⟩ := exists_report_step m
          by_cases hr : r = .nothing
          · -- a step less is left
            obtain ⟨hsteps, hlt⟩ := h.steps_step_of_silent (by rw [hevents, hr]; rfl)
            obtain ⟨o, ho, hbound⟩ := ih h.step s' (by omega)
            refine ⟨_, by rw [drive_of_granted fuel hrunning hwait, ho]; rfl, ?_⟩
            change o.pacer.2.asked ≤ _
            omega
          · -- the machine is idle now, so the pacer is not asked again
            rw [if_neg hr] at hflag
            obtain ⟨less, rfl⟩ : ∃ less, fuel = less + 1 := ⟨fuel - 1, by omega⟩
            refine ⟨_, by rw [drive_of_granted _ hrunning hwait, drive_of_idle _ less s' hflag]; rfl, ?_⟩
            change s'.2.asked ≤ _
            omega

/-- A run that reports the limit made the steps that were left. -/
theorem eq_of_stepLimit (h : m.Limited limit) {pacer : Pacer ρ} {s : ρ} {o : Outcome V σ ρ} {l : Nat}
    (hdrives : Drives pacer m s o) (htrap : .trap (.stepLimit l) ∈ o.events) :
    l = limit ∧ (times Machine.step (limit - m.steps) m).2 = [] ∧
      (times Machine.step (limit - m.steps) m).1.steps = limit ∧
      o.machine = (times Machine.step (limit - m.steps) m).1.stop ∧
      o.events = [.trap (.stepLimit limit)] ∧ o.machine.reachedLimit? = some limit := by
  induction hdrives with
  | idle => simp at htrap
  | declined => simp at htrap
  | @granted m s s' o hrunning hwait hlater ih =>
      obtain ⟨r, hevents, hflag⟩ := exists_report_step m
      by_cases hr : r = .nothing
      · have hsilent : m.step.2 = [] := by
          rw [hevents, hr]
          rfl
        obtain ⟨hsteps, hlt⟩ := h.steps_step_of_silent hsilent
        have hleft : limit - m.steps = limit - m.step.1.steps + 1 := by omega
        rw [hleft, times_succ, hsilent]
        exact ih h.step (by simpa [hsilent] using htrap)
      · rw [if_neg hr] at hflag
        obtain rfl := hlater.eq_of_idle hflag
        have hreached := reachedLimit?_of_stepLimit (by simpa using htrap)
        obtain ⟨rfl, hsteps⟩ := h.eq_of_reached hreached
        rw [(HasOutcome.atLimit hreached).step_eq, hsteps, Nat.sub_self]
        exact ⟨rfl, rfl, hsteps, rfl, rfl, hreached⟩

/-- With fuel for the steps of its limit, each script comes to its end. -/
theorem exists_performAll {a : Attended V σ τ} (h : a.machine.Limited limit) (s : ρ) {fuel : Nat}
    (hfuel : limit + 1 < fuel) (script : List (Operation V τ ρ)) :
    ∃ a' s' reports, a.performAll fuel s script = some (a', s', reports) := by
  induction script generalizing a s with
  | nil => exact ⟨a, s, [], rfl⟩
  | cons op script ih =>
      obtain ⟨⟨a₁, s₁, now⟩, hop⟩ : ∃ after, a.perform fuel s op = some after := by
        cases op with
        | run pacer =>
            have hexecute : a.machine.execute.Limited limit := ⟨h.maxSteps, h.steps_le⟩
            obtain ⟨o, ho, -⟩ := hexecute.exists_drive pacer (s, .zero)
              (Nat.lt_of_le_of_lt (Nat.sub_le _ _) hfuel)
            rw [Attended.perform, run, drive_tallied pacer fuel a.machine.execute s .zero, ho]
            exact ⟨_, rfl⟩
        | _ => exact ⟨_, rfl⟩
      have hafter := ((reaches_of_perform hop).of_invariant (invariant_limited limit) h).1
      obtain ⟨a₂, s₂, later, hlater⟩ := ih hafter s₁
      refine ⟨a₂, s₂, now ++ later, ?_⟩
      rw [Attended.performAll_cons_of_some hop, hlater]
      rfl

end Limited

/-- A machine with a step limit never makes more steps than that between two resets. Of the steps of a
script that neither resets it nor finishes the program, as many are allowed as are counted, and no more
actions are called. Every run ends, for every pacer, which is asked for one tick more than there are
steps left at most. If the limit ends a run, the steps that were left are made, and after that each
step, whatever is done in between, reports the limit and does nothing else until there is a reset. -/
theorem steps_within_limit {source : String} {program : Program} {set : InstructionSet V σ}
    {config : Config} {host : σ} (hconfig : config.maxSteps = some limit) {m : Machine V σ}
    {events : List Event} (hreaches : Reaches (ofProgram source program set config host) events m) :
    m.steps ≤ limit ∧
    (∀ (listeners : Listeners τ) (s : ρ) (fuel : Nat) (script : List (Operation V τ ρ)),
      limit + 1 < fuel → ∃ a' s' reports,
        (⟨m, listeners⟩ : Attended V σ τ).performAll fuel s script = some (a', s', reports) ∧
        ((∀ op ∈ script, op.resets = false) →
          (∀ v ∈ (⟨m, listeners⟩ : Attended V σ τ).steppedAll fuel s script, .finish ∉ v.step.2) →
          let allowed :=
            ((⟨m, listeners⟩ : Attended V σ τ).steppedAll fuel s script).countP allows
          m.steps + allowed = a'.machine.steps ∧ a'.machine.steps ≤ limit ∧
          ∃ calls, (Attended.noting ⟨m, listeners⟩ []).performAll fuel s script =
            some (a'.noting calls, s', reports) ∧ calls.length ≤ allowed)) ∧
    (∀ (pacer : Pacer ρ) (s : ρ) (fuel : Nat), limit + 1 < fuel →
      ∃ o, m.run pacer.tallied fuel (s, .zero) = some o ∧
        o.pacer.2.asked ≤ limit + 1 - m.steps ∧
        ∀ l, .trap (.stepLimit l) ∈ o.events →
          let last := times step (limit - m.steps) m.execute
          o.events = [.trap (.stepLimit limit)] ∧ last.2 = [] ∧ last.1.steps = limit ∧
          o.machine.workspace = last.1.workspace ∧
          ∀ (listeners : Listeners τ) (s : ρ) (fuel : Nat) (script : List (Operation V τ ρ)),
            (∀ op ∈ script, op.resets = false) →
            ∀ v ∈ (⟨o.machine, listeners⟩ : Attended V σ τ).steppedAll fuel s script,
              v.step = (v.stop, [.trap (.stepLimit limit)])) ∧
    (Trap.stepLimit limit).message = s!"execution step limit exceeded ({limit})" := by
  have hnew : (ofProgram source program set config host).Limited limit :=
    ⟨hconfig, Nat.zero_le limit⟩
  have hm : m.Limited limit := (hreaches.of_invariant (invariant_limited limit) hnew).1
  refine ⟨hm.steps_le, ?_, ?_, rfl⟩
  · intro listeners s fuel script hfuel
    obtain ⟨a', s', reports, hscript⟩ :=
      hm.exists_performAll (a := ⟨m, listeners⟩) s hfuel script
    refine ⟨a', s', reports, hscript, ?_⟩
    intro hresets hfinish allowed
    have ha' : a'.machine.Limited limit :=
      ((reaches_of_performAll hscript).of_invariant (invariant_limited limit) hm).1
    refine ⟨(Attended.steps_of_performAll hscript hresets hfinish).symm, ha'.steps_le, ?_⟩
    refine ⟨_, ?_, length_flatMap_calls_le _⟩
    rw [Attended.performAll_noting, hscript]
    rfl
  · intro pacer s fuel hfuel
    have hexecute : m.execute.Limited limit := ⟨hm.maxSteps, hm.steps_le⟩
    obtain ⟨o, hrun, hasked⟩ := hexecute.exists_drive pacer (s, .zero)
      (Nat.lt_of_le_of_lt (Nat.sub_le _ _) hfuel)
    rw [show (s, Pacer.Tally.zero).2.asked = 0 from rfl, Nat.zero_add] at hasked
    refine ⟨o, hrun, hasked, ?_⟩
    intro l htrap last
    obtain ⟨-, hsilent, hsteps, hmachine, hevents, hreached⟩ :=
      hexecute.eq_of_stepLimit (drives_of_drive hrun) htrap
    refine ⟨hevents, hsilent, hsteps, by rw [hmachine]; rfl, ?_⟩
    intro listeners s fuel script hresets v hv
    exact (HasOutcome.atLimit ((persistent_reachedLimit limit).forall_steppedAll
      (a := ⟨o.machine, listeners⟩) hreached s hresets v hv)).step_eq

/-- A machine that stays at its one instruction, and with so many steps allowed. -/
def spinning (limit : Nat) : Machine (Word .int64) Unit :=
  ofProgram "section .text\nspin" ⟨[], [⟨⟨14, 18⟩, [], none, 2, 4⟩]⟩
    (.defineInstruction .empty "spin" fun _ => modify fun w =>
      { w with registers := w.registers.set pointerName (.ofIntOrZero (-1)) })
    ⟨1, some limit⟩ ()

/-- With three steps allowed it makes one and then runs for the other two. After that it can neither run
nor step. -/
theorem steps_within_limit_spinning :
    let script : List (Operation (Word .int64) Unit Pacer.Budget) :=
      [.control .step, .run .immediate, .control .stop, .run .immediate, .control .step]
    let a : Attended (Word .int64) Unit Unit := ⟨spinning 3, .none⟩
    (∃ a' s' reports calls,
      (a.noting []).performAll 5 .unlimited script = some (Attended.noting a' calls, s', reports) ∧
        (a.steppedAll 5 .unlimited script).countP allows = a'.machine.steps ∧
        a'.machine.steps ≤ 3 ∧ calls.length ≤ 3) ∧
    ∃ o, (spinning 3).run Pacer.immediate.tallied 5 (.unlimited, .zero) = some o ∧
      o.pacer.2.asked ≤ 4 ∧ o.events = [.trap (.stepLimit 3)] ∧
      o.machine.step = (o.machine.stop, [.trap (.stepLimit 3)]) := by
  intro script a
  have hresets : ∀ op ∈ script, op.resets = false := by simp [script, Operation.resets]
  have hfinish : ∀ v ∈ a.steppedAll 5 .unlimited script, .finish ∉ v.step.2 := by decide
  have hconfig : (spinning 3).config.maxSteps = some 3 := rfl
  obtain ⟨-, hscripts, hruns, -⟩ := steps_within_limit (τ := Unit) (ρ := Pacer.Budget) hconfig
    (.refl (spinning 3))
  constructor
  · obtain ⟨a', s', reports, -, hcounted⟩ := hscripts .none .unlimited 5 script (by decide)
    obtain ⟨hsteps, hle, calls, hnoting, hcalls⟩ := hcounted hresets hfinish
    rw [show (spinning 3).steps = 0 from rfl, Nat.zero_add] at hsteps
    exact ⟨a', s', reports, calls, hnoting, hsteps, hle, by omega⟩
  · obtain ⟨o, hrun, hasked, hend⟩ := hruns .immediate .unlimited 5 (by decide)
    have htrap : .trap (.stepLimit 3) ∈ o.events := by
      have hevents : ((spinning 3).run Pacer.immediate.tallied 5 (.unlimited, .zero)).map
          Outcome.events = some [.trap (.stepLimit 3)] := rfl
      rw [hrun] at hevents
      simp [Option.some.inj hevents]
    obtain ⟨hevents, -, -, -, hlater⟩ := hend 3 htrap
    exact ⟨o, hrun, hasked, hevents,
      hlater .none .unlimited 0 [.control .step] (by simp [Operation.resets]) o.machine
        (List.mem_singleton_self _)⟩

end Machine

end Mnemonic
