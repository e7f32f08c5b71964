import Mathlib.Data.List.Forall2
import Mnemonic.Proofs.Running.Reports
import Mnemonic.Proofs.Running.Stepped

set_option autoImplicit false

/-!
# Machines in lockstep

Two machines may hold different things and still behave alike: they are running at the same times, and
what they report looks the same, as far as one looks. If a relation between machines guarantees this and
a step of both preserves it, the machines behave alike under every script, and stay related. A step need
not preserve it always, but only for machines that are said to be good.

Main statement: related machines under scripts that do the same to both (`Lockstep.performAll`).
-/

namespace Mnemonic

/-- Related results stay related if the same is done to both. -/
theorem rel_map {α β γ δ : Type} {R : α → β → Prop} {S : γ → δ → Prop} {f : α → γ} {g : β → δ}
    {x : Option α} {y : Option β} (h : Option.Rel R x y) (hfg : ∀ a b, R a b → S (f a) (g b)) :
    Option.Rel S (x.map f) (y.map g) := by
  cases h with
  | none => exact .none
  | some h => exact .some (hfg _ _ h)

/-! ## Views of reports -/

/-- A view of events that tells the finish from the traps. -/
def Event.IsView {β : Type} (view : Event → β) : Prop :=
  ∀ e e', view e' = view e → (e' = .finish ↔ e = .finish)

theorem Event.isView_id : IsView (fun e : Event => e) := by
  rintro e e' rfl
  rfl

theorem Event.isView_message? : IsView message? := by
  intro e e' h
  cases e <;> cases e' <;> simp_all [message?]

namespace Listeners

variable {τ β : Type} {view : Event → β}

/-- What a view shows of the reports, with those who hear it. -/
def shown (view : Event → β) (reports : List (Option τ × Event)) : List (Option τ × β) :=
  reports.map fun (t, e) => (t, view e)

theorem shown_append (view : Event → β) (reports later : List (Option τ × Event)) :
    shown view (reports ++ later) = shown view reports ++ shown view later :=
  List.map_append

theorem shown_id (reports : List (Option τ × Event)) : shown (fun e => e) reports = reports :=
  List.map_id reports

theorem listener?_eq_of_view (hview : Event.IsView view) (l : Listeners τ) {e e' : Event}
    (h : view e' = view e) : l.listener? e' = l.listener? e := by
  have hfinish := hview e e' h
  cases e <;> cases e' <;> simp_all [listener?]

/-- Who hears what a view shows does not depend on the rest. -/
theorem shown_address (hview : Event.IsView view) (l : Listeners τ) {events events' : List Event}
    (h : events'.map view = events.map view) :
    shown view (l.address events') = shown view (l.address events) := by
  induction events generalizing events' with
  | nil =>
      obtain rfl := List.map_eq_nil_iff.1 h
      rfl
  | cons e events ih =>
      obtain ⟨e', more, rfl, hnow, hmore⟩ := List.map_eq_cons_iff.1 h
      have hlater := ih hmore
      simp only [shown, address, List.map_cons, hnow, l.listener?_eq_of_view hview hnow]
      exact congrArg _ hlater

end Listeners

/-! ## Related runs and scripts -/

variable {V V' σ σ' τ ρ β : Type} [HoldsPointer V] [HoldsPointer V'] {view : Event → β}

/-- Two operations do the same, and changes of the registers keep them related. -/
inductive Operation.Alike (R : NameMap V → NameMap V' → Prop) :
    Operation V τ ρ → Operation V' τ ρ → Prop
  | control (c : Control τ) : Alike R (.control c) (.control c)
  | reset : Alike R .reset .reset
  | edit {change : NameMap V → NameMap V} {change' : NameMap V' → NameMap V'}
      (h : ∀ registers registers', R registers registers' → R (change registers) (change' registers')) :
      Alike R (.edit change) (.edit change')
  | run (pacer : Pacer ρ) : Alike R (.run pacer) (.run pacer)

omit [HoldsPointer V] in
theorem Operation.alike_refl (op : Operation V τ ρ) : Operation.Alike Eq op op := by
  cases op with
  | control c => exact .control c
  | reset => exact .reset
  | edit change => exact .edit fun _ _ h => congrArg change h
  | run pacer => exact .run pacer

/-- Two runs ended alike, as far as a view shows. -/
structure Machine.Outcome.Alike (view : Event → β) (Rel : Machine V σ → Machine V' σ' → Prop)
    (o : Outcome V σ ρ) (o' : Outcome V' σ' ρ) : Prop where
  machine : Rel o.machine o'.machine
  pacer : o'.pacer = o.pacer
  events : o'.events.map view = o.events.map view

/-- Two scripts came to the same end, with the same reports as far as a view shows. -/
structure Attended.EndsAlike (view : Event → β) (Rel : Machine V σ → Machine V' σ' → Prop)
    (after : Attended V σ τ × ρ × List (Option τ × Event))
    (after' : Attended V' σ' τ × ρ × List (Option τ × Event)) : Prop where
  machine : Rel after.1.machine after'.1.machine
  listeners : after'.1.listeners = after.1.listeners
  pacer : after'.2.1 = after.2.1
  reports : Listeners.shown view after'.2.2 = Listeners.shown view after.2.2

namespace Machine

/-- Related machines behave alike, and all that is done to them keeps them related, for steps as long as
the first machine is good. -/
structure Lockstep (view : Event → β) (R : NameMap V → NameMap V' → Prop)
    (Rel : Machine V σ → Machine V' σ' → Prop) (Good : Machine V σ → Prop) : Prop where
  isView : Event.IsView view
  running : ∀ m m', Rel m m' → m'.running = m.running
  config : ∀ m m', Rel m m' → m'.config = m.config
  registers : ∀ m m', Rel m m' → R m.workspace.registers m'.workspace.registers
  step : ∀ m m', Rel m m' → Good m →
    Rel m.step.1 m'.step.1 ∧ m'.step.2.map view = m.step.2.map view
  execute : ∀ m m', Rel m m' → Rel m.execute m'.execute
  stop : ∀ m m', Rel m m' → Rel m.stop m'.stop
  reset : ∀ m m', Rel m m' → Rel m.reset m'.reset
  writeRegisters : ∀ m m' registers registers', Rel m m' → R registers registers' →
    Rel (m.withWorkspace { m.workspace with registers })
      (m'.withWorkspace { m'.workspace with registers := registers' })

namespace Lockstep

variable {R : NameMap V → NameMap V' → Prop} {Rel : Machine V σ → Machine V' σ' → Prop}
  {Good : Machine V σ → Prop}

theorem drive (h : Lockstep view R Rel Good) {pacer : Pacer ρ} {fuel : Nat} {m : Machine V σ}
    {m' : Machine V' σ'} (hm : Rel m m') (s : ρ) (hgood : ∀ v ∈ stepped pacer fuel m s, Good v) :
    Option.Rel (Outcome.Alike view Rel) (Machine.drive pacer fuel m s)
      (Machine.drive pacer fuel m' s) := by
  induction fuel generalizing m m' s with
  | zero => exact .none
  | succ fuel ih =>
      have hrunning' := h.running m m' hm
      have hconfig' := h.config m m' hm
      cases turn pacer m s with
      | idle hidle =>
          rw [hidle] at hrunning'
          rw [drive_of_idle pacer fuel s hidle, drive_of_idle pacer fuel s hrunning']
          exact .some ⟨hm, rfl, rfl⟩
      | declined hrunning hwait =>
          rw [hrunning] at hrunning'
          rw [drive_of_declined fuel hrunning hwait,
            drive_of_declined fuel hrunning' (hconfig' ▸ hwait)]
          exact .some ⟨h.stop m m' hm, rfl, rfl⟩
      | granted hrunning hwait =>
          rw [hrunning] at hrunning'
          rw [stepped_of_granted fuel hrunning hwait] at hgood
          obtain ⟨hnow, hlater⟩ := List.forall_mem_cons.1 hgood
          obtain ⟨hstep, hevents⟩ := h.step m m' hm hnow
          rw [drive_of_granted fuel hrunning hwait,
            drive_of_granted fuel hrunning' (hconfig' ▸ hwait)]
          refine rel_map (ih hstep _ hlater) fun o o' ho => ⟨ho.machine, ho.pacer, ?_⟩
          rw [List.map_append, List.map_append, hevents, ho.events]

theorem control (h : Lockstep view R Rel Good) {a : Attended V σ τ} {m' : Machine V' σ'}
    (hm : Rel a.machine m') (c : Control τ) (s : ρ)
    (hgood : c.makesStep a.machine.running = true → Good a.machine) :
    Attended.EndsAlike view Rel ((a.control c).1, s, (a.control c).2)
      (((⟨m', a.listeners⟩ : Attended V' σ' τ).control c).1, s,
        ((⟨m', a.listeners⟩ : Attended V' σ' τ).control c).2) := by
  cases c with
  | execute => exact ⟨h.execute _ _ hm, rfl, rfl, rfl⟩
  | stop => exact ⟨h.stop _ _ hm, rfl, rfl, rfl⟩
  | step =>
      obtain ⟨hstep, hevents⟩ := h.step _ _ hm (hgood rfl)
      exact ⟨hstep, rfl, rfl, a.listeners.shown_address h.isView hevents⟩
  | tick =>
      have hrunning' := h.running _ _ hm
      cases hrunning : a.machine.running with
      | false =>
          rw [hrunning] at hrunning'
          simp only [Attended.control, tick_of_idle hrunning, tick_of_idle hrunning']
          exact ⟨hm, rfl, rfl, rfl⟩
      | true =>
          rw [hrunning] at hrunning'
          obtain ⟨hstep, hevents⟩ := h.step _ _ hm (hgood hrunning)
          simp only [Attended.control, tick_of_running hrunning, tick_of_running hrunning']
          exact ⟨hstep, rfl, rfl, a.listeners.shown_address h.isView hevents⟩
  | onTrap => exact ⟨hm, rfl, rfl, rfl⟩
  | onFinish => exact ⟨hm, rfl, rfl, rfl⟩

theorem perform (h : Lockstep view R Rel Good) {fuel : Nat} {a : Attended V σ τ} {m' : Machine V' σ'}
    (hm : Rel a.machine m') (s : ρ) {op : Operation V τ ρ} {op' : Operation V' τ ρ}
    (hop : Operation.Alike R op op') (hgood : ∀ v ∈ a.stepped fuel s op, Good v) :
    Option.Rel (Attended.EndsAlike view Rel) (a.perform fuel s op)
      ((⟨m', a.listeners⟩ : Attended V' σ' τ).perform fuel s op') := by
  cases hop with
  | control c =>
      refine .some (h.control hm c s fun hmakes => ?_)
      rw [Attended.stepped, if_pos hmakes] at hgood
      exact hgood _ (List.mem_singleton_self _)
  | reset => exact .some ⟨h.reset _ _ hm, rfl, rfl, rfl⟩
  | edit hchange =>
      exact .some ⟨h.writeRegisters _ _ _ _ hm (hchange _ _ (h.registers _ _ hm)), rfl, rfl, rfl⟩
  | run pacer =>
      refine rel_map (h.drive (h.execute _ _ hm) s hgood) fun o o' ho => ?_
      exact ⟨ho.machine, rfl, ho.pacer, a.listeners.shown_address h.isView ho.events⟩

/-- Related machines that are heard by the same stay related under scripts that do the same to both,
and their reports look the same, as long as each machine that a step is made of is good. -/
theorem performAll (h : Lockstep view R Rel Good) {fuel : Nat} {a : Attended V σ τ} {m' : Machine V' σ'}
    (hm : Rel a.machine m') (s : ρ) {script : List (Operation V τ ρ)}
    {script' : List (Operation V' τ ρ)} (hscript : List.Forall₂ (Operation.Alike R) script script')
    (hgood : ∀ v ∈ a.steppedAll fuel s script, Good v) :
    Option.Rel (Attended.EndsAlike view Rel) (a.performAll fuel s script)
      ((⟨m', a.listeners⟩ : Attended V' σ' τ).performAll fuel s script') := by
  induction hscript generalizing a m' s with
  | nil => exact .some ⟨hm, rfl, rfl, rfl⟩
  | @cons op op' script script' hop hscript ih =>
      have hnow : ∀ v ∈ a.stepped fuel s op, Good v := fun v hv =>
        hgood v (List.mem_append_left _ hv)
      have hperform := h.perform hm s hop hnow
      generalize hafter : a.perform fuel s op = after,
        hafter' : Attended.perform fuel ⟨m', a.listeners⟩ s op' = after' at hperform
      cases hperform with
      | none =>
          rw [Attended.performAll_cons_of_none hafter, Attended.performAll_cons_of_none hafter']
          exact .none
      | @some after after' hends =>
          obtain ⟨a₁, s₁, reports⟩ := after
          obtain ⟨⟨m₁', listeners⟩, s₁', reports'⟩ := after'
          obtain ⟨hmachine, hlisteners, hpacer, hreports⟩ := hends
          obtain rfl : listeners = a₁.listeners := hlisteners
          obtain rfl : s₁' = s₁ := hpacer
          rw [Attended.steppedAll_cons_of_some hafter] at hgood
          rw [Attended.performAll_cons_of_some hafter, Attended.performAll_cons_of_some hafter']
          refine rel_map (ih hmachine s₁' fun v hv => hgood v (List.mem_append_right _ hv)) ?_
          rintro ⟨a₂, s₂, later⟩ ⟨a₂', s₂', later'⟩ hlater
          refine ⟨hlater.machine, hlater.listeners, hlater.pacer, ?_⟩
          rw [Listeners.shown_append, Listeners.shown_append, hlater.reports]
          exact congrArg (· ++ _) hreports

end Lockstep

end Machine

end Mnemonic
