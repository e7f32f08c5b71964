import Mnemonic.Proofs.Running.Jumps
import Mnemonic.Proofs.Running.Lockstep

set_option autoImplicit false

/-!
# The kind of the registers

A program may run on registers of any kind. If the actions treat the values of a kind as the integers
that they denote, a machine of that kind does what the machine of signed integers of 64 bits does, and
reports the same, as long as its registers can hold the instruction pointer wherever it goes. An
instruction pointer out of the range of the kind would become zero.

Main statements: the machines stay related in each step (`lockstep_alike`), and under every script
(`performAll_alike`).
-/

namespace Mnemonic

open HoldsPointer

/-! ## Values as integers -/

namespace Word

theorem pointer?_eq_of_val_eq {r r' : WordRange} {w : Word r} {w' : Word r'} (h : w'.val = w.val) :
    pointer? w' = pointer? w :=
  congrArg ofInt? h

theorem val_ofPointer {r : WordRange} {ip : Int64Word} (hlo : r.lo ≤ ip.val) (hhi : ip.val ≤ r.hi) :
    (ofPointer ip : Word r).val = ip.val :=
  (pointer?_eq_some_iff.1 (pointer?_ofPointer hlo hhi)).symm

end Word

namespace RegisterKind

variable {k : RegisterKind}

/-- A value of the kind denotes a signed integer of 64 bits. -/
def Denotes : (k : RegisterKind) → RegisterKind.int64.Carrier → k.Carrier → Prop
  | int32, n, w => Word.val w = Word.val n
  | int64, n, w => Word.val w = Word.val n
  | uint32, n, w => Word.val w = Word.val n
  | uint64, n, w => Word.val w = Word.val n
  | usize, n, w => Word.val w = Word.val n
  | value, n, v => v = Value.integer n

/-- The value is the instruction pointer that the integer is. -/
theorem Denotes.pointer?_eq {n : RegisterKind.int64.Carrier} {v : k.Carrier} (h : k.Denotes n v) :
    pointer? v = pointer? n := by
  cases k with
  | value =>
      obtain rfl : v = Value.integer n := h
      exact (Word.ofInt?_val n).symm
  | _ => exact Word.pointer?_eq_of_val_eq h

/-- A pointer in the range of the kind is kept as the integer that it is. -/
theorem denotes_ofPointer {ip : Int64Word} (hlo : k.range.lo ≤ ip.val) (hhi : ip.val ≤ k.range.hi) :
    k.Denotes (ofPointer ip) (ofPointer ip) := by
  have hint64 : (ofPointer ip : Word .int64) = ip := Word.ofIntOrZero_val ip
  cases k with
  | value => exact congrArg Value.integer hint64.symm
  | _ => exact (Word.val_ofPointer hlo hhi).trans (congrArg Word.val hint64.symm)

/-- Signed integers of 64 bits hold every pointer. -/
theorem kept_int64 (ip : Int64Word) : int64.kept ip = ip := if_pos ⟨ip.lo_le, ip.le_hi⟩

theorem denotes_ofPointer_zero : k.Denotes (ofPointer .zero) (ofPointer .zero) :=
  denotes_ofPointer k.range.lo_nonpos k.range.hi_nonneg

end RegisterKind

/-! ## Related maps -/

namespace NameMap

variable {α β : Type} {R : α → β → Prop} {m : NameMap α} {m' : NameMap β}

/-- Two maps have the same names, with related values. -/
def Related (R : α → β → Prop) (m : NameMap α) (m' : NameMap β) : Prop :=
  ∀ name, Option.Rel R (m.get? name) (m'.get? name)

theorem Related.set (h : Related R m m') (name : String) {a : α} {b : β} (hab : R a b) :
    Related R (m.set name a) (m'.set name b) := by
  intro other
  rw [get?_set, get?_set]
  split
  · exact .some hab
  · exact h other

theorem Related.none_iff (h : Related R m m') {name : String} (hnone : m.get? name = none) :
    m'.get? name = none := by
  have hname := h name
  rw [hnone] at hname
  generalize m'.get? name = x at hname
  cases hname
  rfl

end NameMap

/-! ## Related machines -/

/-- Only the words of the cause show in the report of an action that failed. -/
theorem Event.message?_failedInstruction (name : String) (line column : Nat) {e e' : ActionError}
    (h : e'.message = e.message) :
    message? (.trap (.failedInstruction name line column e')) =
      message? (.trap (.failedInstruction name line column e)) :=
  congrArg (fun cause => some s!"Instruction {name} execution error at {line}:{column}: {cause}") h

variable {k : RegisterKind} {σ σ' τ ρ : Type} {R : σ → σ' → Prop}

/-- The registers and the stack denote the same integers, and what the hosts keep is related. -/
structure Workspace.Alike (k : RegisterKind) (R : σ → σ' → Prop)
    (w : Workspace RegisterKind.int64.Carrier σ) (w' : Workspace k.Carrier σ') : Prop where
  registers : w.registers.Related k.Denotes w'.registers
  stack : List.Forall₂ k.Denotes w.stack w'.stack
  host : R w.host w'.host

/-- Two actions ended alike: both went well, or both failed in the same words. -/
inductive Action.EndsAlike (k : RegisterKind) (R : σ → σ' → Prop) :
    EStateM.Result ActionError (Workspace RegisterKind.int64.Carrier σ) Unit →
      EStateM.Result ActionError (Workspace k.Carrier σ') Unit → Prop
  | ok {w : Workspace RegisterKind.int64.Carrier σ} {w' : Workspace k.Carrier σ'}
      (h : w.Alike k R w') : EndsAlike k R (.ok () w) (.ok () w')
  | error {w : Workspace RegisterKind.int64.Carrier σ} {w' : Workspace k.Carrier σ'}
      {e e' : ActionError} (h : w.Alike k R w') (hmessage : e'.message = e.message) :
      EndsAlike k R (.error e w) (.error e' w')

theorem Action.EndsAlike.exists_ok {w : Workspace RegisterKind.int64.Carrier σ}
    {result : EStateM.Result ActionError (Workspace k.Carrier σ') Unit}
    (h : Action.EndsAlike k R (.ok () w) result) : ∃ w', result = .ok () w' ∧ w.Alike k R w' := by
  cases h with
  | ok hw => exact ⟨_, rfl, hw⟩

theorem Action.EndsAlike.exists_error {w : Workspace RegisterKind.int64.Carrier σ} {e : ActionError}
    {result : EStateM.Result ActionError (Workspace k.Carrier σ') Unit}
    (h : Action.EndsAlike k R (.error e w) result) :
    ∃ e' w', result = .error e' w' ∧ e'.message = e.message ∧ w.Alike k R w' := by
  cases h with
  | error hw hmessage => exact ⟨_, _, rfl, hmessage, hw⟩

/-- Two actions end alike wherever they start alike. -/
def Action.Alike (k : RegisterKind) (R : σ → σ' → Prop) (action : Action RegisterKind.int64.Carrier σ)
    (action' : Action k.Carrier σ') : Prop :=
  ∀ operands w w', Workspace.Alike k R w w' →
    Action.EndsAlike k R (action operands w) (action' operands w')

/-- Two instruction sets have registers of the same names, which denote the same integers, and
instructions of the same names, whose actions are alike. -/
structure InstructionSet.Alike (k : RegisterKind) (R : σ → σ' → Prop)
    (set : InstructionSet RegisterKind.int64.Carrier σ) (set' : InstructionSet k.Carrier σ') : Prop where
  registers : set.registers.Related k.Denotes set'.registers
  actions : set.actions.Related (Action.Alike k R) set'.actions

namespace Machine

/-- Two machines are at the same point of the same program, on related workspaces, and with actions that
are alike. -/
structure Alike (k : RegisterKind) (R : σ → σ' → Prop) (m : Machine RegisterKind.int64.Carrier σ)
    (m' : Machine k.Carrier σ') : Prop where
  source : m'.source = m.source
  program : m'.program = m.program
  workspace : m.workspace.Alike k R m'.workspace
  baseline : m.baseline.Related k.Denotes m'.baseline
  actions : m.actions.Related (Action.Alike k R) m'.actions
  running : m'.running = m.running
  config : m'.config = m.config
  steps : m'.steps = m.steps

/-- Wherever the action that is due leaves the instruction pointer, the kind holds the one after it. -/
def StaysIn (k : RegisterKind) (m : Machine RegisterKind.int64.Carrier σ) : Prop :=
  ∀ left, m.Leaves left → k.range.lo ≤ min (left.val + 1) WordRange.int64.hi ∧
    min (left.val + 1) WordRange.int64.hi ≤ k.range.hi

namespace Alike

variable {m : Machine RegisterKind.int64.Carrier σ} {m' : Machine k.Carrier σ'}

theorem pointer?_eq (h : m.Alike k R m') : m'.pointer? = m.pointer? := by
  have hget := h.workspace.registers pointerName
  rw [pointer?, pointer?]
  generalize m.workspace.registers.get? pointerName = x,
    m'.workspace.registers.get? pointerName = x' at hget
  cases hget with
  | none => rfl
  | some hdenotes => exact hdenotes.pointer?_eq

theorem reachedLimit?_eq (h : m.Alike k R m') : m'.reachedLimit? = m.reachedLimit? := by
  rw [reachedLimit?, reachedLimit?, h.config, h.steps]

theorem fetch?_eq (h : m.Alike k R m') (i : Instruction) : m'.fetch? i = m.fetch? i := by
  rw [fetch?, fetch?, h.source]

theorem withWorkspace (h : m.Alike k R m') {w : Workspace RegisterKind.int64.Carrier σ}
    {w' : Workspace k.Carrier σ'} (hw : w.Alike k R w') :
    (m.withWorkspace w).Alike k R (m'.withWorkspace w') :=
  { h with workspace := hw }

theorem counted (h : m.Alike k R m') : m.counted.Alike k R m'.counted :=
  { h with steps := congrArg (· + 1) h.steps }

theorem execute (h : m.Alike k R m') : m.execute.Alike k R m'.execute :=
  { h with running := rfl }

theorem stop (h : m.Alike k R m') : m.stop.Alike k R m'.stop :=
  { h with running := rfl }

theorem reset (h : m.Alike k R m') : m.reset.Alike k R m'.reset :=
  { h with
    workspace := ⟨h.baseline, .nil, h.workspace.host⟩
    running := rfl
    steps := rfl }

theorem setPointer (h : m.Alike k R m') {ip : Int64Word} (hlo : k.range.lo ≤ ip.val)
    (hhi : ip.val ≤ k.range.hi) :
    (m.setRegister pointerName (ofPointer ip)).Alike k R (m'.setRegister pointerName (ofPointer ip)) :=
  { h with
    workspace := { h.workspace with
      registers := h.workspace.registers.set pointerName (RegisterKind.denotes_ofPointer hlo hhi) } }

theorem pointsTo (h : m.Alike k R m') {n : Nat} (hpoints : m.PointsTo n) : m'.PointsTo n := by
  obtain ⟨hallowed, ip, hpointer, hn⟩ := hpoints
  exact ⟨h.reachedLimit?_eq.trans hallowed, ip, h.pointer?_eq.trans hpointer, hn⟩

theorem text (h : m.Alike k R m') {n : Nat} {found : Option Instruction}
    (htext : m.program.text[n]? = found) : m'.program.text[n]? = found := by
  rw [h.program, htext]

theorem exists_runs (h : m.Alike k R m') {i : Instruction} {name : String} {operands : List String}
    {action : Action RegisterKind.int64.Carrier σ} (hruns : m.Runs i name operands action) :
    ∃ action', m'.Runs i name operands action' ∧
      Action.EndsAlike k R (action operands m.workspace) (action' operands m'.workspace) := by
  obtain ⟨⟨n, hpoints, htext⟩, hfetch, hdefined⟩ := hruns
  have hname := h.actions name
  rw [hdefined] at hname
  generalize hdefined' : m'.actions.get? name = found at hname
  cases hname with
  | @some _ action' halike =>
      exact ⟨action', ⟨⟨n, h.pointsTo hpoints, h.text htext⟩, (h.fetch?_eq i).trans hfetch, hdefined'⟩,
        halike operands _ _ h.workspace⟩

end Alike

/-- A step that moves the pointer on left it where the pointer before the new one is. -/
theorem leaves_of_advanced {m : Machine RegisterKind.int64.Carrier σ} {i : Instruction} {name : String}
    {operands : List String} {action : Action RegisterKind.int64.Carrier σ}
    {workspace : Workspace RegisterKind.int64.Carrier σ} {ip : Int64Word}
    (hruns : m.Runs i name operands action) (haction : action operands m.workspace = .ok () workspace)
    (hpointer : (m.withWorkspace workspace).pointer? = some ip) : m.Leaves ip := by
  obtain ⟨w, hget, hw⟩ := Option.bind_eq_some_iff.1 hpointer
  have hkept : (ofPointer ip : Word .int64) = w := Word.ofPointer_of_pointer? hw
  exact ⟨i, name, operands, action, workspace, hruns, haction, hget.trans (congrArg some hkept.symm)⟩

/-- Related machines end a step in the same way. -/
theorem HasOutcome.alike {m : Machine RegisterKind.int64.Carrier σ} {m' : Machine k.Carrier σ'}
    {outcome : Machine RegisterKind.int64.Carrier σ × List Event} (h : HasOutcome m outcome)
    (hm : m.Alike k R m') (hstays : m.StaysIn k) :
    ∃ outcome', HasOutcome m' outcome' ∧ outcome.1.Alike k R outcome'.1 ∧
      outcome'.2.map Event.message? = outcome.2.map Event.message? := by
  cases h with
  | atLimit h => exact ⟨_, .atLimit (hm.reachedLimit?_eq.trans h), hm.stop, rfl⟩
  | noPointer hallowed h =>
      exact ⟨_, .noPointer (hm.reachedLimit?_eq.trans hallowed) (hm.pointer?_eq.trans h),
        hm.counted.stop, rfl⟩
  | outOfRange hallowed h hneg =>
      exact ⟨_, .outOfRange (hm.reachedLimit?_eq.trans hallowed) (hm.pointer?_eq.trans h) hneg,
        hm.counted.stop, rfl⟩
  | finished h htext => exact ⟨_, .finished (hm.pointsTo h) (hm.text htext), hm.counted.reset, rfl⟩
  | mismatched h htext hfetch =>
      exact ⟨_, .mismatched (hm.pointsTo h) (hm.text htext) ((hm.fetch?_eq _).trans hfetch),
        hm.counted.stop, rfl⟩
  | undefined h htext hfetch hname =>
      exact ⟨_, .undefined (hm.pointsTo h) (hm.text htext) ((hm.fetch?_eq _).trans hfetch)
        (hm.actions.none_iff hname), hm.counted.stop, rfl⟩
  | failed h haction =>
      obtain ⟨action', hruns', hends⟩ := hm.exists_runs h
      rw [haction] at hends
      obtain ⟨e', w', haction', hmessage, hw⟩ := hends.exists_error
      exact ⟨_, .failed hruns' haction', (hm.counted.withWorkspace hw).stop,
        congrArg ([·]) (Event.message?_failedInstruction _ _ _ hmessage)⟩
  | lostPointer h haction hpointer =>
      obtain ⟨action', hruns', hends⟩ := hm.exists_runs h
      rw [haction] at hends
      obtain ⟨w', haction', hw⟩ := hends.exists_ok
      exact ⟨_, .lostPointer hruns' haction' ((hm.withWorkspace hw).pointer?_eq.trans hpointer),
        (hm.counted.withWorkspace hw).stop, rfl⟩
  | @advanced _ _ _ _ _ ip h haction hpointer =>
      obtain ⟨action', hruns', hends⟩ := hm.exists_runs h
      rw [haction] at hends
      obtain ⟨w', haction', hw⟩ := hends.exists_ok
      -- the only step that writes a pointer, which the kind has to hold
      obtain ⟨hlo, hhi⟩ := hstays ip (leaves_of_advanced h haction hpointer)
      rw [← val_nextPointer] at hlo hhi
      exact ⟨_, .advanced hruns' haction' ((hm.withWorkspace hw).pointer?_eq.trans hpointer),
        (hm.counted.withWorkspace hw).setPointer hlo hhi, rfl⟩

/-- Related machines stay related, whatever is done to both, as long as the kind holds the pointer. -/
theorem lockstep_alike (k : RegisterKind) (R : σ → σ' → Prop) :
    Lockstep Event.message? (NameMap.Related k.Denotes) (Alike k R) (StaysIn (σ := σ) k) where
  isView := Event.isView_message?
  running _ _ hm := hm.running
  config _ _ hm := hm.config
  registers _ _ hm := hm.workspace.registers
  step m m' hm hstays := by
    obtain ⟨outcome', houtcome', hafter⟩ := (hasOutcome_step m).alike hm hstays
    rwa [houtcome'.step_eq]
  execute _ _ hm := hm.execute
  stop _ _ hm := hm.stop
  reset _ _ hm := hm.reset
  writeRegisters _ _ _ _ hm hregisters :=
    hm.withWorkspace { hm.workspace with registers := hregisters }

theorem alike_ofProgram (source : String) (program : Program)
    {set : InstructionSet RegisterKind.int64.Carrier σ} {set' : InstructionSet k.Carrier σ'}
    (hset : set.Alike k R set') (config : Config) {host : σ} {host' : σ'} (hhost : R host host') :
    (ofProgram source program set config host).Alike k R
      (ofProgram source program set' config host') := by
  have hregisters := hset.registers.set pointerName k.denotes_ofPointer_zero
  exact ⟨rfl, rfl, ⟨hregisters, .nil, hhost⟩, hregisters, hset.actions, rfl, rfl, rfl⟩

/-- A machine over registers of any kind and one over signed integers of 64 bits stay related under every
script that does the same to both, if their instruction sets are alike and their registers start out
related: the registers, the stack and the baseline denote the same integers, and they are running at the
same times, made as many steps, and report the same to the same listeners. Either both come to the end
of the script, or neither does. This holds as long as the kind holds the pointer that each step which
goes well moves on to. -/
theorem performAll_alike (source : String) (program : Program)
    {set : InstructionSet RegisterKind.int64.Carrier σ} {set' : InstructionSet k.Carrier σ'}
    (hset : set.Alike k R set') (config : Config) {host : σ} {host' : σ'} (hhost : R host host')
    (listeners : Listeners τ) (s : ρ) (fuel : Nat)
    {script : List (Operation RegisterKind.int64.Carrier τ ρ)}
    {script' : List (Operation k.Carrier τ ρ)}
    (hscript : List.Forall₂ (Operation.Alike (NameMap.Related k.Denotes)) script script')
    (hstays : ∀ v ∈ (⟨ofProgram source program set config host, listeners⟩ :
      Attended RegisterKind.int64.Carrier σ τ).steppedAll fuel s script, v.StaysIn k) :
    Option.Rel (Attended.EndsAlike Event.message? (Alike k R))
      ((⟨ofProgram source program set config host, listeners⟩ :
        Attended RegisterKind.int64.Carrier σ τ).performAll fuel s script)
      ((⟨ofProgram source program set' config host', listeners⟩ :
        Attended k.Carrier σ' τ).performAll fuel s script') :=
  (lockstep_alike k R).performAll (alike_ofProgram source program hset config hhost) s hscript hstays

theorem staysIn_of_step {m : Machine RegisterKind.int64.Carrier σ}
    (h : ∀ ip ∈ m.step.1.pointer?, k.range.lo ≤ ip.val ∧ ip.val ≤ k.range.hi) : m.StaysIn k := by
  intro left hleaves
  have hpointer := (pointer?_step_of_leaves hleaves).2
  rw [RegisterKind.kept_int64, RegisterKind.kept_int64] at hpointer
  rw [← val_nextPointer]
  exact h _ hpointer

/-- Puts the value of a register on the stack. -/
def pushRegister {V : Type} : Action V Unit
  | [name], w =>
      match w.registers.get? name with
      | some v => .ok () { w with stack := v :: w.stack }
      | none => .error (.unknownRegister name) w
  | operands, w => .error (.arityMismatch 1 operands.length) w

theorem alike_pushRegister (k : RegisterKind) : Action.Alike k Eq pushRegister pushRegister := by
  intro operands w w' hw
  match operands with
  | [name] =>
      have hname := hw.registers name
      simp only [pushRegister]
      generalize w.registers.get? name = x, w'.registers.get? name = x' at hname
      cases hname with
      | none => exact .error hw rfl
      | some hdenotes => exact .ok { hw with stack := .cons hdenotes hw.stack }
  | [] | _ :: _ :: _ => exact .error hw rfl

/-- A register that holds seven, and an instruction that puts registers on the stack. -/
def pushing (k : RegisterKind) : InstructionSet k.Carrier Unit :=
  (InstructionSet.empty.defineRegister "a" (ofPointer (.ofIntOrZero 7))).defineInstruction "push"
    pushRegister

theorem alike_pushing : (pushing .int64).Alike .uint32 Eq (pushing .uint32) where
  registers := NameMap.Related.set (fun _ => .none) "a"
    (RegisterKind.denotes_ofPointer (by decide) (by decide))
  actions := NameMap.Related.set (fun _ => .none) "push" (alike_pushRegister .uint32)

/-- A machine that pushes this register, and then one that it does not have. -/
def pushTwice (k : RegisterKind) : Attended k.Carrier Unit String :=
  ⟨ofProgram "section .text\npush a\npush b"
    ⟨[], [⟨⟨14, 18⟩, [⟨19, 20⟩], none, 2, 6⟩, ⟨⟨21, 25⟩, [⟨26, 27⟩], none, 3, 6⟩]⟩
    (pushing k) .standard (), .all "host"⟩

/-- Unsigned registers of 32 bits have seven on the stack then, and say why the second push failed. -/
theorem performAll_alike_pushTwice :
    let script {k : RegisterKind} : List (Operation k.Carrier String Pacer.Budget) :=
      [.control .step, .run .immediate]
    ∃ after, (pushTwice .uint32).performAll 4 .unlimited script = some after ∧
      List.Forall₂ RegisterKind.uint32.Denotes [Word.ofIntOrZero 7]
        after.1.machine.workspace.stack ∧
      after.1.machine.running = false ∧ after.1.machine.steps = 2 ∧
      Listeners.shown Event.message? after.2.2 = Listeners.shown Event.message?
        [(some "host", .trap (.failedInstruction "push" 3 6 (.unknownRegister "b")))] := by
  intro script
  have hscript : List.Forall₂ (Operation.Alike (NameMap.Related RegisterKind.uint32.Denotes))
      script script := .cons (.control .step) (.cons (.run .immediate) .nil)
  have hstays : ∀ v ∈ (pushTwice .int64).steppedAll 4 Pacer.Budget.unlimited script,
      v.StaysIn .uint32 := by
    have hpointers : ∀ v ∈ (pushTwice .int64).steppedAll 4 Pacer.Budget.unlimited script,
        ∀ ip ∈ v.step.1.pointer?, RegisterKind.uint32.range.lo ≤ ip.val ∧
          ip.val ≤ RegisterKind.uint32.range.hi := by
      decide
    exact fun v hv => staysIn_of_step (hpointers v hv)
  have hrel : Option.Rel (Attended.EndsAlike Event.message? (Alike .uint32 Eq))
      ((pushTwice .int64).performAll 4 Pacer.Budget.unlimited script)
      ((pushTwice .uint32).performAll 4 Pacer.Budget.unlimited script) :=
    performAll_alike _ _ alike_pushing .standard rfl _ _ 4 hscript hstays
  obtain ⟨after, hafter, hstack, hrunning, hsteps, hreports⟩ : ∃ after,
      (pushTwice .int64).performAll 4 Pacer.Budget.unlimited script = some after ∧
      after.1.machine.workspace.stack = [Word.ofIntOrZero 7] ∧ after.1.machine.running = false ∧
      after.1.machine.steps = 2 ∧ after.2.2 =
        [(some "host", .trap (.failedInstruction "push" 3 6 (.unknownRegister "b")))] :=
    ⟨_, rfl, rfl, rfl, rfl, rfl⟩
  rw [hafter] at hrel
  generalize hafter' : (pushTwice .uint32).performAll 4 Pacer.Budget.unlimited script = x at hrel
  cases hrel with
  | @some _ after' hends =>
      obtain ⟨hmachine, -, -, hshown⟩ := hends
      exact ⟨after', rfl, hstack ▸ hmachine.workspace.stack, hmachine.running.trans hrunning,
        hmachine.steps.trans hsteps, hshown.trans (congrArg _ hreports)⟩

end Machine

end Mnemonic
