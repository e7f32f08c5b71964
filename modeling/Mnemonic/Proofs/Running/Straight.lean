import Mnemonic.Proofs.Running.Fetching
import Mnemonic.Proofs.Running.Jumps
import Mnemonic.Proofs.Running.Undeclined

set_option autoImplicit false

/-!
# Straight programs

If no action changes the instruction pointer, a run calls the actions of the instructions one after the
other, each once. It ends when there is no instruction left, when the step limit is reached, or with the
first action that fails, whichever comes first.

Main statements: the steps of calls that succeed (`goes_of_allSucceed`), and the runs of a program whose
actions keep the instruction pointer (`run_straight`).
-/

namespace Mnemonic

open HoldsPointer

variable {V σ ρ : Type}

/-! ## Actions that keep the instruction pointer -/

/-- Whether the action succeeds or fails, the instruction pointer is what it was. -/
structure Action.KeepsPointer (action : Action V σ) : Prop where
  ok : ∀ operands w left, action operands w = .ok () left →
    left.registers.get? pointerName = w.registers.get? pointerName
  error : ∀ operands w e left, action operands w = .error e left →
    left.registers.get? pointerName = w.registers.get? pointerName

variable [HoldsPointer V]

/-- Values hold the pointers up to a number. -/
def HoldsUpTo (V : Type) [HoldsPointer V] (n : Nat) : Prop :=
  ∀ t ≤ n, ∃ ip : Int64Word, ip.val = t ∧ pointer? (ofPointer ip : V) = some ip

/-- A kind of register holds the pointers up to any number of its range that is a pointer. -/
theorem RegisterKind.holdsUpTo_iff (k : RegisterKind) (n : Nat) :
    HoldsUpTo k.Carrier n ↔ (n : Int) ≤ min k.range.hi WordRange.int64.hi := by
  have hlo := k.range.lo_nonpos
  constructor
  · intro h
    obtain ⟨ip, hip, hpointer⟩ := h n (Nat.le_refl n)
    rw [k.pointer?_ofPointer] at hpointer
    have hkept := congrArg Word.val (Option.some.inj hpointer)
    have hmax := ip.le_hi
    have hhi := k.range.hi_nonneg
    rw [RegisterKind.val_kept] at hkept
    split at hkept <;> omega
  · intro h t ht
    have hmin : WordRange.int64.lo ≤ 0 := WordRange.int64.lo_nonpos
    obtain ⟨ip, hip⟩ : ∃ ip : Int64Word, ip.val = t := ⟨⟨t, by omega, by omega⟩, rfl⟩
    refine ⟨ip, hip, ?_⟩
    rw [k.pointer?_ofPointer, RegisterKind.kept, if_pos ⟨by omega, by omega⟩]

/-- The workspace with the instruction pointer at a number. -/
def Workspace.pointAt (w : Workspace V σ) (n : Nat) : Workspace V σ :=
  { w with registers := w.registers.set pointerName (ofPointer (.ofIntOrZero n)) }

/-- Calls are made one after the other, with the instruction pointer moving on from a number, and all
their actions succeed. -/
inductive AllSucceed (actions : NameMap (Action V σ)) :
    Nat → List Call → Workspace V σ → Workspace V σ → Prop
  | nil (n : Nat) (w : Workspace V σ) : AllSucceed actions n [] w w
  | cons {n : Nat} {call : Call} {calls : List Call} {action : Action V σ} {w left w' : Workspace V σ}
      (hdefined : actions.get? call.name = some action) (h : action call.operands w = .ok () left)
      (hlater : AllSucceed actions (n + 1) calls (left.pointAt (n + 1)) w') :
      AllSucceed actions n (call :: calls) w w'

/-- Of the calls that are made one after the other, the one of a number is the first whose action fails.
-/
structure FirstFails (actions : NameMap (Action V σ)) (n : Nat) (calls : List Call) (w : Workspace V σ)
    (k : Nat) (call : Call) (e : ActionError) (left : Workspace V σ) : Prop where
  found : calls[k]? = some call
  fails : ∃ action before, actions.get? call.name = some action ∧
    AllSucceed actions n (calls.take k) w before ∧ action call.operands before = .error e left

/-- If there is an action for each call, all of them succeed or one is the first that fails. -/
theorem allSucceed_or_firstFails {actions : NameMap (Action V σ)} {calls : List Call}
    (hdefined : ∀ call ∈ calls, ∃ action, actions.get? call.name = some action) (n : Nat)
    (w : Workspace V σ) :
    (∃ w', AllSucceed actions n calls w w') ∨
      ∃ k call e left, FirstFails actions n calls w k call e left := by
  induction calls generalizing n w with
  | nil => exact .inl ⟨w, .nil n w⟩
  | cons call calls ih =>
      obtain ⟨⟨action, haction⟩, hlater⟩ := List.forall_mem_cons.1 hdefined
      cases hcall : action call.operands w with
      | error e left => exact .inr ⟨0, call, e, left, rfl, action, w, haction, .nil n w, hcall⟩
      | ok u left =>
          rcases ih hlater (n + 1) (left.pointAt (n + 1)) with
            ⟨w', hall⟩ | ⟨k, call', e, left', hk, action', before, haction', hall, hfails⟩
          · exact .inl ⟨w', .cons haction hcall hall⟩
          · exact .inr ⟨k + 1, call', e, left', hk, action', before, haction',
              .cons haction hcall hall, hfails⟩

namespace Machine

/-- The machine with another workspace, so many steps later. -/
def moved (m : Machine V σ) (workspace : Workspace V σ) (made : Nat) : Machine V σ :=
  { m with workspace, steps := m.steps + made }

omit [HoldsPointer V] in
theorem moved_moved (m : Machine V σ) (w w' : Workspace V σ) (k n : Nat) :
    (m.moved w k).moved w' n = m.moved w' (n + k) := by
  simp only [moved, Nat.add_assoc, Nat.add_comm k n]

/-- The instruction pointer is a number. -/
def IsAt (m : Machine V σ) (n : Nat) : Prop := ∃ ip, m.pointer? = some ip ∧ ip.val = n

theorem IsAt.pointsTo {m : Machine V σ} {n : Nat} (h : m.IsAt n) (hallowed : m.reachedLimit? = none) :
    m.PointsTo n :=
  ⟨hallowed, h⟩

/-- The program spells calls from a number on. -/
def Spells (m : Machine V σ) (n : Nat) (calls : List Call) : Prop :=
  ∀ j call, calls[j]? = some call →
    ∃ i, m.program.text[n + j]? = some i ∧ i.Spells m.source.toList call

theorem runs_of_spells {m : Machine V σ} {n : Nat} {i : Instruction} {call : Call}
    {action : Action V σ} (hpoints : m.PointsTo n) (htext : m.program.text[n]? = some i)
    (hspells : i.Spells m.source.toList call) (hdefined : m.actions.get? call.name = some action) :
    m.Runs i call.name call.operands action :=
  ⟨⟨n, hpoints, htext⟩, fetch?_of_spells hspells, hdefined⟩

theorem IsAt.withWorkspace {m : Machine V σ} {n : Nat} (h : m.IsAt n) {left : Workspace V σ}
    (hleft : left.registers.get? pointerName = m.workspace.registers.get? pointerName) :
    (m.withWorkspace left).IsAt n := by
  obtain ⟨ip, hpointer, hip⟩ := h
  refine ⟨ip, ?_, hip⟩
  rw [← hpointer, pointer?, pointer?]
  exact congrArg (·.bind HoldsPointer.pointer?) hleft

theorem isAt_pointAt {n : Nat} (hholds : HoldsUpTo V n) (m : Machine V σ) (w : Workspace V σ) (k : Nat) :
    (m.moved (w.pointAt n) k).IsAt n := by
  obtain ⟨ip, hip, hpointer⟩ := hholds n (Nat.le_refl n)
  have hword : (Word.ofIntOrZero n : Int64Word) = ip := by
    rw [← hip, Word.ofIntOrZero_val]
  refine ⟨ip, ?_, hip⟩
  simp [pointer?, moved, Workspace.pointAt, NameMap.get?_set, hword, hpointer]

/-- An action that succeeds and keeps the instruction pointer is followed by the next instruction. -/
theorem step_of_succeeds {m : Machine V σ} {n : Nat} {i : Instruction} {call : Call}
    {action : Action V σ} {left : Workspace V σ} (hholds : HoldsUpTo V (n + 1)) (hat : m.IsAt n)
    (hruns : m.Runs i call.name call.operands action)
    (h : action call.operands m.workspace = .ok () left) (hkeeps : action.KeepsPointer) :
    m.step = (m.moved (left.pointAt (n + 1)) 1, []) := by
  obtain ⟨ip, hpointer, hip⟩ := hat.withWorkspace (hkeeps.ok _ _ _ h)
  obtain ⟨next, hnext, -⟩ := hholds (n + 1) (Nat.le_refl _)
  have hmoved : nextPointer ip = .ofIntOrZero (n + 1) := by
    rw [nextPointer, hip, Word.ofIntOrZero]
    have hword : (Word.ofInt? (n + 1) : Option Int64Word) = some next := by
      rw [Word.ofInt?_eq_some_iff, hnext]
      rfl
    rw [hword]
    rfl
  rw [step_of_runs_of_ok hruns h hpointer, hmoved]
  rfl

/-- The steps of calls whose actions succeed. -/
theorem goes_of_allSucceed {actions : NameMap (Action V σ)} {n : Nat} {calls : List Call}
    {w w' : Workspace V σ} (h : AllSucceed actions n calls w w') {m : Machine V σ}
    (hactions : m.actions = actions) (hworkspace : m.workspace = w) (hat : m.IsAt n)
    (hspells : m.Spells n calls)
    (hkeeps : ∀ name action, actions.get? name = some action → action.KeepsPointer)
    (hholds : HoldsUpTo V (n + calls.length))
    (hallowed : ∀ limit ∈ m.config.maxSteps, m.steps + calls.length ≤ limit) :
    Goes m calls.length calls (m.moved w' calls.length) ∧
      (m.moved w' calls.length).IsAt (n + calls.length) := by
  induction h generalizing m with
  | nil n w =>
      subst hworkspace
      exact ⟨.refl m, hat⟩
  | @cons n call calls action w left w' hdefined hcall hlater ih =>
      subst hactions hworkspace
      simp only [List.length_cons] at hholds hallowed ⊢
      obtain ⟨i, htext, hcalls⟩ := hspells 0 call rfl
      have hpoints : m.PointsTo n := by
        refine hat.pointsTo (reachedLimit?_eq_none_iff.2 fun limit hlimit => ?_)
        have hle := hallowed limit hlimit
        omega
      have hruns := runs_of_spells hpoints htext hcalls hdefined
      have hnext : HoldsUpTo V (n + 1) := fun t ht => hholds t (by omega)
      have hstep := step_of_succeeds hnext hat hruns hcall (hkeeps _ _ hdefined)
      -- the other calls are made from where the first one left the machine
      have hrest : (m.moved (left.pointAt (n + 1)) 1).Spells (n + 1) calls := by
        intro j call' hj
        rw [Nat.add_right_comm, Nat.add_assoc]
        exact hspells (j + 1) call' hj
      have hleft : ∀ limit ∈ (m.moved (left.pointAt (n + 1)) 1).config.maxSteps,
          (m.moved (left.pointAt (n + 1)) 1).steps + calls.length ≤ limit := by
        intro limit hlimit
        have hle := hallowed limit hlimit
        simp only [moved]
        omega
      have hlength : n + 1 + calls.length = n + (calls.length + 1) := by omega
      obtain ⟨hgoes, hend⟩ :=
        ih (m := m.moved (left.pointAt (n + 1)) 1) rfl rfl (isAt_pointAt hnext m left 1) hrest
          (hlength ▸ hholds) hleft
      rw [moved_moved] at hgoes hend
      rw [hlength] at hend
      refine ⟨?_, hend⟩
      have hgo := Goes.step hstep hgoes
      rwa [calls_of_runs hruns] at hgo

/-! ## Runs of straight programs -/

theorem exists_of_forall₂_getElem? {α β : Type} {R : α → β → Prop} {as : List α} {bs : List β}
    (h : List.Forall₂ R as bs) {j : Nat} {b : β} (hb : bs[j]? = some b) :
    ∃ a, as[j]? = some a ∧ R a b := by
  obtain ⟨hj, rfl⟩ := List.getElem?_eq_some_iff.1 hb
  obtain ⟨hlength, hall⟩ := List.forall₂_iff_get.1 h
  have hj' : j < as.length := by omega
  exact ⟨as[j], List.getElem?_eq_getElem hj', hall j hj' hj⟩

/-- A new machine that was started makes the first calls of its program, if they succeed. -/
theorem goes_of_new {source : String} {program : Program} {set : InstructionSet V σ} {config : Config}
    {host : σ} {calls : List Call}
    (hcalls : List.Forall₂ (Instruction.Spells source.toList) program.text calls)
    (hkeeps : ∀ name action, set.actions.get? name = some action → action.KeepsPointer)
    (hholds : HoldsUpTo V program.text.length) {k : Nat} {w : Workspace V σ}
    (hk : k ≤ program.text.length) (hallowed : ∀ limit ∈ config.maxSteps, k ≤ limit)
    (hall : AllSucceed set.actions 0 (calls.take k)
      (ofProgram source program set config host).workspace w) :
    let m := (ofProgram source program set config host).execute
    Goes m k (calls.take k) (m.moved w k) ∧ (m.moved w k).IsAt k := by
  intro m
  have hat : m.IsAt 0 := by
    obtain ⟨ip, hip, hpointer⟩ := hholds 0 (Nat.zero_le _)
    obtain rfl : ip = .zero := Word.ext hip
    refine ⟨.zero, ?_, rfl⟩
    simp [m, pointer?, execute, ofProgram, NameMap.get?_set, hpointer]
  have hspells : m.Spells 0 (calls.take k) := by
    intro j call hj
    have hcall : calls[j]? = some call := by
      rw [List.getElem?_take] at hj
      split at hj
      · exact hj
      · simp at hj
    rw [Nat.zero_add]
    exact exists_of_forall₂_getElem? hcalls hcall
  have htake : (calls.take k).length = k := by
    rw [List.length_take, ← hcalls.length_eq]
    omega
  have hfirst : HoldsUpTo V (0 + (calls.take k).length) := fun t ht => hholds t (by omega)
  have hleft : ∀ limit ∈ m.config.maxSteps, m.steps + (calls.take k).length ≤ limit := by
    intro limit hlimit
    rw [htake, show m.steps = 0 from rfl, Nat.zero_add]
    exact hallowed limit hlimit
  have hgoes := goes_of_allSucceed hall (m := m) rfl rfl hat hspells hkeeps hfirst hleft
  rwa [htake, Nat.zero_add] at hgoes

/-- A new machine runs a program of which no action changes the instruction pointer. Its values hold the
pointers to all instructions and the one behind them, and the pacer never declines. Each instruction says
a call; made one after the other, all of them succeed or one is the first that fails. If all succeed and
the limit allows for it, the run makes them and no others, in order, reports the finish with one more
tick, and leaves the machine as it was built, but for what the host keeps. If the limit does not allow
for it, the run makes as many as are allowed and reports the limit. If a call within the limit is the
first that fails, it is the last that is made; the trap says where its instruction stands, and the
instruction pointer is still there. -/
theorem run_straight (source : String) (program : Program) (set : InstructionSet V σ) (config : Config)
    (host : σ)
    (hfits : ∀ i ∈ program.text,
      i.name.Fits source.toList ∧ ∀ o ∈ i.operands, o.Fits source.toList)
    (hdefined : ∀ i ∈ program.text, ∀ name, i.name.Reads source.toList name →
      set.hasInstruction name = true)
    (hkeeps : ∀ name action, set.actions.get? name = some action → action.KeepsPointer)
    (hholds : HoldsUpTo V program.text.length) {pacer : Pacer ρ} {s : ρ}
    (hpacer : pacer.NeverDeclines config.interval s) {fuel : Nat}
    (hfuel : program.text.length + 1 < fuel) :
    let m := ofProgram source program set config host
    ∃ calls, List.Forall₂ (Instruction.Spells source.toList) program.text calls ∧
      ((∃ w, AllSucceed set.actions 0 calls m.workspace w) ∨
        ∃ k call e left, FirstFails set.actions 0 calls m.workspace k call e left) ∧
      (∀ w, AllSucceed set.actions 0 calls m.workspace w →
        (∀ limit ∈ config.maxSteps, program.text.length < limit) →
        RunsTo pacer s fuel m (m.withHost w.host) calls (program.text.length + 1) [.finish]) ∧
      (∀ limit w, config.maxSteps = some limit → limit ≤ program.text.length →
        AllSucceed set.actions 0 (calls.take limit) m.workspace w →
        RunsTo pacer s fuel m (m.moved w limit) (calls.take limit) (limit + 1)
          [.trap (.stepLimit limit)]) ∧
      (∀ k call e left, FirstFails set.actions 0 calls m.workspace k call e left →
        (∀ limit ∈ config.maxSteps, k < limit) →
        ∃ i, program.text[k]? = some i ∧
          RunsTo pacer s fuel m (m.moved left (k + 1)) (calls.take (k + 1)) (k + 1)
            [.trap (.failedInstruction call.name i.line i.column e)] ∧
          (m.moved left (k + 1)).IsAt k) := by
  intro m
  obtain ⟨calls, hcalls⟩ := exists_forall₂ fun i hi =>
    Instruction.exists_spells (hfits i hi).1 (hfits i hi).2
  have htake : calls.take program.text.length = calls := by
    rw [hcalls.length_eq, List.take_length]
  have hgoes : ∀ k w, k ≤ program.text.length → (∀ limit ∈ config.maxSteps, k ≤ limit) →
      AllSucceed set.actions 0 (calls.take k) m.workspace w →
      Goes m.execute k (calls.take k) (m.execute.moved w k) ∧ (m.execute.moved w k).IsAt k :=
    fun k w hk hallowed hall => goes_of_new hcalls hkeeps hholds hk hallowed hall
  have hpoints : ∀ k w, (∀ limit ∈ config.maxSteps, k < limit) → (m.execute.moved w k).IsAt k →
      (m.execute.moved w k).PointsTo k := by
    intro k w hallowed hat
    have hsteps : (m.execute.moved w k).steps = k := Nat.zero_add k
    refine hat.pointsTo (reachedLimit?_eq_none_iff.2 fun limit hlimit => ?_)
    rw [hsteps]
    exact hallowed limit hlimit
  refine ⟨calls, hcalls, ?_, ?_, ?_, ?_⟩
  · refine allSucceed_or_firstFails (fun call hcall => ?_) 0 m.workspace
    obtain ⟨j, hj⟩ := List.mem_iff_getElem?.1 hcall
    obtain ⟨i, hi, hspells⟩ := exists_of_forall₂_getElem? hcalls hj
    exact Option.isSome_iff_exists.1 (hdefined i (List.mem_of_getElem? hi) _ hspells.name)
  · intro w hall hallowed
    obtain ⟨hrun, hend⟩ :=
      hgoes _ w (Nat.le_refl _) (fun l hl => (hallowed l hl).le) (htake.symm ▸ hall)
    rw [htake] at hrun
    exact runsTo_of_finished hpacer hrun (hpoints _ w hallowed hend)
      (List.getElem?_eq_none (Nat.le_refl _)) hfuel
  · intro limit w hlimit hle hall
    obtain ⟨hrun, -⟩ := hgoes limit w hle (by simp [hlimit]) hall
    have hreached : (m.execute.moved w limit).reachedLimit? = some limit := by
      simp [reachedLimit?, moved, execute, m, ofProgram, hlimit]
    exact runsTo_of_reachedLimit hpacer hrun hreached (by omega)
  · rintro k call e left ⟨hcall, action, before, hdefined, hall, hfails⟩ hallowed
    obtain ⟨i, htext, hspells⟩ := exists_of_forall₂_getElem? hcalls hcall
    have hk : k < program.text.length := (List.getElem?_eq_some_iff.1 htext).1
    obtain ⟨hrun, hend⟩ := hgoes k before hk.le (fun l hl => (hallowed l hl).le) hall
    have hruns := runs_of_spells (hpoints k before hallowed hend) htext hspells hdefined
    have htaken : calls.take (k + 1) = calls.take k ++ [call] := by
      rw [List.take_add_one, hcall]
      rfl
    refine ⟨i, htext, ?_, hend.withWorkspace ((hkeeps _ _ hdefined).error _ _ _ _ hfails)⟩
    rw [htaken]
    exact runsTo_of_fails hpacer hrun hruns hfails (by omega)

/-- Fails for one operand and does nothing for any other. -/
def refuse (operand : String) : Action (Word .int64) Unit := fun operands w =>
  if operands = [operand] then .error (.host operand) w else .ok () w

theorem keepsPointer_refuse (operand : String) : (refuse operand).KeepsPointer where
  ok operands w left h := by
    unfold refuse at h
    split at h
    · simp at h
    · simp only [EStateM.Result.ok.injEq, true_and] at h
      rw [h]
  error operands w e left h := by
    unfold refuse at h
    split at h
    · simp only [EStateM.Result.error.injEq] at h
      rw [h.2]
    · simp at h

/-- Two instructions of one name, with an operand each. -/
def takeTwice : Program :=
  ⟨[], [⟨⟨14, 18⟩, [⟨19, 20⟩], none, 2, 6⟩, ⟨⟨21, 25⟩, [⟨26, 27⟩], none, 3, 6⟩]⟩

/-- A machine over these instructions, whose action refuses one operand. -/
def refusing (operand : String) (maxSteps : Option Nat) : Machine (Word .int64) Unit :=
  ofProgram "section .text\ntake a\ntake b" takeTwice
    (.defineInstruction .empty "take" (refuse operand)) ⟨1, maxSteps⟩ ()

/-- It takes both operands and finishes, or takes the first and reaches its limit, or fails with the
second. -/
theorem run_straight_refusing :
    let first : Call := ⟨"take", ["a"]⟩
    let second : Call := ⟨"take", ["b"]⟩
    RunsTo .immediate .unlimited 4 (refusing "c" none) (refusing "c" none) [first, second] 3
        [.finish] ∧
      RunsTo .immediate .unlimited 4 (refusing "c" (some 1))
        ((refusing "c" (some 1)).moved ((refusing "c" (some 1)).workspace.pointAt 1) 1) [first] 2
        [.trap (.stepLimit 1)] ∧
      RunsTo .immediate .unlimited 4 (refusing "b" none)
        ((refusing "b" none).moved ((refusing "b" none).workspace.pointAt 1) 2) [first, second] 2
        [.trap (.failedInstruction "take" 3 6 (.host "b"))] := by
  intro first second
  let source := "section .text\ntake a\ntake b"
  have hspells : List.Forall₂ (Instruction.Spells source.toList) takeTwice.text [first, second] :=
    .cons ⟨by decide, .cons (by decide) .nil⟩ (.cons ⟨by decide, .cons (by decide) .nil⟩ .nil)
  have htake : ∀ i ∈ takeTwice.text, i.name.Reads source.toList "take" := by decide
  have hfits : ∀ i ∈ takeTwice.text,
      i.name.Fits source.toList ∧ ∀ o ∈ i.operands, o.Fits source.toList := by
    have hoperands : ∀ i ∈ takeTwice.text, ∀ o ∈ i.operands,
        o.Reads source.toList "a" ∨ o.Reads source.toList "b" := by
      decide
    refine fun i hi => ⟨Span.fits_iff_reads.2 ⟨_, htake i hi⟩, fun o ho => ?_⟩
    rcases hoperands i hi o ho with h | h
    · exact Span.fits_iff_reads.2 ⟨_, h⟩
    · exact Span.fits_iff_reads.2 ⟨_, h⟩
  have hdefined : ∀ operand, ∀ i ∈ takeTwice.text, ∀ name, i.name.Reads source.toList name →
      (InstructionSet.empty.defineInstruction "take" (refuse operand)).hasInstruction name = true := by
    intro operand i hi name hname
    obtain rfl := rightUnique_reads source.toList (htake i hi) hname
    rfl
  have hkeeps : ∀ operand name action,
      (InstructionSet.empty.defineInstruction "take" (refuse operand)).actions.get? name = some action →
        action.KeepsPointer := by
    intro operand name action haction
    rw [InstructionSet.defineInstruction, NameMap.get?_set] at haction
    split at haction
    · obtain rfl := Option.some.inj haction
      exact keepsPointer_refuse operand
    · simp [InstructionSet.empty] at haction
  have hholds : HoldsUpTo (Word .int64) takeTwice.text.length :=
    (RegisterKind.holdsUpTo_iff .int64 2).2 (by decide)
  have hstraight := fun operand maxSteps =>
    run_straight source takeTwice _ ⟨1, maxSteps⟩ () hfits (hdefined operand) (hkeeps operand) hholds
      (Pacer.neverDeclines_immediate 1) (by decide : takeTwice.text.length + 1 < 4)
  have hcalls : ∀ calls, List.Forall₂ (Instruction.Spells source.toList) takeTwice.text calls →
      calls = [first, second] := fun calls h =>
    (Instruction.rightUnique_spells source.toList).forall₂ h hspells
  refine ⟨?_, ?_, ?_⟩
  · obtain ⟨calls, hall, -, hfinish, -, -⟩ := hstraight "c" none
    obtain rfl := hcalls calls hall
    exact hfinish _ (.cons rfl rfl (.cons rfl rfl (.nil _ _))) (by simp)
  · obtain ⟨calls, hall, -, -, hlimit, -⟩ := hstraight "c" (some 1)
    obtain rfl := hcalls calls hall
    exact hlimit 1 _ rfl (by decide) (.cons rfl rfl (.nil _ _))
  · obtain ⟨calls, hall, -, -, -, hfails⟩ := hstraight "b" none
    obtain rfl := hcalls calls hall
    obtain ⟨i, hi, hrun, -⟩ := hfails 1 second (.host "b") _
      ⟨rfl, _, _, rfl, .cons rfl rfl (.nil _ _), rfl⟩ (by simp)
    obtain rfl := Option.some.inj hi
    exact hrun

end Machine

end Mnemonic
