import Mnemonic.Proofs.Listing.Entries
import Mnemonic.Proofs.Listing.Relisting
import Mnemonic.Proofs.Numbers.Numerals
import Mnemonic.Proofs.Running.Counting
import Mnemonic.Proofs.Running.Straight
import Mnemonic.Stock.Act

set_option autoImplicit false

/-!
# Counting down

A program loads a number from its data section and counts down to zero, with a jump back to a label, and
its host brings the four instructions that it needs. A run of it goes through everything that there is:
the text is read, labels and data are looked up, the jump leaves the number before its target, and the
program is finished behind its last instruction.

Main statements: one turn of the loop (`Countdown.goes_turn`), all turns of it (`Countdown.goes_loop`),
and the whole run, for every number whose steps can be counted (`Countdown.run_countdown`). Registers hold
greater numbers, and these bring down a host that checks its arithmetic (`Countdown.not_countsDown_of_le`).
-/

namespace Mnemonic

/-! ## Words and calls -/

/-- The call of an instruction with these words. -/
def Instruction.Wording.call (v : Instruction.Wording) : Call :=
  ⟨String.ofList v.name, v.operands.map String.ofList⟩

/-- An instruction says the call of its words. -/
theorem Instruction.spells_of_wording {t : List Char} {i : Instruction} {v : Instruction.Wording}
    (h : i.wording t = .ok v) : i.Spells t v.call := by
  obtain ⟨-, hname, hoperands⟩ := wording_eq_ok_iff.1 h
  refine ⟨Span.reads_of_slice hname, List.forall₂_map_right_iff.2 ?_⟩
  exact (Misfit.mapM_eq_ok_iff.1 hoperands).imp fun _ _ => Span.reads_of_slice

namespace Countdown

open Text Stock Stock.Act Machine Literal

/-! ## The program and its instructions -/

/-- The lines in front of the one with the number. -/
def headerLines : String := "\nsection .data\n"

/-- The other entry of the data section, which has no number, and the header of the text section. -/
def bannerLines : String := "banner: \"counting down\"\n\nsection .text\n"

/-- The instruction in front of the loop. -/
def loadLines : String := "        ; acc = count\n        load count\n"

/-- The loop. -/
def loopLines : String := "loop:   out\n        dec\n        jnz loop\n"

/-- The source, which counts down from a number. -/
def source (count : Nat) : String :=
  headerLines ++ ("count: " ++ toString count ++ "\n") ++ bannerLines ++ loadLines ++ loopLines

example : source 3 =
    "\nsection .data\ncount: 3\nbanner: \"counting down\"\n\nsection .text\n        ; acc = count\n" ++
      "        load count\nloop:   out\n        dec\n        jnz loop\n" := by
  rfl

/-- The register that is counted down. An instruction that takes it for granted is given up without it.
-/
def accumulator : Act Int64Word Int64Word := do
  match (← get).registers.get? "acc" with
  | some n => return n
  | none => giveUp

/-- Loads an integer of the data section. -/
def load (data : NameMap Int64Word) : Action Int64Word (HostState Int64Word) := fun operands => do
  let symbol := operands.headD ""
  match data.get? symbol with
  | some n => setRegister "acc" n
  | none => throw (.invalidOperand symbol)

/-- Emits the number. -/
def out : Action Int64Word (HostState Int64Word) := fun _ => do
  emit (.value (← accumulator))

/-- Takes one from the number. The least one has none to take. -/
def dec : Action Int64Word (HostState Int64Word) := fun _ => do
  match Word.ofInt? ((← register "acc").val - 1) with
  | some n => setRegister "acc" n
  | none => giveUp

/-- Goes on at a label unless the number is zero. -/
def jnz (labels : NameMap Nat) : Action Int64Word (HostState Int64Word) := fun operands => do
  let label := operands.headD ""
  match labels.get? label with
  | some target =>
      if (← accumulator).val ≠ 0 then setRegister pointerName (.ofIntOrZero (target - 1))
  | none => throw (.invalidOperand label)

/-- The register and the instructions. -/
def instructionSet (labels : NameMap Nat) (data : NameMap Int64Word) :
    InstructionSet Int64Word (HostState Int64Word) :=
  InstructionSet.empty.defineRegister "acc" .zero
    |>.defineInstruction "load" (load data)
    |>.defineInstruction "out" out
    |>.defineInstruction "dec" dec
    |>.defineInstruction "jnz" (jnz labels)

theorem get?_actions_instructionSet (labels : NameMap Nat) (data : NameMap Int64Word) (name : String) :
    (instructionSet labels data).actions.get? name =
      if "jnz" = name then some (jnz labels) else if "dec" = name then some dec
      else if "out" = name then some out else if "load" = name then some (load data) else none := by
  simp [instructionSet, InstructionSet.defineInstruction, InstructionSet.defineRegister,
    InstructionSet.empty]

/-! ## Reading the source -/

/-- The words of the instructions. -/
def instructions : List Instruction.Wording :=
  [⟨none, "load".toList, ["count".toList]⟩, ⟨some "loop".toList, "out".toList, []⟩,
    ⟨none, "dec".toList, []⟩, ⟨none, "jnz".toList, ["loop".toList]⟩]

/-- The words of the source. -/
def words (count : Nat) : Program.Wording :=
  ⟨[⟨"count".toList, Nat.toDigits 10 count⟩, ⟨"banner".toList, "\"counting down\"".toList⟩],
    instructions⟩

section Reading

open Outline

theorem says_header : Says none headerLines.toList ⟨[], []⟩ (some .data) :=
  .of_lines rfl (by cbv) rfl rfl rfl

theorem says_banner : Says (some .data) bannerLines.toList
    ⟨[⟨"banner".toList, "\"counting down\"".toList⟩], []⟩ (some .text) :=
  .of_lines rfl (by cbv) rfl rfl rfl

theorem says_load : Says (some .text) loadLines.toList
    ⟨[], [⟨none, "load".toList, ["count".toList]⟩]⟩ (some .text) :=
  .of_lines rfl (by cbv) rfl rfl rfl

theorem says_loop : Says (some .text) loopLines.toList
    ⟨[], [⟨some "loop".toList, "out".toList, []⟩, ⟨none, "dec".toList, []⟩,
      ⟨none, "jnz".toList, ["loop".toList]⟩]⟩ (some .text) :=
  .of_lines rfl (by cbv) rfl rfl rfl

theorem isPlainValue_of_isDigit {t : List Char} (hne : t ≠ []) (h : ∀ c ∈ t, c.isDigit = true) :
    IsPlainValue t := by
  have hother : ∀ c ∈ t, ∀ d : Char, d.isDigit = false → c ≠ d := by
    rintro c hc d hd rfl
    rw [h c hc] at hd
    exact Bool.false_ne_true hd.symm
  obtain ⟨c, cs, rfl⟩ := List.exists_cons_of_ne_nil hne
  refine ⟨fun d hd => ?_, c, cs, rfl, hother c List.mem_cons_self '\'' rfl,
    hother c List.mem_cons_self '"' rfl⟩
  simp [isSeparator, hother d hd ' ' rfl, hother d hd '\n' rfl, hother d hd '\r' rfl]

theorem readable_count (count : Nat) :
    Datum.Wording.Readable ⟨"count".toList, Nat.toDigits 10 count⟩ where
  symbol := ⟨by simp [Phrase.IsUnparted, isSeparator], 'c', _, rfl, by decide, by decide, by decide⟩
  value := .inl (isPlainValue_of_isDigit Nat.toDigits_ne_nil fun _ hc =>
    Nat.isDigit_of_mem_toDigits (by decide) (by decide) hc)

/-- The source says its words. -/
theorem says_source (count : Nat) : Says none (source count).toList (words count) (some .text) := by
  have hcount : ("count: " ++ toString count ++ "\n").toList =
      Datum.Wording.statement ⟨"count".toList, Nat.toDigits 10 count⟩ ++ ['\n'] := by
    rw [String.toList_append, String.toList_append, toList_toString]
    rfl
  rw [source, String.toList_append, String.toList_append, String.toList_append, String.toList_append,
    hcount]
  exact (((says_header.append (Says.datum (readable_count count))).append says_banner).append
    says_load).append says_loop

end Reading

/-! ## What the source means -/

/-- The call of the instruction in front of the loop. -/
def loadCall : Call := ⟨"load", ["count"]⟩

/-- The calls of a turn of the loop. -/
def turn : List Call := [⟨"out", []⟩, ⟨"dec", []⟩, ⟨"jnz", ["loop"]⟩]

/-- The program that is read from the source: its instructions say the calls, and its label and its
integer are found. -/
theorem exists_program {count : Nat} (hcount : (count : Int) ≤ WordRange.int64.hi) :
    ∃ p labels data, Program.read (source count) = .ok p ∧
      p.labels (source count).toList = .ok labels ∧ p.integers (source count).toList = .ok data ∧
      List.Forall₂ (Instruction.Spells (source count).toList) p.text (loadCall :: turn) ∧
      labels.get? "loop" = some 1 ∧ data.get? "count" = some (.ofIntOrZero count) := by
  obtain ⟨p, hread, hwords⟩ := Program.exists_of_says (says_source count)
  rw [String.ofList_toList] at hread
  obtain ⟨labels, hlabels, hget⟩ := Program.exists_labels hwords
  refine ⟨p, labels, _, hread, hlabels, Program.integers_of_wording hwords, ?_, ?_, ?_⟩
  · have hcalls : instructions.map Instruction.Wording.call = loadCall :: turn := rfl
    rw [← hcalls, List.forall₂_map_right_iff]
    exact (Program.wording_eq_ok_iff_forall₂.1 hwords).2.imp fun _ _ => Instruction.spells_of_wording
  · rw [hget]
    rfl
  · have hnumber : Datum.Wording.integer? ⟨"count".toList, Nat.toDigits 10 count⟩ =
        some ("count", .ofIntOrZero count) := by
      rw [Datum.Wording.integer?, word?_toDigits hcount]
      rfl
    have hbanner :
        Datum.Wording.integer? ⟨"banner".toList, "\"counting down\"".toList⟩ = none := rfl
    rw [words, List.filterMap_cons_some hnumber, List.filterMap_cons_none hbanner]
    rfl

/-! ## What the instructions do -/

/-- What the instructions work on: the registers hold two numbers, and numbers were emitted. -/
def state (acc ip : Nat) (emitted : List Nat) : Workspace Int64Word (HostState Int64Word) :=
  ⟨.ofList [("acc", .ofIntOrZero acc), (pointerName, .ofIntOrZero ip)], [],
    ⟨emitted.map fun n => .value (.ofIntOrZero n), .empty, false⟩⟩

section Actions

theorem bind_of_ok {α β : Type} {x : Act Int64Word α} {f : α → Act Int64Word β} {a : α}
    {w w' : Workspace Int64Word (HostState Int64Word)} (h : x w = .ok a w') : (x >>= f) w = f a w' := by
  simp only [bind, EStateM.bind, h]

theorem bind_get {β : Type} (f : Workspace Int64Word (HostState Int64Word) → Act Int64Word β)
    (w : Workspace Int64Word (HostState Int64Word)) : (get >>= f) w = f w w :=
  bind_of_ok rfl

variable (acc ip n : Nat) (emitted : List Nat)

theorem get?_state (name : String) : (state acc ip emitted).registers.get? name =
    if pointerName = name then some (.ofIntOrZero ip)
    else if "acc" = name then some (.ofIntOrZero acc) else none := by
  simp [state, NameMap.ofList]

theorem get?_acc_state : (state acc ip emitted).registers.get? "acc" = some (.ofIntOrZero acc) := by
  simp [get?_state, pointerName]

theorem set_acc_state : (state acc ip emitted).registers.set "acc" (.ofIntOrZero n) =
    (state n ip emitted).registers := by
  ext1 name
  rw [NameMap.get?_set, get?_state, get?_state]
  by_cases hacc : "acc" = name
  · subst hacc
    simp [pointerName]
  · simp [hacc]

theorem set_pointer_state : (state acc ip emitted).registers.set pointerName (.ofIntOrZero n) =
    (state acc n emitted).registers := by
  ext1 name
  rw [NameMap.get?_set, get?_state, get?_state]
  by_cases hpointer : pointerName = name
  · simp [hpointer]
  · simp [hpointer]

theorem pointAt_state : (state acc ip emitted).pointAt n = state acc n emitted := by
  have hword : (HoldsPointer.ofPointer (.ofIntOrZero n) : Int64Word) = .ofIntOrZero n :=
    Word.ofIntOrZero_val _
  rw [Workspace.pointAt, hword, set_pointer_state]
  rfl

theorem setRegister_acc_state : setRegister "acc" (.ofIntOrZero n) (state acc ip emitted) =
    .ok () (state n ip emitted) := by
  have hset : setRegister "acc" (.ofIntOrZero n) (state acc ip emitted) = .ok ()
      ⟨(state acc ip emitted).registers.set "acc" (.ofIntOrZero n), [],
        (state acc ip emitted).host⟩ := rfl
  rw [hset, set_acc_state]
  rfl

theorem setRegister_pointer_state : setRegister pointerName (.ofIntOrZero n) (state acc ip emitted) =
    .ok () (state acc n emitted) := by
  have hset : setRegister pointerName (.ofIntOrZero n) (state acc ip emitted) = .ok ()
      ⟨(state acc ip emitted).registers.set pointerName (.ofIntOrZero n), [],
        (state acc ip emitted).host⟩ := rfl
  rw [hset, set_pointer_state]
  rfl

theorem load_state {data : NameMap Int64Word} (hdata : data.get? "count" = some (.ofIntOrZero n)) :
    load data ["count"] (state acc ip emitted) = .ok () (state n ip emitted) := by
  simp only [load, List.headD_cons, hdata]
  exact setRegister_acc_state acc ip n emitted

theorem accumulator_state : accumulator (state acc ip emitted) =
    .ok (.ofIntOrZero acc) (state acc ip emitted) := by
  unfold accumulator
  rw [bind_get, get?_acc_state]
  rfl

theorem register_acc_state : register "acc" (state acc ip emitted) =
    .ok (.ofIntOrZero acc) (state acc ip emitted) := by
  unfold register
  rw [bind_get, get?_acc_state]
  rfl

theorem out_state (operands : List String) :
    out operands (state acc ip emitted) = .ok () (state acc ip (emitted ++ [acc])) := by
  unfold out
  rw [bind_of_ok (accumulator_state acc ip emitted)]
  simp [emit, state, modify, modifyGet, MonadStateOf.modifyGet, EStateM.modifyGet]

theorem ofInt?_sub_one {n : Nat} (hn : (n + 1 : Int) ≤ WordRange.int64.hi) :
    (Word.ofInt? ((Word.ofIntOrZero (n + 1 : Nat) : Int64Word).val - 1) : Option Int64Word) =
      some (.ofIntOrZero n) := by
  have hbefore : ((n : Nat) : Int) ≤ WordRange.int64.hi := by omega
  have hafter : ((n + 1 : Nat) : Int) ≤ WordRange.int64.hi := by omega
  rw [Word.ofInt?_eq_some_iff, val_natWord hbefore, val_natWord hafter]
  omega

theorem dec_state (hacc : (acc + 1 : Int) ≤ WordRange.int64.hi) (operands : List String) :
    dec operands (state (acc + 1) ip emitted) = .ok () (state acc ip emitted) := by
  unfold dec
  rw [bind_of_ok (register_acc_state (acc + 1) ip emitted), ofInt?_sub_one hacc]
  exact setRegister_acc_state (acc + 1) ip acc emitted

theorem jnz_state {labels : NameMap Nat} (hloop : labels.get? "loop" = some 1)
    (hacc : (acc : Int) ≤ WordRange.int64.hi) :
    jnz labels ["loop"] (state acc ip emitted) =
      .ok () (state acc (if acc = 0 then ip else 0) emitted) := by
  unfold jnz
  simp only [List.headD_cons, hloop]
  rw [bind_of_ok (accumulator_state acc ip emitted), val_natWord hacc]
  by_cases hzero : acc = 0
  · subst hzero
    rfl
  · have hne : (acc : Int) ≠ 0 := by omega
    rw [if_pos hne, if_neg hzero]
    exact setRegister_pointer_state acc ip 0 emitted

end Actions

/-! ## Running the program -/

/-- The machine runs the program without a step limit, and the integer and the label are known to the
actions. -/
structure Loaded (m : Machine Int64Word (HostState Int64Word)) (count : Nat) : Prop where
  unlimited : m.config.maxSteps = none
  spells : m.Spells 0 (loadCall :: turn)
  load : ∃ data, m.actions.get? "load" = some (load data) ∧
    data.get? "count" = some (.ofIntOrZero count)
  out : m.actions.get? "out" = some out
  dec : m.actions.get? "dec" = some dec
  jnz : ∃ labels, m.actions.get? "jnz" = some (jnz labels) ∧ labels.get? "loop" = some 1

variable {m : Machine Int64Word (HostState Int64Word)} {count : Nat}

theorem natCast_le_hi {n : Nat} (h : n ≤ 2 ^ 63 - 1) : (n : Int) ≤ WordRange.int64.hi := by
  have hmax : WordRange.int64.hi = 9223372036854775807 := rfl
  omega

theorem pointer?_state (m : Machine Int64Word (HostState Int64Word)) (acc ip : Nat)
    (emitted : List Nat) (made : Nat) :
    (m.moved (state acc ip emitted) made).pointer? = some (.ofIntOrZero ip) := by
  have hget : (m.moved (state acc ip emitted) made).workspace.registers.get? pointerName =
      some (.ofIntOrZero ip) := by
    simp [moved, get?_state]
  exact (pointer?_of_get? hget).trans (Word.ofInt?_val _)

theorem pointsTo_state (hunlimited : m.config.maxSteps = none) (acc : Nat) {ip : Nat} (hip : ip ≤ 4)
    (emitted : List Nat) (made : Nat) : (m.moved (state acc ip emitted) made).PointsTo ip := by
  have hword : ip ≤ 2 ^ 63 - 1 := by omega
  refine ⟨?_, _, pointer?_state m acc ip emitted made, val_natWord (natCast_le_hi hword)⟩
  simp [reachedLimit?, moved, hunlimited]

theorem nextPointer_natWord {n : Nat} (hn : (n + 1 : Int) ≤ WordRange.int64.hi) :
    nextPointer (.ofIntOrZero n) = .ofIntOrZero (n + 1 : Nat) := by
  have hbefore : ((n : Nat) : Int) ≤ WordRange.int64.hi := by omega
  have hafter : ((n + 1 : Nat) : Int) ≤ WordRange.int64.hi := by omega
  rw [Word.ext_iff, val_nextPointer, val_natWord hbefore, val_natWord hafter]
  omega

/-- A call leaves the machine behind the number that its action leaves in the instruction pointer. -/
theorem goes_call (h : Loaded m count) (ip : Nat) {call : Call}
    (hcall : (loadCall :: turn)[ip]? = some call) {action : Action Int64Word (HostState Int64Word)}
    (hdefined : m.actions.get? call.name = some action) {acc acc' left : Nat}
    {emitted emitted' : List Nat}
    (haction : action call.operands (state acc ip emitted) = .ok () (state acc' left emitted'))
    (hleft : left ≤ 3) (made : Nat) :
    Goes (m.moved (state acc ip emitted) made) 1 [call]
      (m.moved (state acc' (left + 1) emitted') (made + 1)) := by
  have hip : ip < 4 := (List.getElem?_eq_some_iff.1 hcall).1
  obtain ⟨i, htext, hspells⟩ := h.spells ip call hcall
  rw [Nat.zero_add] at htext
  have hruns : (m.moved (state acc ip emitted) made).Runs i call.name call.operands action :=
    runs_of_spells (pointsTo_state h.unlimited acc hip.le emitted made) htext hspells hdefined
  have hnext : nextPointer (.ofIntOrZero left) = .ofIntOrZero (left + 1 : Nat) := by
    have hmax : WordRange.int64.hi = 9223372036854775807 := rfl
    exact nextPointer_natWord (by omega)
  have hstep : (m.moved (state acc ip emitted) made).step =
      (m.moved ((state acc' left emitted').pointAt (left + 1)) (made + 1), []) := by
    rw [step_of_runs_of_ok hruns haction (pointer?_state m acc' left emitted' made), hnext]
    rfl
  rw [pointAt_state] at hstep
  have hgoes := Goes.step hstep (.refl _)
  rwa [calls_of_runs hruns] at hgoes

/-- A turn of the loop emits the number and takes one from it. -/
theorem goes_turn (h : Loaded m count) {n : Nat} (hn : (n + 1 : Int) ≤ WordRange.int64.hi)
    (emitted : List Nat) (made : Nat) :
    Goes (m.moved (state (n + 1) 1 emitted) made) 3 turn
      (m.moved (state n ((if n = 0 then 3 else 0) + 1) (emitted ++ [n + 1])) (made + 3)) := by
  obtain ⟨labels, hjnz, hloop⟩ := h.jnz
  have hout := goes_call h 1 rfl h.out (out_state (n + 1) 1 emitted []) (by decide) made
  have hdec := goes_call h 2 rfl h.dec (dec_state n 2 (emitted ++ [n + 1]) hn []) (by decide)
    (made + 1)
  have hjump := goes_call h 3 rfl hjnz
    (jnz_state n 3 (emitted ++ [n + 1]) hloop (by omega)) (by split <;> decide) (made + 2)
  exact (hout.trans hdec).trans hjump

/-- The loop emits all numbers down to one. -/
theorem goes_loop (h : Loaded m count) {n : Nat} (hn : (n + 1 : Int) ≤ WordRange.int64.hi)
    (emitted : List Nat) (made : Nat) :
    Goes (m.moved (state (n + 1) 1 emitted) made) (3 * (n + 1)) (List.replicate (n + 1) turn).flatten
      (m.moved (state 0 4 (emitted ++ (List.range' 1 (n + 1)).reverse)) (made + 3 * (n + 1))) := by
  induction n generalizing emitted made with
  | zero => exact goes_turn h hn emitted made
  | succ n ih =>
      have hturn := goes_turn h hn emitted made
      rw [if_neg (Nat.succ_ne_zero n)] at hturn
      have hlater := ih (by omega) (emitted ++ [n + 1 + 1]) (made + 3)
      have hnumbers : emitted ++ (List.range' 1 (n + 1 + 1)).reverse =
          emitted ++ [n + 1 + 1] ++ (List.range' 1 (n + 1)).reverse := by
        rw [List.range'_1_concat, List.reverse_append, List.append_assoc, Nat.add_comm 1]
        rfl
      have hticks : 3 * (n + 1 + 1) = 3 + 3 * (n + 1) := by omega
      rw [hnumbers, hticks, ← Nat.add_assoc made, List.replicate_succ, List.flatten_cons]
      exact hturn.trans hlater

/-- A machine over the program that is read from the source. -/
theorem loaded_ofProgram {p : Program} {labels : NameMap Nat} {data : NameMap Int64Word}
    {config : Config} (hspells : List.Forall₂ (Instruction.Spells (source count).toList) p.text
      (loadCall :: turn)) (hloop : labels.get? "loop" = some 1)
    (hdata : data.get? "count" = some (.ofIntOrZero count)) (hunlimited : config.maxSteps = none) :
    Loaded (ofProgram (source count) p (instructionSet labels data) config .empty).execute count where
  unlimited := hunlimited
  spells := by
    intro j call hcall
    rw [Nat.zero_add]
    exact exists_of_forall₂_getElem? hspells hcall
  load := ⟨data, by simp [execute, ofProgram, get?_actions_instructionSet], hdata⟩
  out := by simp [execute, ofProgram, get?_actions_instructionSet]
  dec := by simp [execute, ofProgram, get?_actions_instructionSet]
  jnz := ⟨labels, by simp [execute, ofProgram, get?_actions_instructionSet], hloop⟩

/-- A machine over what is read from the source is ready to run, and the program has no fifth instruction.
-/
theorem loaded_of_read {p : Program} {labels : NameMap Nat} {data : NameMap Int64Word} {config : Config}
    (hcount : (count : Int) ≤ WordRange.int64.hi) (hread : Program.read (source count) = .ok p)
    (hlabels : p.labels (source count).toList = .ok labels)
    (hintegers : p.integers (source count).toList = .ok data) (hunlimited : config.maxSteps = none) :
    Loaded (ofProgram (source count) p (instructionSet labels data) config .empty).execute count ∧
      p.text[4]? = none := by
  obtain ⟨p', labels', data', hread', hlabels', hintegers', hspells, hloop, hdata⟩ :=
    exists_program hcount
  obtain rfl : p' = p := Except.ok.inj (hread'.symm.trans hread)
  obtain rfl : labels' = labels := Except.ok.inj (hlabels'.symm.trans hlabels)
  obtain rfl : data' = data := Except.ok.inj (hintegers'.symm.trans hintegers)
  exact ⟨loaded_ofProgram hspells hloop hdata hunlimited,
    List.getElem?_eq_none hspells.length_eq.le⟩

/-- From the start, the program goes on silently until the instruction pointer is behind its last
instruction. -/
theorem goes_program (h : Loaded m count) (hstart : m.moved (state 0 0 []) 0 = m) (hpos : 1 ≤ count)
    (hcount : (count : Int) ≤ WordRange.int64.hi) :
    Goes m (3 * count + 1) (loadCall :: (List.replicate count turn).flatten)
      (m.moved (state 0 4 (List.range' 1 count).reverse) (3 * count + 1)) := by
  obtain ⟨n, rfl⟩ : ∃ n, count = n + 1 := ⟨count - 1, by omega⟩
  obtain ⟨data, hload, hdata⟩ := h.load
  have hfirst := goes_call h 0 rfl hload (load_state 0 0 (n + 1) [] hdata) (by decide) 0
  have hgoes := hfirst.trans (goes_loop h hcount [] (0 + 1))
  rwa [hstart, Nat.zero_add, Nat.add_comm 1] at hgoes

/-- The program counts down from a number, whether its host checks its arithmetic or not: it is read, its
label and its integer are found, and a run emits the numbers down to one, reports the finish and nothing
else, takes three ticks for each number and two more, and leaves the machine idle, with the registers
that it started with. -/
def CountsDown {ρ : Type} (count : Nat) (config : Config) (pacer : Pacer ρ) (s : ρ) (fuel : Nat) :
    Prop :=
  ∃ p labels data m', Program.read (source count) = .ok p ∧
    p.labels (source count).toList = .ok labels ∧ p.integers (source count).toList = .ok data ∧
    CheckedRunsTo pacer s fuel
      (ofProgram (source count) p (instructionSet labels data) config .empty) m'
      (loadCall :: (List.replicate count turn).flatten) (3 * count + 2) [.finish] ∧
    m'.workspace = state 0 0 (List.range' 1 count).reverse ∧ m'.running = false ∧
    m'.workspace.registers = m'.baseline

variable {ρ : Type} {config : Config} {pacer : Pacer ρ} {s : ρ} {fuel : Nat}

/-- The program does not count down from a number whose steps the word cannot count: a host that checks its
arithmetic is brought down before the finish. -/
theorem not_countsDown_of_le (hcount : count ≤ 2 ^ 63 - 1) (hsteps : 2 ^ 64 ≤ 3 * count + 2)
    (hunlimited : config.maxSteps = none) (hpacer : pacer.NeverDeclines config.interval s)
    (hfuel : 3 * count + 2 < fuel) : ¬CountsDown count config pacer s fuel := by
  rintro ⟨p, labels, data, m', hread, hlabels, hintegers, hruns, -⟩
  have hword := natCast_le_hi hcount
  obtain ⟨hloaded, -⟩ := loaded_of_read hword hread hlabels hintegers hunlimited
  have hgoes := goes_program hloaded rfl (by omega) hword
  obtain ⟨s', hrun⟩ := hruns.checkedRun
  have hover : 2 ^ 64 ≤ 0 + (3 * count + 1) := by omega
  have hmore : 3 * count + 1 < fuel := by omega
  obtain ⟨m₁, hfails, -⟩ :=
    checkedRun_of_goes (hpacer.tallied .zero) hgoes hover (show 0 < 2 ^ 64 by decide) hmore
  rw [hfails] at hrun
  simp at hrun

/-- Whatever number the registers hold, the program counts down from it, as long as three steps for each
number and two more fit the word that the steps are counted in. -/
theorem run_countdown (hpos : 1 ≤ count) (hcounted : 3 * count + 2 < 2 ^ 64)
    (hunlimited : config.maxSteps = none) (hpacer : pacer.NeverDeclines config.interval s)
    (hfuel : 3 * count + 2 < fuel) : CountsDown count config pacer s fuel := by
  have hword : (count : Int) ≤ WordRange.int64.hi := natCast_le_hi (by omega)
  obtain ⟨p, labels, data, hread, hlabels, hintegers, -⟩ := exists_program hword
  obtain ⟨hloaded, htext⟩ := loaded_of_read hword hread hlabels hintegers hunlimited
  have hgoes := goes_program hloaded rfl hpos hword
  have hrun := runsTo_of_finished hpacer hgoes
    (pointsTo_state hloaded.unlimited 0 (Nat.le_refl 4) _ _) htext hfuel
  exact ⟨p, labels, data, _, hread, hlabels, hintegers,
    hrun.checked (show 0 + (3 * count + 2) < 2 ^ 64 by omega), rfl, rfl, rfl⟩

/-- Three, two and one take eleven ticks. -/
theorem run_countdown_three :
    ∃ p labels data m', Program.read (source 3) = .ok p ∧
      p.labels (source 3).toList = .ok labels ∧ p.integers (source 3).toList = .ok data ∧
      CheckedRunsTo .immediate .unlimited 12
        (ofProgram (source 3) p (instructionSet labels data) .standard .empty) m'
        (loadCall :: (turn ++ turn ++ turn)) 11 [.finish] ∧
      m'.workspace = state 0 0 [3, 2, 1] ∧ m'.running = false ∧
      m'.workspace.registers = m'.baseline :=
  run_countdown (by decide) (by decide) rfl (Pacer.neverDeclines_immediate Config.second) (by decide)

/-- Registers hold a number from which the program does not count down on a host that checks its
arithmetic: the last jump of the loop would be the first step that overflows. -/
theorem not_countsDown :
    1 ≤ 6148914691236517205 ∧ 6148914691236517205 ≤ 2 ^ 63 - 1 ∧ Config.standard.maxSteps = none ∧
      Pacer.steady.NeverDeclines Config.standard.interval () ∧
      3 * 6148914691236517205 + 2 < 18446744073709551618 ∧
      ¬CountsDown 6148914691236517205 .standard .steady () 18446744073709551618 :=
  ⟨by decide, by decide, rfl, Pacer.neverDeclines_steady _, by decide,
    not_countsDown_of_le (by decide) (by decide) rfl (Pacer.neverDeclines_steady _) (by decide)⟩

end Countdown

end Mnemonic
