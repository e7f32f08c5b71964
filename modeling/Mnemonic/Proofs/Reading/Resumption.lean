import Mathlib.Data.Nat.Find
import Mnemonic.Proofs.Reading.Fit

set_option autoImplicit false

/-!
# Reading on behind errors

An attempt that fails leaves a session from which the next attempt goes on. What the failed attempt
completed stays recorded, and nothing of the statement that it failed in does; the section is the one
that was active in front of that statement; and the cursor is further on in the text. So the attempts
come to the end of the text, and the first one that does returns all that was completed on the way.

Main statements: an attempt from wherever an earlier one stopped ends as the outline of what is ahead
says (`ends_upcoming`); a statement that cannot be read is passed over at least in part
(`passed_ne_nil_of_failure`); and what phrases say stands in the text one behind the other
(`pairwise_items`).
-/

namespace Mnemonic

open Text

/-! ## What cannot be read is passed over -/

namespace Phrase

theorem passed_ne_nil_of_directiveFrom {active : Option Section} {rest : List Char} {f : Failure}
    (h : directiveFrom active rest = .error f) : f.passed ≠ [] := by
  unfold directiveFrom at h
  split at h
  · obtain rfl := Except.error.inj h
    simp [Failure.atEnd, sectionKeyword]
  · dsimp only at h
    split at h
    · obtain rfl := Except.error.inj h
      simp [sectionKeyword]
    · split at h
      · obtain rfl := Except.error.inj h
        simp [sectionKeyword]
      · simp at h

theorem passed_ne_nil_of_operandsFrom {label : Option (List Char × List Char)}
    {name rest : List Char} {f : Failure} (hhead : labelText label ++ name ≠ [])
    (h : operandsFrom label name rest = .error f) : f.passed ≠ [] := by
  unfold operandsFrom at h
  dsimp only at h
  split at h
  · obtain rfl := Except.error.inj h
    exact List.append_ne_nil_of_left_ne_nil hhead _
  · simp at h

theorem passed_ne_nil_of_instructionFrom {word rest : List Char} {f : Failure} (hword : word ≠ [])
    (h : instructionFrom word rest = .error f) : f.passed ≠ [] := by
  unfold instructionFrom at h
  split at h
  · split at h
    · obtain rfl := Except.error.inj h
      simp [Failure.atEnd, hword]
    · split at h
      · obtain rfl := Except.error.inj h
        simp [hword]
      · exact passed_ne_nil_of_operandsFrom (by simp [labelText]) h
  · exact passed_ne_nil_of_operandsFrom (by simp [labelText, hword]) h

theorem passed_ne_nil_of_datumFrom {word rest : List Char} {f : Failure} (hword : word ≠ [])
    (h : datumFrom word rest = .error f) : f.passed ≠ [] := by
  unfold datumFrom at h
  split at h
  · dsimp only at h
    split at h
    · obtain rfl := Except.error.inj h
      simp [Failure.atEnd, hword]
    · split at h
      · split at h
        · obtain rfl := Except.error.inj h
          simp [Failure.atEnd, hword]
        · simp at h
      · simp at h
  · obtain rfl := Except.error.inj h
    exact hword

theorem passed_ne_nil_of_statementFrom {active : Option Section} {word rest : List Char}
    {f : Failure} (hword : word ≠ []) (h : statementFrom active word rest = .error f) :
    f.passed ≠ [] := by
  unfold statementFrom at h
  split at h
  · exact passed_ne_nil_of_directiveFrom h
  · split at h
    · obtain rfl := Except.error.inj h
      exact hword
    · exact passed_ne_nil_of_instructionFrom hword h
    · exact passed_ne_nil_of_datumFrom hword h

theorem passed_ne_nil_of_first {active : Option Section} {previous : Option Char} {c : Char}
    {cs : List Char} {f : Failure} (h : first active previous c cs = .error f) : f.passed ≠ [] := by
  unfold first at h
  split at h
  · simp at h
  · rename_i hseparator
    split at h
    · simp at h
    · split at h
      · simp at h
      · refine passed_ne_nil_of_statementFrom ?_ h
        rw [List.takeWhile_cons_of_pos (by simpa using hseparator)]
        exact List.cons_ne_nil _ _

end Phrase

theorem Outline.passed_ne_nil_of_failure {active : Option Section} {previous : Option Char}
    {t : List Char} {f : Phrase.Failure} (h : (of active previous t).failure = some f) :
    f.passed ≠ [] := by
  induction active, previous, t using Outline.induction with
  | nil active previous => simp at h
  | error active previous c cs f' hfirst =>
      rw [of_of_error hfirst] at h
      obtain rfl : f' = f := by simpa using h
      exact Phrase.passed_ne_nil_of_first hfirst
  | ok active previous c cs p rest hfirst ih =>
      rw [of_of_ok hfirst] at h
      exact ih h

/-! ## Where items stand -/

namespace Item

/-- The stretch of the text from the first span of an entry to the last. -/
def span? : Item → Option Span
  | .section _ => none
  | .data e => some ⟨e.symbol.lower, e.value.upper⟩
  | .instruction i => some ⟨(i.label.getD i.name).lower, (i.operands.getLastD i.name).upper⟩

/-- The item stands between two offsets, and is not empty. -/
def Within (lo hi : Nat) (i : Item) : Prop :=
  ∀ s ∈ i.span?, lo ≤ s.lower ∧ s.lower < s.upper ∧ s.upper ≤ hi

/-- The item ends before the other one starts. -/
def Precedes (i j : Item) : Prop :=
  ∀ s ∈ i.span?, ∀ s' ∈ j.span?, s.lower < s.upper ∧ s.upper ≤ s'.lower

theorem Within.mono {lo lo' hi hi' : Nat} {i : Item} (h : i.Within lo hi) (hlo : lo' ≤ lo)
    (hhi : hi ≤ hi') : i.Within lo' hi' := by
  intro s hs
  obtain ⟨hlower, hne, hupper⟩ := h s hs
  exact ⟨hlo.trans hlower, hne, hupper.trans hhi⟩

theorem Within.precedes {lo mid hi : Nat} {i j : Item} (hfirst : i.Within lo mid)
    (hsecond : j.Within mid hi) : i.Precedes j := by
  intro s hs s' hs'
  obtain ⟨-, hne, hupper⟩ := hfirst s hs
  exact ⟨hne, hupper.trans (hsecond s' hs').1⟩

end Item

namespace Phrase

theorem upper_getLastD_operandSpans (before : List Char) (operands : List (List Char × List Char))
    (name : Span) (hname : name.upper = byteLength before) :
    ((operandSpans before operands).getLastD name).upper =
      byteLength (before ++ operandText operands) := by
  induction operands generalizing before name with
  | nil => simpa [operandSpans, operandText] using hname
  | cons operand operands ih =>
      obtain ⟨gap, token⟩ := operand
      have hlater := ih (before ++ gap ++ token) (.behind (before ++ gap) token)
        (byteLength_append (before ++ gap) token).symm
      rw [operandSpans, List.getLastD_cons, hlater]
      simp [operandText]

/-- What a phrase says stands in the part of the phrase that is passed over. -/
theorem within_passed_of_item? {p : Phrase} (hp : p.WellFormed) {before : List Char} {i : Item}
    (hi : p.item? before = some i) :
    i.Within (byteLength before) (byteLength (before ++ p.passed)) := by
  cases p with
  | blank c => simp [item?] at hi
  | comment remark => simp [item?] at hi
  | directive gap s =>
      obtain rfl : Item.section s = i := by simpa [item?] using hi
      simp [Item.Within, Item.span?]
  | datum symbol gap value dropped =>
      obtain ⟨-, -, hvalue⟩ := hp
      have hpos := Nat.pos_of_ne_zero (mt (byteLength_eq_zero_iff value).1 hvalue.ne_nil)
      obtain rfl := Option.some.inj hi
      intro s hs
      obtain rfl := Option.some.inj hs
      simp only [Span.behind, passed, byteLength_append, byteLength_cons]
      omega
  | instruction label name operands trailing =>
      obtain ⟨-, hname, -⟩ := hp
      have hpos := Nat.pos_of_ne_zero (mt (byteLength_eq_zero_iff name).1 hname)
      obtain rfl := Option.some.inj hi
      intro s hs
      obtain rfl := Option.some.inj hs
      have hupper := upper_getLastD_operandSpans (before ++ labelText label ++ name) operands
        (.behind (before ++ labelText label) name) (byteLength_append _ _).symm
      have hlower : ((label.map fun l => Span.behind before l.1).getD
          (.behind (before ++ labelText label) name)).lower = byteLength before := by
        cases label with
        | none => simp [labelText, Span.behind]
        | some l => rfl
      simp only [hupper, hlower, passed, byteLength_append]
      omega

/-- What a phrase says stands where the phrase does. -/
theorem within_of_item? {p : Phrase} (hp : p.WellFormed) {before : List Char} {i : Item}
    (hi : p.item? before = some i) :
    i.Within (byteLength before) (byteLength (before ++ p.text)) :=
  (within_passed_of_item? hp hi).mono le_rfl (by simp [text])

theorem within_of_mem_items {phrases : List Phrase} (hp : ∀ p ∈ phrases, p.WellFormed)
    (before : List Char) : ∀ i ∈ items before phrases,
      i.Within (byteLength before) (byteLength (before ++ phrases.flatMap text)) := by
  induction phrases generalizing before with
  | nil => simp [items]
  | cons p ps ih =>
      have hlater := ih (fun q hq => hp q (List.mem_cons_of_mem p hq)) (before ++ p.text)
      rw [List.flatMap_cons, ← List.append_assoc]
      intro i hi
      rcases List.mem_append.1 hi with hi | hi
      · have hwithin := within_of_item? (hp p List.mem_cons_self) (Option.mem_toList.1 hi)
        exact hwithin.mono le_rfl (by simp)
      · exact (hlater i hi).mono (by simp) le_rfl

/-- What phrases say stands one behind the other. -/
theorem pairwise_items {phrases : List Phrase} (hp : ∀ p ∈ phrases, p.WellFormed)
    (before : List Char) : (items before phrases).Pairwise Item.Precedes := by
  induction phrases generalizing before with
  | nil => exact .nil
  | cons p ps ih =>
      have hps : ∀ q ∈ ps, q.WellFormed := fun q hq => hp q (List.mem_cons_of_mem p hq)
      refine List.pairwise_append.2 ⟨?_, ih hps (before ++ p.text), ?_⟩
      · cases p.item? before <;> simp
      · intro i hi j hj
        have hfirst := within_of_item? (hp p List.mem_cons_self) (Option.mem_toList.1 hi)
        exact hfirst.precedes (within_of_mem_items hps _ j hj)

end Phrase

/-! ## Attempts from where others stopped -/

/-- The part of the text that was passed. -/
def Scanner.passed (s : Scanner) : List Char := s.source.take (s.source.length - s.ahead.length)

@[simp] theorem Scanner.passed_between (before ahead : List Char) :
    (between before ahead).passed = before := by
  simp [passed, between]

@[simp] theorem Scanner.offset_cursor_between (before ahead : List Char) :
    (between before ahead).cursor.offset = byteLength before := by
  simp [between]

theorem Scanner.offset_le_offset_leave (s : Scanner) : s.cursor.offset ≤ s.leave.cursor.offset := by
  have henter : s.cursor.offset ≤ s.enter.cursor.offset := by
    simp only [enter, Cursor.next, reduceCtorEq, if_false, Cursor.offset]
    omega
  unfold leave skip
  split
  · exact henter
  · split
    · exact henter
    · rename_i c cs _
      by_cases hc : c = '\n'
      · simp only [hc, Cursor.nextChar_lineFeed, Cursor.offset]
        omega
      · simp only [Cursor.nextChar_of_ne hc, Cursor.offset]
        omega

namespace Session

open Scanner

/-- The outline of what is ahead of the next attempt, which starts behind the character that is left
unread. -/
def upcoming (s : Session) : Outline := .of s.active s.scanner.leave.previous s.scanner.leave.ahead

/-- The statements that the next attempt completes: all that are ahead, up to the first that cannot be
read. -/
def completed (s : Session) : List Item := Phrase.items s.scanner.leave.passed s.upcoming.phrases

/-- An attempt ends as the outline of what is ahead says. -/
theorem ends_upcoming {t : List Char} {s : Session} (h : Stands t s.scanner) :
    Ends s.active s.program s.scanner.leave.passed s.upcoming s.read := by
  obtain ⟨scanner, active, program⟩ := s
  rcases h.leave with ⟨before, ahead, -, hleave⟩ | hspent
  · simp only [upcoming, read, hleave, passed_between]
    exact ends_readItems active program before ahead
  · simp only [upcoming, read, hspent.ahead_eq, Outline.of_nil]
    exact ends_of_spent hspent active program _

/-- An attempt that succeeds returns what was completed, and leaves nothing to read and nothing
recorded. -/
theorem read_of_ok {t : List Char} {s : Session} {p : Program} (h : Stands t s.scanner)
    (hread : s.read.1 = .ok p) :
    p = s.program ++ .ofItems s.completed ∧ s.read.2.scanner.Spent ∧ s.read.2.program = .empty := by
  have hends := ends_upcoming h
  generalize s.read = r at hends hread
  cases hends with
  | finished hfailure hspent => exact ⟨(Except.ok.inj hread).symm, hspent, rfl⟩
  | stopped => simp at hread

/-- An attempt that fails records what was completed, and nothing else. -/
theorem read_of_error {t : List Char} {s : Session} {e : SyntaxError} (h : Stands t s.scanner)
    (hread : s.read.1 = .error e) :
    ∃ f, s.upcoming.failure = some f ∧ e = f.error (s.scanner.leave.passed ++ s.upcoming.text) ∧
      s.read.2 = ⟨between (s.scanner.leave.passed ++ s.upcoming.text ++ f.passed) f.ahead,
        Section.activeAfter s.active s.completed, s.program ++ .ofItems s.completed⟩ := by
  have hends := ends_upcoming h
  generalize s.read = r at hends hread
  cases hends with
  | finished => simp at hread
  | @stopped f hfailure => exact ⟨f, hfailure, (Except.error.inj hread).symm, rfl⟩

/-! ## The way through the text -/

theorem within_completed {t : List Char} {s : Session} (h : Stands t s.scanner) :
    ∀ i ∈ s.completed, i.Within s.scanner.cursor.offset
      (byteLength (s.scanner.leave.passed ++ s.upcoming.text)) := by
  have hoffset := s.scanner.offset_le_offset_leave
  intro i hi
  rcases h.leave with ⟨before, ahead, -, hleave⟩ | hspent
  · have hwithin := Phrase.within_of_mem_items Outline.wellFormed_of_mem _ i hi
    refine hwithin.mono ?_ le_rfl
    rw [hleave, offset_cursor_between] at hoffset
    rwa [hleave, passed_between]
  · simp [completed, upcoming, hspent.ahead_eq, Phrase.items] at hi

/-- An attempt that fails moves the cursor forward, further than all that it completed and not behind
the end of the text. -/
theorem offset_of_error {t : List Char} {s : Session} {e : SyntaxError} (h : Stands t s.scanner)
    (hread : s.read.1 = .error e) :
    s.scanner.cursor.offset < s.read.2.scanner.cursor.offset ∧
      byteLength (s.scanner.leave.passed ++ s.upcoming.text) < s.read.2.scanner.cursor.offset ∧
      s.read.2.scanner.cursor.offset ≤ byteLength t := by
  obtain ⟨f, hfailure, -, hleft⟩ := read_of_error h hread
  have hpassed := Nat.pos_of_ne_zero
    (mt (byteLength_eq_zero_iff f.passed).1 (Outline.passed_ne_nil_of_failure hfailure))
  have hoffset := s.scanner.offset_le_offset_leave
  have htext := congrArg byteLength (Outline.text_of_failure_eq_some hfailure)
  rcases h.leave with ⟨before, ahead, ht, hleave⟩ | hspent
  · have hahead : s.scanner.leave.ahead = ahead := by
      rw [hleave]
      rfl
    rw [hleave, offset_cursor_between] at hoffset
    rw [hleft, offset_cursor_between, hleave, passed_between, ← ht]
    change byteLength (s.upcoming.text ++ f.passed ++ f.ahead) = _ at htext
    simp only [byteLength_append, hahead] at htext ⊢
    omega
  · simp [upcoming, hspent.ahead_eq] at hfailure

/-! ## Several attempts -/

/-- The statements that a number of attempts complete, one attempt after the other. -/
def completedBy (s : Session) (n : Nat) : List Item :=
  (List.range n).flatMap fun j => (s.after j).completed

theorem completedBy_succ (s : Session) (n : Nat) :
    s.completedBy (n + 1) = s.completedBy n ++ (s.after n).completed := by
  simp [completedBy, List.range_succ]

/-- What holds of the session over a text after a number of attempts that all failed. -/
structure Resumes (t : List Char) (n : Nat) : Prop where
  program_eq : ((ofText t).after n).program = .ofItems ((ofText t).completedBy n)
  pairwise : ((ofText t).completedBy n).Pairwise Item.Precedes
  within : ∀ i ∈ (ofText t).completedBy n, i.Within 0 ((ofText t).after n).scanner.cursor.offset
  le_offset : n ≤ ((ofText t).after n).scanner.cursor.offset
  offset_le : ((ofText t).after n).scanner.cursor.offset ≤ byteLength t

theorem resumes_zero (t : List Char) : Resumes t 0 where
  program_eq := rfl
  pairwise := .nil
  within := by simp [completedBy]
  le_offset := Nat.zero_le _
  offset_le := Nat.zero_le _

/-- What the next attempt completes stands behind all that was completed before. -/
theorem Resumes.pairwise_succ {t : List Char} {n : Nat} (h : Resumes t n) :
    ((ofText t).completedBy (n + 1)).Pairwise Item.Precedes := by
  rw [completedBy_succ]
  refine List.pairwise_append.2
    ⟨h.pairwise, Phrase.pairwise_items Outline.wellFormed_of_mem _, ?_⟩
  intro i hi j hj
  exact (h.within i hi).precedes (within_completed (sound_after t n).stands j hj)

theorem Resumes.succ {t : List Char} {n : Nat} (h : Resumes t n) {e : SyntaxError}
    (hread : ((ofText t).after n).read.1 = .error e) : Resumes t (n + 1) := by
  have hstands := (sound_after t n).stands
  obtain ⟨f, -, -, hleft⟩ := read_of_error hstands hread
  obtain ⟨hforward, hbehind, hinside⟩ := offset_of_error hstands hread
  refine ⟨?_, h.pairwise_succ, ?_, ?_, hinside⟩
  · have hprogram := congrArg Session.program hleft
    rw [h.program_eq] at hprogram
    rw [completedBy_succ, Program.ofItems_append]
    exact hprogram
  · intro i hi
    rw [completedBy_succ] at hi
    rcases List.mem_append.1 hi with hi | hi
    · exact (h.within i hi).mono le_rfl hforward.le
    · exact (within_completed hstands i hi).mono (Nat.zero_le _) hbehind.le
  · exact h.le_offset.trans_lt hforward

theorem resumes_of_errors {t : List Char} {n : Nat}
    (h : ∀ j < n, ∃ e, ((ofText t).after j).read.1 = .error e) : Resumes t n := by
  induction n with
  | zero => exact resumes_zero t
  | succ n ih =>
      obtain ⟨e, he⟩ := h n (Nat.lt_succ_self n)
      exact (ih fun j hj => h j (hj.trans (Nat.lt_succ_self n))).succ he

/-- Each failed attempt takes a byte at least, so one attempt succeeds. -/
theorem exists_read_eq_ok (t : List Char) : ∃ n, ∃ p, ((ofText t).after n).read.1 = .ok p := by
  by_contra hnone
  have herrors : ∀ n, ∃ e, ((ofText t).after n).read.1 = .error e := by
    intro n
    cases hread : ((ofText t).after n).read.1 with
    | error e => exact ⟨e, rfl⟩
    | ok p => exact absurd ⟨n, p, hread⟩ hnone
  have h : Resumes t (byteLength t + 1) := resumes_of_errors fun n _ => herrors n
  have hle := h.le_offset.trans h.offset_le
  omega

/-- Behind an attempt that succeeded nothing is left to read, so all later attempts find nothing. -/
theorem after_of_ok {t : List Char} {n : Nat} {p : Program}
    (h : ((ofText t).after n).read.1 = .ok p) (more : Nat) :
    ((ofText t).after (n + 1 + more)).scanner.Spent ∧
      ((ofText t).after (n + 1 + more)).program = .empty := by
  induction more with
  | zero => exact (read_of_ok (sound_after t n).stands h).2
  | succ more ih =>
      obtain ⟨hspent, hprogram⟩ := ih
      have hread := readItems_of_nil (s := { (ofText t).after (n + 1 + more) with
        scanner := ((ofText t).after (n + 1 + more)).scanner.leave }) hspent.leave.ahead_eq
      rw [← Nat.add_assoc, after, read, hread]
      exact ⟨hspent.leave, rfl⟩

theorem read_of_spent {s : Session} (h : s.scanner.Spent) : s.read.1 = .ok s.program := by
  rw [read, readItems_of_nil h.leave.ahead_eq]

/-- An attempt that fails records what it completed in front of the statement that it failed in, in the
section that was active there, and moves the cursor forward inside of the text. So at most as many
attempts fail as the text has bytes; the first that does not returns the statements that all attempts
completed, in their order in the text; and from then on there is nothing left to find. -/
theorem read_resumes (source : String) :
    (∀ n e, ((ofString source).after n).read.1 = .error e →
      let before := (ofString source).after n
      let after := (ofString source).after (n + 1)
      (∃ f, before.upcoming.failure = some f ∧
        e = f.error (before.scanner.leave.passed ++ before.upcoming.text)) ∧
      after.program = before.program ++ .ofItems before.completed ∧
      after.active = Section.activeAfter before.active before.completed ∧
      before.scanner.cursor.offset < after.scanner.cursor.offset ∧
      after.scanner.cursor.offset ≤ byteLength source.toList) ∧
    ∃ k ≤ byteLength source.toList,
      (∀ j < k, ∃ e, ((ofString source).after j).read.1 = .error e) ∧
      ((ofString source).after k).read.1 = .ok (.ofItems ((ofString source).completedBy (k + 1))) ∧
      ((ofString source).completedBy (k + 1)).Pairwise Item.Precedes ∧
      ∀ j, k < j → ((ofString source).after j).read.1 = .ok .empty := by
  refine ⟨?_, ?_⟩
  · intro n e hread before after
    have hstands := (sound_after source.toList n).stands
    obtain ⟨f, hfailure, he, hleft⟩ := read_of_error hstands hread
    obtain ⟨hforward, -, hinside⟩ := offset_of_error hstands hread
    exact ⟨⟨f, hfailure, he⟩, congrArg Session.program hleft, congrArg Session.active hleft,
      hforward, hinside⟩
  · classical
    have hsome := exists_read_eq_ok source.toList
    obtain ⟨p, hp⟩ := Nat.find_spec hsome
    generalize hk : Nat.find hsome = k at hp
    have herrors : ∀ j < k, ∃ e, ((ofString source).after j).read.1 = .error e := by
      intro j hj
      cases hread : ((ofString source).after j).read.1 with
      | error e => exact ⟨e, rfl⟩
      | ok q => exact absurd ⟨q, hread⟩ (Nat.find_min hsome (hk ▸ hj))
    have hresumes : Resumes source.toList k := resumes_of_errors herrors
    refine ⟨k, hresumes.le_offset.trans hresumes.offset_le, herrors, ?_, hresumes.pairwise_succ, ?_⟩
    · have hstands := (sound_after source.toList k).stands
      rw [show ((ofString source).after k).read.1 = .ok p from hp, (read_of_ok hstands hp).1,
        hresumes.program_eq, ← Program.ofItems_append, ← completedBy_succ]
      rfl
    · intro j hj
      obtain ⟨more, rfl⟩ := Nat.exists_eq_add_of_le (Nat.succ_le_of_lt hj)
      obtain ⟨hspent, hprogram⟩ := after_of_ok hp more
      exact (read_of_spent hspent).trans (congrArg Except.ok hprogram)

/-- Between two data entries stands a word that is none. The first attempt stops behind the word, in the
data section and with the first entry recorded. -/
theorem read_resumes_behindWord :
    let s := ofString "section .data x: 1 y z: 2"
    (s.after 0).read.1 = .error ⟨.missingDataSymbol, ⟨1, 20⟩⟩ ∧
      (s.after 1).program = ⟨[⟨⟨14, 15⟩, ⟨17, 18⟩, 1, 18⟩], []⟩ ∧ (s.after 1).active = some .data ∧
      0 < (s.after 1).scanner.cursor.offset ∧
      ∃ k, 0 < k ∧ k ≤ 25 ∧ (s.after k).read.1 = .ok (.ofItems (s.completedBy (k + 1))) := by
  intro s
  have houtline : Outline.of none none "section .data x: 1 y z: 2".toList =
      ⟨[.directive [' '] .data, .blank ' ', .datum ['x'] [' '] ['1'] [], .blank ' '],
        some ⟨.missingDataSymbol, encode ['y'], ['y'], " z: 2".toList⟩⟩ :=
    Outline.of_eq_cons rfl (Outline.of_eq_cons rfl (Outline.of_eq_cons rfl
      (Outline.of_eq_cons rfl (Outline.of_of_error rfl))))
  have hread : (s.after 0).read.1 = .error ⟨.missingDataSymbol, ⟨1, 20⟩⟩ := by
    refine (fst_read none _).trans ?_
    rw [houtline]
    rfl
  have hcompleted : (s.after 0).completed = [.section .data, .data ⟨⟨14, 15⟩, ⟨17, 18⟩, 1, 18⟩] := by
    have hstart : (s.after 0).scanner.leave = between [] "section .data x: 1 y z: 2".toList :=
      leave_ofText _
    have hupcoming : (s.after 0).upcoming = Outline.of none none "section .data x: 1 y z: 2".toList := by
      rw [upcoming, hstart]
      rfl
    rw [completed, hupcoming, hstart, houtline]
    rfl
  obtain ⟨herror, k, hk, hfails, hok, -⟩ := read_resumes "section .data x: 1 y z: 2"
  obtain ⟨-, hprogram, hactive, hforward, -⟩ := herror 0 _ hread
  have hpos : 0 < k := by
    refine Nat.pos_of_ne_zero ?_
    rintro rfl
    rw [hread] at hok
    simp at hok
  refine ⟨hread, ?_, ?_, hforward, k, hpos, hk, hok⟩
  · rw [hprogram, hcompleted]
    rfl
  · rw [hactive, hcompleted]
    rfl

end Session

end Mnemonic
