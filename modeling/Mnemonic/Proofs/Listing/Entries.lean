import Mathlib.Data.List.Forall2
import Mnemonic.Number.Literal
import Mnemonic.Proofs.Listing.Wording
import Mnemonic.Proofs.Program.Naming

set_option autoImplicit false

/-!
# Entries and their words

The words of a program are the words of its entries, one by one. What is looked up in a program by name
can therefore be found in its words, where it takes no source.

Main statements: a program has words exactly when its entries have them
(`Program.wording_eq_ok_iff_forall₂`), and then its labels are those of the words, each with the number
of the first instruction that has it (`Program.exists_labels`), and the integers of its data section are
those of the words (`Program.integers_of_wording`).
-/

namespace Mnemonic

/-- Reading a list succeeds exactly when reading each element does. -/
theorem Misfit.mapM_eq_ok_iff {α β : Type} {f : α → Except Misfit β} {as : List α} {bs : List β} :
    as.mapM f = .ok bs ↔ List.Forall₂ (fun a b => f a = .ok b) as bs := by
  induction as generalizing bs with
  | nil => simp [Pure.pure, Except.pure, eq_comm]
  | cons a as ih =>
      rw [List.mapM_cons, Misfit.bind_eq_ok_iff, List.forall₂_cons_left_iff]
      simp only [Misfit.bind_eq_ok_iff, ih, Pure.pure, Except.pure, Except.ok.injEq]
      constructor
      · rintro ⟨b, hb, bs', hbs, rfl⟩
        exact ⟨b, bs', hb, hbs, rfl⟩
      · rintro ⟨b, bs', hb, hbs, rfl⟩
        exact ⟨b, hb, bs', hbs, rfl⟩

/-- What is related to a list has an element for each of its elements. -/
theorem exists_of_forall₂_mem {α β : Type} {R : α → β → Prop} {as : List α} {bs : List β}
    (h : List.Forall₂ R as bs) {a : α} (ha : a ∈ as) : ∃ b ∈ bs, R a b := by
  induction h with
  | nil => simp at ha
  | @cons a' b as bs hab _ ih =>
      rcases List.mem_cons.1 ha with rfl | ha
      · exact ⟨b, List.mem_cons_self, hab⟩
      · obtain ⟨b', hb', hR⟩ := ih ha
        exact ⟨b', List.mem_cons_of_mem b hb', hR⟩

/-- The label of an instruction that has words lies in the source, and it is the one of the words. -/
theorem Instruction.label_of_wording {t : List Char} {i : Instruction} {v : Instruction.Wording}
    (h : i.wording t = .ok v) : (∀ l ∈ i.label, l.LiesIn t) ∧ i.labelText? t = v.label := by
  have hlabel := (Instruction.wording_eq_ok_iff.1 h).1
  cases hi : i.label with
  | none =>
      rw [hi] at hlabel
      rw [labelText?, hi]
      exact ⟨by simp, Except.ok.inj hlabel⟩
  | some s =>
      rw [hi, Option.mapM_some] at hlabel
      obtain ⟨l, hl, hv⟩ := Misfit.bind_eq_ok_iff.1 hlabel
      rw [labelText?, hi, Option.bind_some, Span.slice?_of_slice hl]
      exact ⟨by simpa using ⟨l, hl⟩, Except.ok.inj hv⟩

namespace Program

theorem wording_eq_ok_iff_forall₂ {t : List Char} {p : Program} {w : Wording} :
    p.wording t = .ok w ↔ List.Forall₂ (fun e d => e.wording t = .ok d) p.data w.data ∧
      List.Forall₂ (fun i v => i.wording t = .ok v) p.text w.text := by
  rw [wording_eq_ok_iff, Misfit.mapM_eq_ok_iff, Misfit.mapM_eq_ok_iff]

/-- The number of the first instruction of some words that has a label. -/
def Wording.labelled? (text : List Instruction.Wording) (name : String) : Option Nat :=
  text.findIdx? fun v => v.label == some name.toList

/-- The labels of instructions are those of their words. -/
theorem labelled?_of_wording {t : List Char} {is : List Instruction} {vs : List Instruction.Wording}
    (h : List.Forall₂ (fun i v => i.wording t = .ok v) is vs) (name : String) :
    labelled? t is name = Wording.labelled? vs name := by
  induction h with
  | nil => rfl
  | cons hi _ ih =>
      rw [labelled?_cons, ih, (Instruction.label_of_wording hi).2]
      simp only [Wording.labelled?, List.findIdx?_cons, beq_iff_eq]

/-- The labels of a program that has words. -/
theorem exists_labels {t : List Char} {p : Program} {w : Wording} (h : p.wording t = .ok w) :
    ∃ labels, p.labels t = .ok labels ∧
      ∀ name, labels.get? name = Wording.labelled? w.text name := by
  have hwords := (wording_eq_ok_iff_forall₂.1 h).2
  have hlabel : ∀ i ∈ p.text, ∀ l ∈ i.label, l.LiesIn t := by
    intro i hi
    obtain ⟨v, -, hv⟩ := exists_of_forall₂_mem hwords hi
    exact (Instruction.label_of_wording hv).1
  obtain ⟨labels, hlabels, hget⟩ := exists_labels_of_liesIn hlabel
  exact ⟨labels, hlabels, fun name => (hget name).trans (labelled?_of_wording hwords name)⟩

end Program

/-! ## Integers in the data section -/

/-- The name and the value of a data entry, if that is an integer. -/
def Datum.integer? (source : List Char) (e : Datum) : Except Misfit (Option (String × Int64Word)) := do
  match Literal.word? .int64 10 (← e.value.slice source) with
  | none => return none
  | some n => return some (String.ofList (← e.symbol.slice source), n)

/-- The integers of the data section. A later one of a name replaces an earlier one. -/
def Program.integers (p : Program) (source : List Char) : Except Misfit (NameMap Int64Word) :=
  return .ofList ((← p.data.mapM (·.integer? source)).filterMap id)

/-- The name and the value of the words of a data entry, if the value is an integer. -/
def Datum.Wording.integer? (d : Datum.Wording) : Option (String × Int64Word) :=
  (Literal.word? .int64 10 d.value).map (String.ofList d.symbol, ·)

theorem Datum.integer?_of_wording {t : List Char} {e : Datum} {d : Datum.Wording}
    (h : e.wording t = .ok d) : e.integer? t = .ok d.integer? := by
  obtain ⟨hsymbol, hvalue⟩ := wording_eq_ok_iff.1 h
  rw [integer?, hvalue, Wording.integer?]
  cases hword : Literal.word? .int64 10 d.value with
  | none => simp [Bind.bind, Except.bind, hword, Pure.pure, Except.pure]
  | some n => simp [Bind.bind, Except.bind, hword, hsymbol, Pure.pure, Except.pure]

/-- The integers in the data section of a program that has words. -/
theorem Program.integers_of_wording {t : List Char} {p : Program} {w : Wording}
    (h : p.wording t = .ok w) :
    p.integers t = .ok (.ofList (w.data.filterMap Datum.Wording.integer?)) := by
  have hall : List.Forall₂ (fun e d => e.integer? t = .ok d) p.data
      (w.data.map Datum.Wording.integer?) :=
    List.forall₂_map_right_iff.2
      ((wording_eq_ok_iff_forall₂.1 h).1.imp fun _ _ => Datum.integer?_of_wording)
  rw [integers, Misfit.mapM_eq_ok_iff.2 hall]
  simp [Bind.bind, Except.bind, Pure.pure, Except.pure, List.filterMap_map]

end Mnemonic
