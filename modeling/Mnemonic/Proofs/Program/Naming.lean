import Mathlib.Order.Bounds.Basic
import Mnemonic.Program.Lookup

set_option autoImplicit false

/-!
# What names mean

A name means what is defined under it first. Of the instructions with a label it is the one furthest up,
and of the data entries with a symbol likewise; what is defined further down under the same name is never
found, and so it can be added or taken away. Only the names themselves have to lie in the source for this;
the other spans of a program are not looked at.

Main statements: the labels of a program are those of its instructions, each with the least number of an
instruction that has it, and the entry of a symbol is the first one that has it, whatever else is defined
behind it (`resolves_first`).
-/

namespace Mnemonic

/-- The text of the label of an instruction, if it has a label that lies in the source. -/
def Instruction.labelText? (source : List Char) (i : Instruction) : Option (List Char) :=
  i.label.bind (·.slice? source)

/-- The text of the symbol of a data entry, if it lies in the source. -/
def Datum.symbolText? (source : List Char) (e : Datum) : Option (List Char) := e.symbol.slice? source

/-- The span lies in the source. -/
def Span.LiesIn (s : Span) (source : List Char) : Prop := ∃ text, s.slice source = .ok text

theorem Span.slice?_of_slice {s : Span} {source text : List Char} (h : s.slice source = .ok text) :
    s.slice? source = some text :=
  slice_eq_ok_iff.1 h

/-- Every label and every symbol of a program lies in the source. -/
structure Program.NamesLieIn (p : Program) (source : List Char) : Prop where
  label : ∀ i ∈ p.text, ∀ l ∈ i.label, l.LiesIn source
  symbol : ∀ e ∈ p.data, e.symbol.LiesIn source

namespace Program

variable {source : List Char}

/-! ## Labels -/

/-- The number of the first instruction that has a label. -/
def labelled? (source : List Char) (is : List Instruction) (name : String) : Option Nat :=
  is.findIdx? fun i => i.labelText? source == some name.toList

theorem labelled?_cons (source : List Char) (i : Instruction) (is : List Instruction) (name : String) :
    labelled? source (i :: is) name =
      if i.labelText? source = some name.toList then some 0
      else (labelled? source is name).map (· + 1) := by
  simp only [labelled?, List.findIdx?_cons, beq_iff_eq]

/-- The labels of further instructions come behind those that are known already. -/
theorem exists_addLabels {is : List Instruction} (h : ∀ i ∈ is, ∀ l ∈ i.label, l.LiesIn source)
    (index : Nat) (known : NameMap Nat) :
    ∃ labels, addLabels source index known is = .ok labels ∧ ∀ name,
      labels.get? name = (known.get? name).or ((labelled? source is name).map (index + ·)) := by
  induction is generalizing index known with
  | nil => exact ⟨known, rfl, by simp [labelled?]⟩
  | cons i is ih =>
      have hlater := ih fun j hj => h j (List.mem_cons_of_mem i hj)
      cases hlabel : i.label with
      | none =>
          have htext : i.labelText? source = none := by
            rw [Instruction.labelText?, hlabel, Option.bind_none]
          obtain ⟨labels, hlabels, hget⟩ := hlater (index + 1) known
          refine ⟨labels, by rw [addLabels, hlabel]; exact hlabels, fun name => ?_⟩
          rw [hget, labelled?_cons, htext]
          simp [Function.comp_def, Nat.add_assoc, Nat.add_comm 1]
      | some l =>
          obtain ⟨text, hslice⟩ := h i List.mem_cons_self l hlabel
          have htext : i.labelText? source = some text := by
            rw [Instruction.labelText?, hlabel, Option.bind_some, Span.slice?_of_slice hslice]
          obtain ⟨labels, hlabels, hget⟩ :=
            hlater (index + 1) (known.setIfAbsent (String.ofList text) index)
          refine ⟨labels, by simp only [addLabels, hlabel, hslice]; exact hlabels, fun name => ?_⟩
          rw [hget, NameMap.get?_setIfAbsent, labelled?_cons, htext]
          by_cases hname : String.ofList text = name
          · subst hname
            cases hknown : known.get? (String.ofList text) <;> simp
          · have hne : text ≠ name.toList := by
              rintro rfl
              exact hname String.ofList_toList
            simp [hname, hne, Function.comp_def, Nat.add_assoc, Nat.add_comm 1]

/-- The labels of a program whose labels lie in the source. -/
theorem exists_labels_of_liesIn {p : Program} (h : ∀ i ∈ p.text, ∀ l ∈ i.label, l.LiesIn source) :
    ∃ labels, p.labels source = .ok labels ∧ ∀ name, labels.get? name = labelled? source p.text name := by
  obtain ⟨labels, hlabels, hget⟩ := exists_addLabels h 0 .empty
  refine ⟨labels, hlabels, fun name => ?_⟩
  rw [hget]
  simp

/-- The number that is found is the least one of an instruction with the label. -/
theorem labelled?_eq_some_iff {is : List Instruction} {name : String} {index : Nat} :
    labelled? source is name = some index ↔
      IsLeast {n | ∃ i, is[n]? = some i ∧ i.labelText? source = some name.toList} index := by
  rw [labelled?, List.findIdx?_eq_some_iff_getElem]
  constructor
  · rintro ⟨hlt, hhere, hbefore⟩
    refine ⟨⟨is[index], List.getElem?_eq_getElem hlt, eq_of_beq hhere⟩, ?_⟩
    rintro n ⟨i, hi, htext⟩
    by_contra hn
    obtain ⟨hlen, rfl⟩ := List.getElem?_eq_some_iff.1 hi
    exact hbefore n (Nat.lt_of_not_le hn) (by rw [htext, beq_self_eq_true])
  · rintro ⟨⟨i, hi, htext⟩, hleast⟩
    obtain ⟨hlt, rfl⟩ := List.getElem?_eq_some_iff.1 hi
    refine ⟨hlt, by rw [htext, beq_self_eq_true], fun n hn hhere => ?_⟩
    have hle : index ≤ n :=
      hleast ⟨is[n], List.getElem?_eq_getElem (Nat.lt_trans hn hlt), eq_of_beq hhere⟩
    omega

theorem isSome_labelled?_iff {is : List Instruction} {name : String} :
    (labelled? source is name).isSome = true ↔ ∃ i ∈ is, i.labelText? source = some name.toList := by
  simp [labelled?, List.findIdx?_isSome]

/-- What is defined already stays when instructions are added behind it. -/
theorem labelled?_append {is : List Instruction} {name : String} {index : Nat}
    (h : labelled? source is name = some index) (more : List Instruction) :
    labelled? source (is ++ more) name = some index := by
  unfold labelled? at h ⊢
  rw [List.findIdx?_append, h, Option.some_or]

/-! ## Data entries -/

/-- Looking up a symbol finds the first entry that has it. -/
theorem findData_eq_find? {es : List Datum} (h : ∀ e ∈ es, e.symbol.LiesIn source) (name : String) :
    findData source name es = .ok (es.find? fun e => e.symbolText? source == some name.toList) := by
  induction es with
  | nil => rfl
  | cons e es ih =>
      obtain ⟨text, hslice⟩ := h e List.mem_cons_self
      have htext : e.symbolText? source = some text := Span.slice?_of_slice hslice
      have hlater := ih fun d hd => h d (List.mem_cons_of_mem e hd)
      rw [findData, hslice, List.find?_cons, htext]
      dsimp only
      by_cases hname : String.ofList text = name
      · subst hname
        simp
      · have hne : text ≠ name.toList := by
          rintro rfl
          exact hname String.ofList_toList
        have hbeq : (some text == some name.toList) = false := beq_false_of_ne (mt Option.some.inj hne)
        rw [if_neg hname, hlater, hbeq]

/-- An entry that is found stays found when entries are added behind it, wherever their spans lie. -/
theorem findData_append {es : List Datum} {name : String} {e : Datum}
    (h : findData source name es = .ok (some e)) (more : List Datum) :
    findData source name (es ++ more) = .ok (some e) := by
  induction es with
  | nil => simp [findData] at h
  | cons d es ih =>
      rw [List.cons_append]
      unfold findData at h ⊢
      cases hslice : d.symbol.slice source with
      | error misfit => simp [hslice] at h
      | ok text =>
          simp only [hslice] at h ⊢
          split
          · rename_i hname
            rwa [if_pos hname] at h
          · rename_i hname
            rw [if_neg hname] at h
            exact ih h

/-! ## Names in a program -/

/-- The program has the entries of the other one and perhaps more behind them. -/
structure Extends (q p : Program) : Prop where
  data : p.data <+: q.data
  text : p.text <+: q.text

/-- Where the labels and the symbols of a program lie in the source, its labels are those of its
instructions, each with the least number of an instruction that has it, and looking up a symbol finds the
first data entry that has it, or none if there is none. What is defined so far keeps its meaning when
other instructions and data entries are added. -/
theorem resolves_first (source : List Char) (p : Program) (h : p.NamesLieIn source) :
    (∃ labels, p.labels source = .ok labels ∧ ∀ name,
      (labels.contains name = true ↔ ∃ i ∈ p.text, i.labelText? source = some name.toList) ∧
      ∀ index, labels.get? name = some index ↔
        IsLeast {n | ∃ i, p.text[n]? = some i ∧ i.labelText? source = some name.toList} index) ∧
    (∀ name, p.data? source name =
      .ok (p.data.find? fun e => e.symbolText? source == some name.toList)) ∧
    ∀ q : Program, q.Extends p → q.NamesLieIn source →
      (∃ labels more, p.labels source = .ok labels ∧ q.labels source = .ok more ∧
        ∀ name index, labels.get? name = some index → more.get? name = some index) ∧
      ∀ name e, p.data? source name = .ok (some e) → q.data? source name = .ok (some e) := by
  obtain ⟨labels, hlabels, hget⟩ := exists_labels_of_liesIn h.label
  refine ⟨⟨labels, hlabels, fun name => ⟨?_, fun index => ?_⟩⟩, ?_, fun q hextends hnames => ⟨?_, ?_⟩⟩
  · rw [NameMap.contains, hget, isSome_labelled?_iff]
  · rw [hget, labelled?_eq_some_iff]
  · exact findData_eq_find? h.symbol
  · obtain ⟨more, hmore, hgetMore⟩ := exists_labels_of_liesIn hnames.label
    refine ⟨labels, more, hlabels, hmore, fun name index hindex => ?_⟩
    obtain ⟨text, htext⟩ := hextends.text
    rw [hget] at hindex
    rw [hgetMore, ← htext]
    exact labelled?_append hindex text
  · intro name e he
    obtain ⟨data, hdata⟩ := hextends.data
    rw [data?, ← hdata]
    exact findData_append he data

/-- An instruction without a label between two that have the same one, and two data entries with the
same symbol. The names of the instructions lie nowhere. -/
def definedTwice : Program where
  data := [⟨⟨0, 2⟩, ⟨4, 5⟩, 1, 5⟩, ⟨⟨0, 2⟩, ⟨9, 9⟩, 1, 9⟩]
  text := [⟨⟨40, 50⟩, [], none, 2, 4⟩, ⟨⟨40, 50⟩, [], some ⟨0, 2⟩, 3, 4⟩,
    ⟨⟨40, 50⟩, [], some ⟨2, 2⟩, 4, 4⟩, ⟨⟨40, 50⟩, [], some ⟨0, 2⟩, 5, 4⟩]

theorem namesLieIn_definedTwice : definedTwice.NamesLieIn ['é', ':', ' ', '7'] where
  label := by
    simp only [definedTwice, List.forall_mem_cons, List.not_mem_nil, false_imp_iff, implies_true,
      Option.mem_def, Option.some.injEq, forall_eq', reduceCtorEq, and_true, true_and]
    exact ⟨⟨_, rfl⟩, ⟨_, rfl⟩, ⟨_, rfl⟩⟩
  symbol := by
    simp only [definedTwice, List.forall_mem_cons, List.not_mem_nil, false_imp_iff, implies_true,
      and_true]
    exact ⟨⟨_, rfl⟩, ⟨_, rfl⟩⟩

/-- The instruction further up and the entry in front are meant. -/
theorem resolves_first_definedTwice :
    definedTwice.NamesLieIn ['é', ':', ' ', '7'] ∧
      (∃ labels, definedTwice.labels ['é', ':', ' ', '7'] = .ok labels ∧
        labels.get? "é" = some 1 ∧ labels.get? "" = some 2 ∧ labels.get? "7" = none) ∧
      definedTwice.data? ['é', ':', ' ', '7'] "é" = .ok (some ⟨⟨0, 2⟩, ⟨4, 5⟩, 1, 5⟩) := by
  obtain ⟨⟨labels, hlabels, hget⟩, hdata, -⟩ :=
    resolves_first ['é', ':', ' ', '7'] definedTwice namesLieIn_definedTwice
  refine ⟨namesLieIn_definedTwice, ⟨labels, hlabels, ?_, ?_, ?_⟩, hdata "é"⟩
  · refine ((hget "é").2 1).2 ⟨⟨_, rfl, rfl⟩, ?_⟩
    rintro (_ | n) ⟨i, hi, htext⟩
    · obtain rfl := Option.some.inj hi
      simp [Instruction.labelText?] at htext
    · omega
  · refine ((hget "").2 2).2 ⟨⟨_, rfl, rfl⟩, ?_⟩
    rintro (_ | _ | n) ⟨i, hi, htext⟩
    · obtain rfl := Option.some.inj hi
      simp [Instruction.labelText?] at htext
    · obtain rfl := Option.some.inj hi
      exact absurd htext (by decide)
    · omega
  · have hnone : labels.contains "7" ≠ true := by
      rw [Ne, (hget "7").1]
      rintro ⟨i, hi, htext⟩
      revert i
      decide
    simpa [NameMap.contains] using hnone

end Program

end Mnemonic
