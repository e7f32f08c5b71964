import Mnemonic.Proofs.Reading.Phrase

set_option autoImplicit false

/-!
# The outline of a text

The outline of a text is the sequence of its phrases, up to the end of the text or to the first place
where no phrase can be read. It is found by recursion on what remains of the text; nothing is counted
on the way. What a phrase says becomes an item of a program when the text in front of it is known, from
which its spans and its place follow.

Main statements: the equations of the outline (`of_nil`, `of_of_ok`, `of_of_error`); and the phrases of
an outline, with what was passed before it failed, make up the text (`text_of_failure_eq_none`,
`text_of_failure_eq_some`).
-/

namespace Mnemonic

open Text

namespace Phrase

/-- The spans of operands that stand behind a text. -/
def operandSpans (before : List Char) : List (List Char × List Char) → List Span
  | [] => []
  | (gap, token) :: operands =>
      .behind (before ++ gap) token :: operandSpans (before ++ gap ++ token) operands

/-- The item that a phrase is behind some text. Entries are placed at the end of what is passed. -/
def item? (before : List Char) (p : Phrase) : Option Item :=
  let place := Position.behind (encode (before ++ p.passed))
  match p with
  | blank _ => none
  | comment _ => none
  | directive _ s => some (.section s)
  | datum symbol gap value _ =>
      some (.data ⟨.behind before symbol, .behind (before ++ symbol ++ ':' :: gap) value,
        place.line, place.column⟩)
  | instruction label name operands _ =>
      let head := before ++ labelText label
      some (.instruction ⟨.behind head name, operandSpans (head ++ name) operands,
        label.map fun l => .behind before l.1, place.line, place.column⟩)

/-- The items that phrases are behind some text. -/
def items (before : List Char) : List Phrase → List Item
  | [] => []
  | p :: ps => (p.item? before).toList ++ items (before ++ p.text) ps

end Phrase

namespace Item

/-- The data entry that an item is. -/
def datum? : Item → Option Datum
  | data e => some e
  | _ => none

/-- The instruction that an item is. -/
def instruction? : Item → Option Instruction
  | instruction i => some i
  | _ => none

theorem datum?_eq_some_iff {i : Item} {e : Datum} : i.datum? = some e ↔ i = data e := by
  cases i <;> simp [datum?]

theorem instruction?_eq_some_iff {item : Item} {i : Instruction} :
    item.instruction? = some i ↔ item = instruction i := by
  cases item <;> simp [instruction?]

/-- The section that an item makes active. -/
def section? : Item → Option Section
  | «section» s => some s
  | _ => none

end Item

/-- The program of some items. -/
def Program.ofItems (items : List Item) : Program :=
  ⟨items.filterMap Item.datum?, items.filterMap Item.instruction?⟩

instance : Append Program := ⟨fun p q => ⟨p.data ++ q.data, p.text ++ q.text⟩⟩

namespace Program

theorem append_def (p q : Program) : p ++ q = ⟨p.data ++ q.data, p.text ++ q.text⟩ := rfl

@[simp] theorem empty_append (p : Program) : empty ++ p = p := by
  simp [append_def, empty]

@[simp] theorem append_ofItems_nil (p : Program) : p ++ ofItems [] = p := by
  simp [append_def, ofItems]

theorem ofItems_append (items more : List Item) :
    ofItems (items ++ more) = ofItems items ++ ofItems more := by
  simp [append_def, ofItems]

theorem append_assoc (p q r : Program) : p ++ q ++ r = p ++ (q ++ r) := by
  simp [append_def]

theorem mem_data_ofItems {items : List Item} {e : Datum} :
    e ∈ (ofItems items).data ↔ Item.data e ∈ items := by
  simp [ofItems, Item.datum?_eq_some_iff]

theorem mem_text_ofItems {items : List Item} {i : Instruction} :
    i ∈ (ofItems items).text ↔ Item.instruction i ∈ items := by
  simp [ofItems, Item.instruction?_eq_some_iff]

end Program

/-- The section that is active behind some items. -/
def Section.activeAfter (active : Option Section) (items : List Item) : Option Section :=
  (items.filterMap Item.section?).getLast?.or active

@[simp] theorem Section.activeAfter_nil (active : Option Section) : activeAfter active [] = active := by
  simp [activeAfter]

theorem Section.activeAfter_append (active : Option Section) (items more : List Item) :
    activeAfter active (items ++ more) = activeAfter (activeAfter active items) more := by
  simp only [activeAfter, List.filterMap_append, List.getLast?_append, Option.or_assoc]

theorem Section.activeAfter_item? (active : Option Section) (before : List Char) (p : Phrase) :
    activeAfter active (p.item? before).toList = p.section?.or active := by
  cases p <;> simp [Phrase.section?, Phrase.item?, activeAfter, Item.section?]

theorem Phrase.items_append (before : List Char) (ps qs : List Phrase) :
    items before (ps ++ qs) = items before ps ++ items (before ++ ps.flatMap text) qs := by
  induction ps generalizing before with
  | nil => simp [items]
  | cons p ps ih =>
      rw [List.cons_append, items, items, ih, List.flatMap_cons]
      simp only [List.append_assoc]

/-- The phrases of a text, up to its end or to where no phrase can be read. -/
structure Outline where
  phrases : List Phrase
  failure : Option Phrase.Failure

namespace Outline

/-- The outline of a text. -/
def of (active : Option Section) (previous : Option Char) (t : List Char) : Outline :=
  match t with
  | [] => ⟨[], none⟩
  | c :: cs =>
      match _h : Phrase.first active previous c cs with
      | .error f => ⟨[], some f⟩
      | .ok (p, rest) =>
          let later := of (p.section?.or active) p.text.getLast? rest
          ⟨p :: later.phrases, later.failure⟩
termination_by t.length
decreasing_by exact Phrase.length_rest_lt_of_first _h

/-- The text of the phrases of an outline. -/
def text (o : Outline) : List Char := o.phrases.flatMap Phrase.text

/-- What an outline says: the program of its phrases, or its error. -/
def answer (o : Outline) : Except SyntaxError Program :=
  match o.failure with
  | none => .ok (.ofItems (Phrase.items [] o.phrases))
  | some f => .error (f.error o.text)

/-- What a text says. No section is active at its start. -/
def read (t : List Char) : Except SyntaxError Program := (of none none t).answer

variable {active : Option Section} {previous : Option Char}

@[simp] theorem of_nil : of active previous [] = ⟨[], none⟩ := by
  rw [of]

theorem of_of_error {c : Char} {cs : List Char} {f : Phrase.Failure}
    (h : Phrase.first active previous c cs = .error f) :
    of active previous (c :: cs) = ⟨[], some f⟩ := by
  rw [of]
  split
  · rename_i f' h'
    rw [h] at h'
    rw [Except.error.inj h']
  · rename_i h'
    rw [h] at h'
    simp at h'

theorem of_of_ok {c : Char} {cs rest : List Char} {p : Phrase}
    (h : Phrase.first active previous c cs = .ok (p, rest)) :
    of active previous (c :: cs) =
      ⟨p :: (of (p.section?.or active) p.text.getLast? rest).phrases,
        (of (p.section?.or active) p.text.getLast? rest).failure⟩ := by
  rw [of]
  split
  · rename_i h'
    rw [h] at h'
    simp at h'
  · rename_i p' rest' h'
    obtain ⟨rfl, rfl⟩ := Prod.mk.inj (Except.ok.inj (h.symm.trans h'))
    rfl

theorem of_eq_cons {c : Char} {cs rest : List Char} {p : Phrase} {later : Outline}
    (h : Phrase.first active previous c cs = .ok (p, rest))
    (hlater : of (p.section?.or active) p.text.getLast? rest = later) :
    of active previous (c :: cs) = ⟨p :: later.phrases, later.failure⟩ := by
  rw [of_of_ok h, hlater]

/-- To show something of all outlines, go through the cases of reading a phrase. -/
theorem induction {motive : Option Section → Option Char → List Char → Prop}
    (nil : ∀ active previous, motive active previous [])
    (error : ∀ active previous c cs f, Phrase.first active previous c cs = .error f →
      motive active previous (c :: cs))
    (ok : ∀ active previous c cs p rest, Phrase.first active previous c cs = .ok (p, rest) →
      motive (p.section?.or active) p.text.getLast? rest → motive active previous (c :: cs))
    (active : Option Section) (previous : Option Char) (t : List Char) :
    motive active previous t := by
  induction active, previous, t using of.induct with
  | case1 active previous => exact nil active previous
  | case2 active previous c cs f h => exact error active previous c cs f h
  | case3 active previous c cs p rest h ih => exact ok active previous c cs p rest h ih

theorem text_cons (p : Phrase) (ps : List Phrase) (failure : Option Phrase.Failure) :
    text ⟨p :: ps, failure⟩ = p.text ++ text ⟨ps, failure⟩ := rfl

/-- The phrases of an outline that does not fail make up the text. -/
theorem text_of_failure_eq_none {t : List Char} (h : (of active previous t).failure = none) :
    (of active previous t).text = t := by
  induction active, previous, t using Outline.induction with
  | nil active previous => simp [text]
  | error active previous c cs f hfirst => simp [of_of_error hfirst] at h
  | ok active previous c cs p rest hfirst ih =>
      rw [of_of_ok hfirst] at h ⊢
      rw [text_cons, (Phrase.opens_of_first_eq_ok hfirst).text_append]
      exact congrArg (p.text ++ ·) (ih h)

/-- The phrases of an outline that fails make up the text in front of the failure. -/
theorem text_of_failure_eq_some {t : List Char} {f : Phrase.Failure}
    (h : (of active previous t).failure = some f) :
    (of active previous t).text ++ f.passed ++ f.ahead = t := by
  induction active, previous, t using Outline.induction with
  | nil active previous => simp at h
  | error active previous c cs f' hfirst =>
      rw [of_of_error hfirst] at h ⊢
      obtain rfl : f' = f := by simpa using h
      rw [Phrase.append_of_first_eq_error hfirst]
      rfl
  | ok active previous c cs p rest hfirst ih =>
      rw [of_of_ok hfirst] at h ⊢
      rw [text_cons, (Phrase.opens_of_first_eq_ok hfirst).text_append, List.append_assoc,
        List.append_assoc]
      refine congrArg (p.text ++ ·) ?_
      rw [← List.append_assoc]
      exact ih h

end Outline

end Mnemonic
