import Mathlib.Data.List.TakeWhile
import Mnemonic.Program.Listing

set_option autoImplicit false

/-!
# Terminal codes in a text

A terminal takes a text apart into characters that it shows and codes that it obeys. A code is an escape
character, a bracket, some digits and the letter `m`; the text is read from its start, and whatever is not
a code there is shown.

Main statements: the code at the start of a text is found if there is one (`splitCode?_eq_some_iff`); to
delete the codes takes away a code at the start of a text (`deleteCodes_append_of_isCode`), and nothing of
what has no escape character in it (`deleteCodes_append_of_notMem`).
-/

namespace Mnemonic.Text

/-- The character that every code starts with. -/
def escape : Char := '\x1b'

/-- A code: escape character and bracket, at least one digit, and the letter `m`. -/
def IsCode (code : List Char) : Prop :=
  ∃ digits, digits ≠ [] ∧ (∀ d ∈ digits, d.isDigit = true) ∧ code = escape :: '[' :: digits ++ ['m']

/-- The code that a text starts with, and what follows it. -/
def splitCode? : List Char → Option (List Char × List Char)
  | '\x1b' :: '[' :: t =>
      let digits := t.takeWhile Char.isDigit
      match t.dropWhile Char.isDigit with
      | 'm' :: rest =>
          if digits = [] then none else some (escape :: '[' :: digits ++ ['m'], rest)
      | _ => none
  | _ => none

theorem isCode_of_splitCode? {t code rest : List Char} (h : splitCode? t = some (code, rest)) :
    IsCode code ∧ t = code ++ rest := by
  unfold splitCode? at h
  split at h
  · rename_i t
    dsimp only at h
    split at h
    · rename_i later hlater
      split at h
      · simp at h
      · rename_i hdigits
        obtain ⟨rfl, rfl⟩ := Prod.mk.inj (Option.some.inj h)
        refine ⟨⟨_, hdigits, fun d hd => List.mem_takeWhile_imp hd, rfl⟩, ?_⟩
        have ht := List.takeWhile_append_dropWhile (p := Char.isDigit) (l := t)
        rw [hlater] at ht
        simp [escape, ht]
    · simp at h
  · simp at h

theorem splitCode?_append {code : List Char} (h : IsCode code) (rest : List Char) :
    splitCode? (code ++ rest) = some (code, rest) := by
  obtain ⟨digits, hne, hdigit, rfl⟩ := h
  have htake : (digits ++ 'm' :: rest).takeWhile Char.isDigit = digits := by
    rw [List.takeWhile_append_of_pos hdigit, List.takeWhile_cons_of_neg (by decide), List.append_nil]
  have hdrop : (digits ++ 'm' :: rest).dropWhile Char.isDigit = 'm' :: rest := by
    rw [List.dropWhile_append_of_pos hdigit, List.dropWhile_cons_of_neg (by decide)]
  simp [splitCode?, escape, htake, hdrop, hne]

/-- The code at the start of a text is found, and nothing else is taken for one. -/
theorem splitCode?_eq_some_iff {t code rest : List Char} :
    splitCode? t = some (code, rest) ↔ IsCode code ∧ t = code ++ rest := by
  constructor
  · exact isCode_of_splitCode?
  · rintro ⟨hcode, rfl⟩
    exact splitCode?_append hcode rest

theorem IsCode.length_pos {code : List Char} (h : IsCode code) : 0 < code.length := by
  obtain ⟨digits, -, -, rfl⟩ := h
  simp

/-! ## What a terminal reads -/

/-- What a terminal reads in a text. -/
inductive Glyph where
  /-- a character that is shown -/
  | shown (c : Char)
  /-- a code that is obeyed -/
  | code (text : List Char)
  deriving DecidableEq, Repr

namespace Glyph

/-- The character that a glyph shows. -/
def shown? : Glyph → Option Char
  | shown c => some c
  | code _ => none

/-- The code that a glyph is. -/
def code? : Glyph → Option (List Char)
  | shown _ => none
  | code text => some text

end Glyph

/-- A text as it is read from its start: codes, and characters that are not part of a code. -/
def glyphs : List Char → List Glyph
  | [] => []
  | c :: cs =>
      match _hsplit : splitCode? (c :: cs) with
      | some (code, rest) => .code code :: glyphs rest
      | none => .shown c :: glyphs cs
termination_by t => t.length
decreasing_by
  · obtain ⟨hcode, ht⟩ := splitCode?_eq_some_iff.1 _hsplit
    have hpos := hcode.length_pos
    rw [ht, List.length_append]
    omega
  · simp

/-- A text without its codes. -/
def deleteCodes (t : List Char) : List Char := (glyphs t).filterMap Glyph.shown?

/-- The codes of a text, one after the other. -/
def codes (t : List Char) : List (List Char) := (glyphs t).filterMap Glyph.code?

@[simp] theorem glyphs_nil : glyphs [] = [] := by
  rw [glyphs]

theorem glyphs_append_of_isCode {code : List Char} (h : IsCode code) (t : List Char) :
    glyphs (code ++ t) = .code code :: glyphs t := by
  obtain ⟨c, cs, hcs⟩ := List.exists_cons_of_length_pos h.length_pos
  have hsplit := splitCode?_append h t
  rw [hcs, List.cons_append] at hsplit ⊢
  rw [glyphs, hsplit]

theorem glyphs_cons_of_ne {c : Char} (h : c ≠ escape) (t : List Char) :
    glyphs (c :: t) = .shown c :: glyphs t := by
  have hnone : splitCode? (c :: t) = none := by
    rw [Option.eq_none_iff_forall_ne_some]
    rintro ⟨code, rest⟩ hsplit
    obtain ⟨⟨digits, -, -, rfl⟩, ht⟩ := splitCode?_eq_some_iff.1 hsplit
    exact h (List.cons.inj ht).1
  rw [glyphs, hnone]

/-- Without an escape character all is shown. -/
theorem glyphs_append_of_notMem {a : List Char} (h : escape ∉ a) (t : List Char) :
    glyphs (a ++ t) = a.map .shown ++ glyphs t := by
  induction a with
  | nil => rfl
  | cons c a ih =>
      have hc : c ≠ escape := fun he => h (he ▸ List.mem_cons_self)
      rw [List.cons_append, glyphs_cons_of_ne hc, ih fun ha => h (List.mem_cons_of_mem c ha)]
      rfl

/-! ## Codes and what is shown -/

@[simp] theorem deleteCodes_nil : deleteCodes [] = [] := by
  rw [deleteCodes, glyphs_nil, List.filterMap_nil]

@[simp] theorem codes_nil : codes [] = [] := by
  rw [codes, glyphs_nil, List.filterMap_nil]

theorem deleteCodes_append_of_isCode {code : List Char} (h : IsCode code) (t : List Char) :
    deleteCodes (code ++ t) = deleteCodes t := by
  rw [deleteCodes, glyphs_append_of_isCode h]
  rfl

theorem codes_append_of_isCode {code : List Char} (h : IsCode code) (t : List Char) :
    codes (code ++ t) = code :: codes t := by
  rw [codes, glyphs_append_of_isCode h]
  rfl

theorem deleteCodes_append_of_notMem {a : List Char} (h : escape ∉ a) (t : List Char) :
    deleteCodes (a ++ t) = a ++ deleteCodes t := by
  have hshown : (a.map Glyph.shown).filterMap Glyph.shown? = a := by
    rw [List.filterMap_map]
    exact List.filterMap_some
  rw [deleteCodes, glyphs_append_of_notMem h, List.filterMap_append, hshown]
  rfl

theorem codes_append_of_notMem {a : List Char} (h : escape ∉ a) (t : List Char) :
    codes (a ++ t) = codes t := by
  have hnone : (a.map Glyph.shown).filterMap Glyph.code? = [] := by
    rw [List.filterMap_map, List.filterMap_eq_nil_iff]
    exact fun _ _ => rfl
  rw [codes, glyphs_append_of_notMem h, List.filterMap_append, hnone]
  rfl

end Mnemonic.Text
