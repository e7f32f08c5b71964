import Mnemonic.NameMap
import Mnemonic.Program

set_option autoImplicit false

/-!
# Labels and data by name

Looking names up in a program needs its source, since the program holds spans only. A name defined
twice means its first definition. A span that does not fit the source ends the search with a
`Misfit`, when the search comes to it.
-/

namespace Mnemonic.Program

/-- Adds the labels of a list of instructions, numbered from `index`, to those known already. -/
def addLabels (source : List Char) (index : Nat) (known : NameMap Nat) :
    List Instruction → Except Misfit (NameMap Nat)
  | [] => .ok known
  | i :: is =>
      match i.label with
      | none => addLabels source (index + 1) known is
      | some label =>
          match label.slice source with
          | .error e => .error e
          | .ok name =>
              addLabels source (index + 1) (known.setIfAbsent (String.ofList name) index) is

/-- The labels of a program, each with the index of the first instruction that has it. -/
def labels (p : Program) (source : List Char) : Except Misfit (NameMap Nat) :=
  addLabels source 0 .empty p.text

/-- The first entry of a list whose symbol is the given name. -/
def findData (source : List Char) (symbol : String) :
    List Datum → Except Misfit (Option Datum)
  | [] => .ok none
  | e :: es =>
      match e.symbol.slice source with
      | .error misfit => .error misfit
      | .ok name => if String.ofList name = symbol then .ok (some e) else findData source symbol es

/-- The first data entry of a program with the given symbol. -/
def data? (p : Program) (source : List Char) (symbol : String) :
    Except Misfit (Option Datum) :=
  findData source symbol p.data

end Mnemonic.Program
