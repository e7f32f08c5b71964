set_option autoImplicit false

/-!
# Maps from names

Registers, labels and instruction tables are finite maps from names. A map is kept as its entries
in strictly increasing order of names, so a map has one representation and its entries come out
sorted. The order of names is the order of their code points, which is that of their UTF-8 bytes.

Main statements: what `get?` answers after `set` and `erase` (`get?_set`, `get?_erase`), and two maps
with the same answers are the same map (`NameMap.ext`).
-/

namespace Mnemonic

/-- A finite map from names, as entries with strictly increasing names. -/
structure NameMap (α : Type) where
  entries : List (String × α)
  sorted : entries.Pairwise fun a b => a.1 < b.1

namespace NameMap

variable {α : Type}

/-- The map without entries. -/
def empty : NameMap α := ⟨[], .nil⟩

instance : Inhabited (NameMap α) := ⟨empty⟩

/-- Puts an entry at its place in a sorted list, in the stead of one with the same name. -/
def insertEntry (name : String) (value : α) : List (String × α) → List (String × α)
  | [] => [(name, value)]
  | e :: es =>
      if name < e.1 then (name, value) :: e :: es
      else if name = e.1 then (name, value) :: es
      else e :: insertEntry name value es

/-- The value of the first entry with the name. -/
def lookup? (name : String) : List (String × α) → Option α
  | [] => none
  | e :: es => if e.1 = name then some e.2 else lookup? name es

theorem mem_insertEntry {name : String} {value : α} {es : List (String × α)} {e : String × α}
    (h : e ∈ insertEntry name value es) : e = (name, value) ∨ e ∈ es := by
  induction es with
  | nil => simpa [insertEntry] using h
  | cons d es ih => grind [insertEntry]

theorem pairwise_insertEntry (name : String) (value : α) {es : List (String × α)}
    (h : es.Pairwise fun a b => a.1 < b.1) :
    (insertEntry name value es).Pairwise fun a b => a.1 < b.1 := by
  induction es with
  | nil => simp [insertEntry]
  | cons d es ih =>
      obtain ⟨hd, hes⟩ := List.pairwise_cons.1 h
      unfold insertEntry
      split
      · rename_i hlt
        refine List.pairwise_cons.2 ⟨?_, h⟩
        intro e he
        rcases List.mem_cons.1 he with rfl | he
        · exact hlt
        · exact String.lt_trans hlt (hd e he)
      · split
        · rename_i heq
          exact List.pairwise_cons.2 ⟨fun e he => heq ▸ hd e he, hes⟩
        · rename_i hnlt hne
          refine List.pairwise_cons.2 ⟨?_, ih hes⟩
          intro e he
          rcases mem_insertEntry he with rfl | he
          · exact String.not_le.1 fun hle => hne (String.le_antisymm hle (String.not_lt.1 hnlt))
          · exact hd e he

/-- The value of a name, if the map has one. -/
def get? (m : NameMap α) (name : String) : Option α := lookup? name m.entries

/-- The map has a value for the name. -/
def contains (m : NameMap α) (name : String) : Bool := (m.get? name).isSome

/-- The map with a value for the name, in the stead of an earlier one. -/
def set (m : NameMap α) (name : String) (value : α) : NameMap α :=
  ⟨insertEntry name value m.entries, pairwise_insertEntry name value m.sorted⟩

/-- The map without the name. -/
def erase (m : NameMap α) (name : String) : NameMap α :=
  ⟨m.entries.filter fun e => e.1 ≠ name, m.sorted.filter _⟩

/-- The map with a value for the name, unless it has one already. -/
def setIfAbsent (m : NameMap α) (name : String) (value : α) : NameMap α :=
  if m.contains name then m else m.set name value

/-- The map of a list of definitions; a later definition of a name replaces an earlier one. -/
def ofList (definitions : List (String × α)) : NameMap α :=
  definitions.foldl (fun m d => m.set d.1 d.2) empty

/-! ## What a map answers -/

@[simp] theorem get?_empty (name : String) : (empty : NameMap α).get? name = none := rfl

theorem lookup?_insertEntry (name other : String) (value : α) (es : List (String × α)) :
    lookup? other (insertEntry name value es) =
      if name = other then some value else lookup? other es := by
  induction es with
  | nil => simp [insertEntry, lookup?]
  | cons d es ih => grind [insertEntry, lookup?]

@[simp] theorem get?_set (m : NameMap α) (name other : String) (value : α) :
    (m.set name value).get? other = if name = other then some value else m.get? other :=
  lookup?_insertEntry name other value m.entries

theorem lookup?_filter_ne (name other : String) (es : List (String × α)) :
    lookup? other (es.filter fun e => e.1 ≠ name) =
      if name = other then none else lookup? other es := by
  induction es with
  | nil => simp [lookup?]
  | cons d es ih => grind [lookup?]

@[simp] theorem get?_erase (m : NameMap α) (name other : String) :
    (m.erase name).get? other = if name = other then none else m.get? other :=
  lookup?_filter_ne name other m.entries

theorem get?_setIfAbsent (m : NameMap α) (name other : String) (value : α) :
    (m.setIfAbsent name value).get? other =
      if name = other then some ((m.get? name).getD value) else m.get? other := by
  unfold setIfAbsent contains
  cases h : m.get? name with
  | none => simp
  | some v =>
      by_cases hn : name = other
      · subst hn; simp [h]
      · simp [hn]

/-! ## Equality of maps -/

theorem lookup?_eq_none_of_lt {name : String} {es : List (String × α)}
    (h : ∀ e ∈ es, name < e.1) : lookup? name es = none := by
  induction es with
  | nil => rfl
  | cons d es ih =>
      have hd : d.1 ≠ name := fun heq => String.lt_irrefl name (heq ▸ h d (List.mem_cons_self))
      simp [lookup?, hd, ih fun e he => h e (List.mem_cons_of_mem _ he)]

theorem entries_eq_of_lookup? {es ds : List (String × α)}
    (hes : es.Pairwise fun a b => a.1 < b.1) (hds : ds.Pairwise fun a b => a.1 < b.1)
    (h : ∀ name, lookup? name es = lookup? name ds) : es = ds := by
  induction es generalizing ds with
  | nil =>
      cases ds with
      | nil => rfl
      | cons d ds => simpa [lookup?] using h d.1
  | cons e es ih =>
      cases ds with
      | nil => simpa [lookup?] using h e.1
      | cons d ds =>
          obtain ⟨he, hes⟩ := List.pairwise_cons.1 hes
          obtain ⟨hd, hds⟩ := List.pairwise_cons.1 hds
          have hname : e.1 = d.1 := by
            refine String.le_antisymm (String.not_lt.1 fun hlt => ?_) (String.not_lt.1 fun hlt => ?_)
            · have hnone : lookup? d.1 (e :: es) = none := by
                refine lookup?_eq_none_of_lt fun x hx => ?_
                rcases List.mem_cons.1 hx with rfl | hx
                · exact hlt
                · exact String.lt_trans hlt (he x hx)
              rw [h] at hnone
              simp [lookup?] at hnone
            · have hnone : lookup? e.1 (d :: ds) = none := by
                refine lookup?_eq_none_of_lt fun x hx => ?_
                rcases List.mem_cons.1 hx with rfl | hx
                · exact hlt
                · exact String.lt_trans hlt (hd x hx)
              rw [← h] at hnone
              simp [lookup?] at hnone
          have hvalue : e.2 = d.2 := by simpa [lookup?, hname] using h e.1
          have hrest : es = ds := by
            refine ih hes hds fun name => ?_
            by_cases hn : e.1 = name
            · subst hn
              rw [lookup?_eq_none_of_lt he, lookup?_eq_none_of_lt (hname ▸ hd)]
            · have hn' : d.1 ≠ name := hname ▸ hn
              simpa [lookup?, hn, hn'] using h name
          rw [hrest, Prod.ext hname hvalue]

@[ext] theorem ext {m n : NameMap α} (h : ∀ name, m.get? name = n.get? name) : m = n := by
  cases m with
  | mk es hes =>
      cases n with
      | mk ds hds => simpa using entries_eq_of_lookup? hes hds h

end NameMap

end Mnemonic
