/-!
Bindings of names to values. Each name is bound at most once, and the only view of bindings is
`get?`: `get?_set` says what binding a name does to it.
-/

set_option autoImplicit false
set_option relaxedAutoImplicit false

namespace Offside

/-- Finitely many names, each bound to a value. -/
structure Bindings (α : Type) where
  entries : List (String × α)

namespace Bindings

variable {α : Type}

def empty : Bindings α := ⟨[]⟩

/-- What a name is bound to in a list of entries, the first entry of a name counting. -/
def find (name : String) : List (String × α) → Option α
  | [] => none
  | (key, value) :: rest => if key = name then some value else find name rest

/-- What a name is bound to. -/
def get? (b : Bindings α) (name : String) : Option α :=
  find name b.entries

/-- Replaces the entry of a name, or adds one at the end. -/
def replace (name : String) (value : α) : List (String × α) → List (String × α)
  | [] => [(name, value)]
  | (key, old) :: rest =>
    if key = name then (name, value) :: rest else (key, old) :: replace name value rest

/-- Binds a name, in place of what it was bound to. -/
def set (b : Bindings α) (name : String) (value : α) : Bindings α :=
  ⟨replace name value b.entries⟩

/-- Binds names one after the other, so that of two values for a name the later counts. -/
def setAll (b : Bindings α) (pairs : List (String × α)) : Bindings α :=
  pairs.foldl (fun b (name, value) ↦ b.set name value) b

def ofList (pairs : List (String × α)) : Bindings α :=
  empty.setAll pairs

/-- Whether a name is bound. -/
def has (b : Bindings α) (name : String) : Bool :=
  (b.get? name).isSome

/-- The bindings in the order of their names. -/
def sorted (b : Bindings α) : List (String × α) :=
  b.entries.mergeSort fun x y ↦ x.1 ≤ y.1

@[simp]
theorem get?_empty (name : String) : (empty : Bindings α).get? name = none :=
  rfl

theorem find_replace (name other : String) (value : α) (entries : List (String × α)) :
    find other (replace name value entries) =
      if name = other then some value else find other entries := by
  induction entries with
  | nil => rfl
  | cons entry rest ih =>
    obtain ⟨key, old⟩ := entry
    by_cases hkey : key = name
    · subst hkey
      by_cases hother : key = other <;> simp [replace, find, hother]
    · by_cases hother : key = other
      · subst hother
        have hne : name ≠ key := fun h ↦ hkey h.symm
        simp [replace, find, hkey, hne]
      · simp [replace, find, hkey, hother, ih]

/-- A name has the value it was bound to last, and binding it leaves the other names alone. -/
theorem get?_set (b : Bindings α) (name other : String) (value : α) :
    (b.set name value).get? other = if name = other then some value else b.get? other :=
  find_replace name other value b.entries

@[simp]
theorem get?_set_self (b : Bindings α) (name : String) (value : α) :
    (b.set name value).get? name = some value := by
  rw [get?_set, if_pos rfl]

theorem get?_set_of_ne (b : Bindings α) {name other : String} (h : name ≠ other) (value : α) :
    (b.set name value).get? other = b.get? other := by
  rw [get?_set, if_neg h]

theorem has_set {b : Bindings α} {name other : String} {value : α} :
    (b.set name value).has other = true ↔ name = other ∨ b.has other = true := by
  unfold has
  rw [get?_set]
  split
  · next h => simp [h]
  · next h => simp [h]

end Bindings

end Offside
