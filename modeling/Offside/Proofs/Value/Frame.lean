import Mathlib
import Offside.Proofs.Except
import Offside.Proofs.Value.Errors

/-!
Operations on values change only what they name. An operation that fails leaves the heap as it is.
One that succeeds leaves all lists and instances but its target alone, and of its target it replaces
one element, adds one element at the end, or binds one attribute; the sum of two lists is a cell
that was not there before (`perform_changes_target`). Values that refer to a list or an instance are
the same cell, so what is said of a cell is seen through each of them.
-/

set_option autoImplicit false
set_option relaxedAutoImplicit false

namespace Offside.Heap

/-- An operation on values, with its operands. -/
inductive Operation
  | arith (op : ArithOp) (a b : Value)
  | compare (op : CompareOp) (a b : Value)
  | length (list : Value)
  | loadIndex (list index : Value)
  | storeIndex (list index value : Value)
  | getAttribute (object : Value) (name : String)
  | setAttribute (object : Value) (name : String) (value : Value)
  | callListMethod (list : Value) (name : String) (args : List Value)

/-- The list or the instance that an operation may change. -/
def Operation.target : Operation → Option Value
  | .storeIndex list _ _ => some list
  | .setAttribute object _ _ => some object
  | .callListMethod list _ _ => some list
  | _ => none

/-- Performs an operation. Where there is nothing to give back, the result is none. -/
def perform (h : Heap) : Operation → Effect Value
  | .arith op a b => h.arith op a b
  | .compare op a b => ((h.compare op a b).map .boolean, h)
  | .length list => ((h.length list).map .ofNat, h)
  | .loadIndex list index => (h.loadIndex list index, h)
  | .storeIndex list index value =>
    (h.storeIndex list index value).map (Except.map fun _ ↦ .none) id
  | .getAttribute object name => (h.getAttribute object name, h)
  | .setAttribute object name value =>
    (h.setAttribute object name value).map (Except.map fun _ ↦ .none) id
  | .callListMethod list name args => h.callListMethod list name args

/-- What an operation that succeeds makes of a heap. -/
structure Changes (h : Heap) (o : Operation) (h' : Heap) : Prop where
  /-- No list is gone, and all but the target have the same elements. -/
  lists : h.lists.size ≤ h'.lists.size ∧ ∀ cell < h.lists.size,
    o.target ≠ some (.list cell) → h'.elements cell = h.elements cell
  /-- All instances but the target are the same. -/
  instances : ∀ cell < h.objects.size,
    o.target ≠ some (.object cell) → h'.instance? cell = h.instance? cell
  /-- A store replaces the element at one place of its list. -/
  stores : ∀ cell index value, o = .storeIndex (.list cell) index value →
    ∃ position, h.placeOf index (h.elements cell).size = .ok position ∧
      ∃ hposition : position < (h.elements cell).size,
        h'.elements cell = (h.elements cell).set position value hposition
  /-- The method adds its one argument at the end of its list. -/
  appends : ∀ cell < h.lists.size, ∀ name args, o = .callListMethod (.list cell) name args →
    name = ListMethod.append.name ∧
      ∃ value, args = [value] ∧ h'.elements cell = (h.elements cell).push value
  /-- Setting an attribute binds its name. The class and the other attributes are the same. -/
  binds : ∀ cell name value i, o = .setAttribute (.object cell) name value →
    h.instance? cell = some i →
      ∃ attributes, h'.instance? cell = some { i with attributes := attributes } ∧
        ∀ other, attributes.get? other =
          if name = other then some value else i.attributes.get? other

/-! ### One operation after the other -/

section

variable {h h' : Heap} {o : Operation} {result : Value} {e : RuntimeError}

theorem changes_refl (ho : o.target = none) : h.Changes o h where
  lists := ⟨le_rfl, fun _ _ _ ↦ rfl⟩
  instances _ _ _ := rfl
  stores := by
    rintro cell index value rfl
    cases ho
  appends := by
    rintro cell - name args rfl
    cases ho
  binds := by
    rintro cell name value i rfl
    cases ho

/-- A new list leaves what is there alone. -/
theorem changes_newList (ho : o.target = none) (values : Array Value) :
    h.Changes o (h.newList values).2 where
  lists := by
    refine ⟨?_, fun cell hcell _ ↦ ?_⟩
    · show h.lists.size ≤ (h.lists.push values).size
      rw [Array.size_push]
      exact Nat.le_succ _
    · rw [elements_newList, if_neg (Nat.ne_of_lt hcell)]
  instances _ _ _ := rfl
  stores := by
    rintro cell index value rfl
    cases ho
  appends := by
    rintro cell - name args rfl
    cases ho
  binds := by
    rintro cell name value i rfl
    cases ho

theorem arith_changes {op : ArithOp} {a b : Value} (hresult : h.arith op a b = (.ok result, h')) :
    h.Changes (.arith op a b) h' := by
  unfold arith at hresult
  split at hresult
  · split at hresult <;> cases hresult
    exact changes_refl rfl
  · split at hresult <;> cases hresult
    exact changes_newList rfl _

theorem listCell_eq_ok {operation : String} {v : Value} {cell : Nat}
    (hcell : h.listCell operation v = .ok cell) : v = .list cell := by
  cases v <;> cases hcell
  rfl

/-- The place of an index is a place of the list. -/
theorem lt_of_place {i : Int} {n position : Nat} (hplace : place i n = .ok position) :
    position < n := by
  unfold place at hplace
  dsimp only at hplace
  split_ifs at hplace with hneg hrange hrange <;> cases hplace <;> omega

theorem lt_of_placeOf {index : Value} {n position : Nat}
    (hplace : h.placeOf index n = .ok position) : position < n := by
  unfold placeOf at hplace
  split at hplace
  · exact lt_of_place hplace
  · exact lt_of_place hplace
  · cases hplace

theorem elementPlace_eq_ok {operation : String} {list index : Value} {cell position : Nat} :
    h.elementPlace operation list index = .ok (cell, position) ↔
      list = .list cell ∧ h.placeOf index (h.elements cell).size = .ok position := by
  unfold elementPlace
  constructor
  · intro hplace
    obtain ⟨found, hfound, hplace⟩ := bind_eq_ok.mp hplace
    obtain ⟨place, hposition, hplace⟩ := bind_eq_ok.mp hplace
    cases hplace
    exact ⟨listCell_eq_ok hfound, hposition⟩
  · rintro ⟨rfl, hposition⟩
    exact bind_eq_ok.mpr ⟨cell, rfl, bind_eq_ok.mpr ⟨position, hposition, rfl⟩⟩

theorem size_setElement (h : Heap) (cell position : Nat) (value : Value) :
    (h.setElement cell position value).lists.size = h.lists.size :=
  Array.size_modify

theorem storeIndex_eq_ok {list index value : Value} : h.storeIndex list index value = (.ok (), h') ↔
    ∃ cell position, list = .list cell ∧ h.placeOf index (h.elements cell).size = .ok position ∧
      h' = h.setElement cell position value := by
  unfold storeIndex
  constructor
  · intro hstore
    split at hstore <;> cases hstore
    next cell position hplace =>
    obtain ⟨rfl, hposition⟩ := elementPlace_eq_ok.mp hplace
    exact ⟨cell, position, rfl, hposition, rfl⟩
  · rintro ⟨cell, position, rfl, hposition, rfl⟩
    rw [elementPlace_eq_ok.mpr ⟨rfl, hposition⟩]

theorem storeIndex_changes {list index value : Value}
    (hresult : h.storeIndex list index value = (.ok (), h')) :
    h.Changes (.storeIndex list index value) h' := by
  obtain ⟨cell, position, rfl, hposition, rfl⟩ := storeIndex_eq_ok.mp hresult
  refine ⟨⟨(size_setElement h cell position value).ge, fun other _ hother ↦ ?_⟩,
    fun _ _ _ ↦ rfl, ?_, nofun, nofun⟩
  · have hne : cell ≠ other := fun heq ↦ hother (by rw [heq, Operation.target])
    rw [elements_setElement, if_neg hne]
  · intro cell index value heq
    cases heq
    have hlt := lt_of_placeOf hposition
    refine ⟨position, hposition, hlt, ?_⟩
    rw [elements_setElement, if_pos rfl, Array.setIfInBounds, dif_pos hlt]

theorem setAttribute_changes {object value : Value} {name : String}
    (hresult : h.setAttribute object name value = (.ok (), h')) :
    h.Changes (.setAttribute object name value) h' := by
  cases object <;> cases hresult
  next cell =>
  refine ⟨⟨le_rfl, fun _ _ _ ↦ rfl⟩, fun other _ hother ↦ ?_, nofun, nofun, ?_⟩
  · have hne : cell ≠ other := fun heq ↦ hother (by rw [heq, Operation.target])
    rw [instance?_bindAttribute, if_neg hne]
  · intro cell name value i heq hi
    cases heq
    refine ⟨i.attributes.set name value, ?_, fun other ↦ i.attributes.get?_set name other value⟩
    rw [instance?_bindAttribute, if_pos rfl, hi]
    rfl

theorem elements_append_of_ne (h : Heap) {cell other : Nat} (hne : cell ≠ other) (value : Value) :
    (h.append cell value).elements other = h.elements other := by
  simp only [append, elements, Array.getElem?_modify, hne, if_false]

theorem name_of_ofName? {name : String} {m : ListMethod}
    (hname : ListMethod.ofName? name = some m) : m.name = name := by
  simpa using List.find?_some hname

theorem callListMethod_changes {list : Value} {name : String} {args : List Value}
    (hresult : h.callListMethod list name args = (.ok result, h')) :
    h.Changes (.callListMethod list name args) h' := by
  unfold callListMethod at hresult
  split at hresult
  · cases hresult
  · next cell hcell =>
    obtain rfl := listCell_eq_ok hcell
    split at hresult
    · cases hresult
    · next hname =>
      split at hresult <;> cases hresult
      next value =>
      refine ⟨⟨?_, fun other hother hne ↦ ?_⟩, fun _ _ _ ↦ rfl, nofun, ?_, nofun⟩
      · exact Array.size_modify.ge
      · have hcell : cell ≠ other := fun heq ↦ hne (by rw [heq, Operation.target])
        exact elements_append_of_ne h hcell value
      · intro cell hcell name args heq
        cases heq
        refine ⟨(name_of_ofName? hname).symm, value, rfl, ?_⟩
        rw [elements_append hcell, if_pos rfl]

/-! ### All operations -/

theorem map_eq_error {α β : Type} {r : Except RuntimeError α} {f : α → β}
    (herror : r.map f = .error e) : r = .error e := by
  cases r <;> cases herror
  rfl

theorem perform_unchanged (herror : h.perform o = (.error e, h')) : h' = h := by
  cases o with
  | arith op a b => exact arith_unchanged herror
  | storeIndex list index value =>
    cases hstore : h.storeIndex list index value with
    | mk r after =>
      rw [perform, hstore] at herror
      obtain ⟨hr, rfl⟩ := Prod.mk.inj herror
      rw [map_eq_error hr] at hstore
      exact storeIndex_unchanged hstore
  | setAttribute object name value =>
    cases hset : h.setAttribute object name value with
    | mk r after =>
      rw [perform, hset] at herror
      obtain ⟨hr, rfl⟩ := Prod.mk.inj herror
      rw [map_eq_error hr] at hset
      exact setAttribute_unchanged hset
  | callListMethod list name args => exact callListMethod_unchanged herror
  | _ => exact (Prod.mk.inj herror).2.symm

theorem perform_changes (hresult : h.perform o = (.ok result, h')) : h.Changes o h' := by
  cases o with
  | arith op a b => exact arith_changes hresult
  | storeIndex list index value =>
    cases hstore : h.storeIndex list index value with
    | mk r after =>
      rw [perform, hstore] at hresult
      obtain ⟨hr, rfl⟩ := Prod.mk.inj hresult
      cases r <;> cases hr
      exact storeIndex_changes hstore
  | setAttribute object name value =>
    cases hset : h.setAttribute object name value with
    | mk r after =>
      rw [perform, hset] at hresult
      obtain ⟨hr, rfl⟩ := Prod.mk.inj hresult
      cases r <;> cases hr
      exact setAttribute_changes hset
  | callListMethod list name args => exact callListMethod_changes hresult
  | _ =>
    obtain ⟨-, rfl⟩ := Prod.mk.inj hresult
    exact changes_refl rfl

/-- The sum of two lists is a list that was not there, with the elements of the one and then those
of the other. -/
theorem perform_sum (h : Heap) (i j : Nat) :
    ∃ cell h', h.perform (.arith .add (.list i) (.list j)) = (.ok (.list cell), h') ∧
      h.lists.size ≤ cell ∧ cell < h'.lists.size ∧
        h'.elements cell = h.elements i ++ h.elements j := by
  refine ⟨_, _, rfl, le_rfl, ?_, ?_⟩
  · exact (Array.size_push _).symm ▸ Nat.lt_succ_self _
  · exact (elements_newList h _ _).trans (if_pos rfl)

/-! ### Indices -/

/-- The place that an integer names in a list of `n` elements: itself, or counted from the end. -/
def indexed (n : Nat) (i : Int) : Nat :=
  (if i < 0 then n + i else i).toNat

/-- What an index does on the list in a cell. -/
structure Indexes (h : Heap) (cell : Nat) (i : Int64) (n : Nat) : Prop where
  /-- An element is found exactly where the index is from minus the length up to the length. -/
  load : ∀ v, h.loadIndex (.list cell) (.number (.int i)) = .ok v ↔
    -n ≤ i.toInt ∧ i.toInt < n ∧ (h.elements cell)[indexed n i.toInt]? = some v
  /-- An element is replaced exactly there as well, and it is the one that would be found. -/
  store : ∀ value,
    ((∃ h', h.storeIndex (.list cell) (.number (.int i)) value = (.ok (), h')) ↔
      -n ≤ i.toInt ∧ i.toInt < n) ∧
    ∀ h', h.storeIndex (.list cell) (.number (.int i)) value = (.ok (), h') →
      h'.elements cell = (h.elements cell).setIfInBounds (indexed n i.toInt) value
  /-- The sum of a negative index and a length that fits into 64 bits is exact. -/
  sum : i < 0 → n < 2 ^ 63 → (i + .ofNat n).toInt = i.toInt + n

theorem place_eq_ok {i : Int} {n position : Nat} :
    place i n = .ok position ↔ -n ≤ i ∧ i < n ∧ indexed n i = position := by
  unfold place indexed
  dsimp only
  rw [Int.add_comm]
  generalize hp : (if i < 0 then (n : Int) + i else i) = p
  have hrange : 0 ≤ p ∧ p < n ↔ -n ≤ i ∧ i < n := by
    split_ifs at hp <;> omega
  rw [← and_assoc, ← hrange]
  split_ifs with hin
  · rw [Except.ok.injEq, and_iff_right hin]
  · exact ⟨nofun, fun h ↦ absurd h.1 hin⟩

theorem loadIndex_eq_ok {list index v : Value} : h.loadIndex list index = .ok v ↔
    ∃ cell position, list = .list cell ∧ h.placeOf index (h.elements cell).size = .ok position ∧
      (h.elements cell)[position]? = some v := by
  unfold loadIndex
  constructor
  · intro hload
    obtain ⟨⟨cell, position⟩, hplace, rfl⟩ := map_eq_ok.mp hload
    obtain ⟨rfl, hposition⟩ := elementPlace_eq_ok.mp hplace
    have hlt := lt_of_placeOf hposition
    exact ⟨cell, position, rfl, hposition, by simp [hlt]⟩
  · rintro ⟨cell, position, rfl, hposition, hv⟩
    exact map_eq_ok.mpr ⟨(cell, position), elementPlace_eq_ok.mpr ⟨rfl, hposition⟩, by simp [hv]⟩

theorem indexes (h : Heap) (cell : Nat) (i : Int64) :
    h.Indexes cell i (h.elements cell).size where
  load v := by
    rw [loadIndex_eq_ok]
    constructor
    · rintro ⟨_, position, ⟨⟩, hplace, hv⟩
      obtain ⟨hlow, hhigh, rfl⟩ := place_eq_ok.mp hplace
      exact ⟨hlow, hhigh, hv⟩
    · rintro ⟨hlow, hhigh, hv⟩
      exact ⟨cell, _, rfl, place_eq_ok.mpr ⟨hlow, hhigh, rfl⟩, hv⟩
  store value := by
    refine ⟨⟨?_, ?_⟩, ?_⟩
    · rintro ⟨h', hstore⟩
      obtain ⟨_, position, ⟨⟩, hplace, -⟩ := storeIndex_eq_ok.mp hstore
      obtain ⟨hlow, hhigh, -⟩ := place_eq_ok.mp hplace
      exact ⟨hlow, hhigh⟩
    · rintro ⟨hlow, hhigh⟩
      exact ⟨_, storeIndex_eq_ok.mpr ⟨cell, _, rfl, place_eq_ok.mpr ⟨hlow, hhigh, rfl⟩, rfl⟩⟩
    · intro h' hstore
      obtain ⟨_, position, ⟨⟩, hplace, rfl⟩ := storeIndex_eq_ok.mp hstore
      obtain ⟨-, -, rfl⟩ := place_eq_ok.mp hplace
      rw [elements_setElement, if_pos rfl]
  sum hneg hn := by
    have hi : i.toInt < 0 := Int64.lt_iff_toInt_lt.mp hneg
    have hlow := i.le_toInt
    rw [Int64.toInt_add, Int64.toInt_ofNat_of_lt hn, Int.bmod_eq_of_le (by omega) (by omega)]

end

/-- Whatever refers to what in a heap: an operation that fails leaves the heap as it is, and one
that succeeds changes its target only, in the one way it is for. Two lists always have a sum, which
is a new cell. An index finds and replaces the element it counts to from the front or, if it is
negative, from the end, and fails where there is none. -/
theorem perform_changes_target (h : Heap) :
    (∀ o error h', h.perform o = (.error error, h') → h' = h) ∧
      (∀ o result h', h.perform o = (.ok result, h') → h.Changes o h') ∧
      (∀ i j, ∃ cell h', h.perform (.arith .add (.list i) (.list j)) = (.ok (.list cell), h') ∧
        h.lists.size ≤ cell ∧ cell < h'.lists.size ∧
          h'.elements cell = h.elements i ++ h.elements j) ∧
      ∀ cell i, h.Indexes cell i (h.elements cell).size :=
  ⟨fun _ _ _ ↦ perform_unchanged, fun _ _ _ ↦ perform_changes, h.perform_sum, h.indexes⟩

/-- A list that holds itself is stored into itself, from its end, and nothing happens to it in a
call with too few arguments. -/
theorem perform_changes_target_cycle :
    let h : Heap := ⟨#[#[.list 0, .none], #[.list 0]], #[]⟩
    let store : Operation := .storeIndex (.list 0) (.number (.int (-1))) (.list 0)
    let call : Operation := .callListMethod (.list 0) "append" []
    (∃ h', h.perform store = (.ok .none, h') ∧ h.Changes store h' ∧
      h'.elements 0 = #[.list 0, .list 0] ∧ h'.elements 1 = #[.list 0]) ∧
      ∃ h', h.perform call = (.error (.arityMismatch "append" 1 0), h') ∧ h' = h := by
  intro h store call
  refine ⟨⟨_, rfl, ?_, rfl, rfl⟩, ⟨_, rfl, ?_⟩⟩
  · exact (perform_changes_target h).2.1 store .none _ rfl
  · exact (perform_changes_target h).1 call (.arityMismatch "append" 1 0) _ rfl

end Offside.Heap
