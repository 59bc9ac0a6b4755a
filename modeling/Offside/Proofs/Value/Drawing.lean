import Mathlib
import Offside.Value.Text

/-!
How values are printed. A text is that of a drawing, in which a list stands for what is inside it,
or is marked as one that is drawn already around it. A list is marked where it is inside itself and
nowhere else, so marks are there exactly if there is a cycle to be drawn, and lists that are only
shared are drawn as often as they occur (`text_marks_cycles`). Drawing comes to an end because no
list is drawn inside itself, and there are finitely many.
-/

set_option autoImplicit false
set_option relaxedAutoImplicit false

namespace Offside

/-- How a value is drawn: as it is if it is no list, as a list of drawings, or as a mark. -/
inductive Drawing
  | value (v : Value)
  | mark
  | list (items : List Drawing)

instance : Inhabited Drawing := ⟨.mark⟩

namespace Value

/-- A value that is a list. -/
def IsList : Value → Prop
  | .list _ => True
  | _ => False

end Value

mutual

/-- The text of a drawing. -/
def Drawing.text (h : Heap) : Drawing → String
  | .value v => h.text v
  | .mark => "[...]"
  | .list items => "[" ++ ", ".intercalate (Drawing.texts h items) ++ "]"

/-- The texts of drawings, one by one. -/
def Drawing.texts (h : Heap) : List Drawing → List String
  | [] => []
  | d :: ds => Drawing.text h d :: Drawing.texts h ds

end

theorem Drawing.texts_eq_map (h : Heap) (ds : List Drawing) :
    Drawing.texts h ds = ds.map (Drawing.text h) := by
  induction ds with
  | nil => rfl
  | cons d ds ih => rw [Drawing.texts, ih, List.map_cons]

namespace Heap

open Relation

/-! ### Drawings of values -/

/-- A list is an element of another. -/
def Contains (h : Heap) (i j : Nat) : Prop :=
  .list j ∈ h.elements i

/-- Some list that can be reached from a value through elements can be reached from itself. -/
def ReachesCycle (h : Heap) (v : Value) : Prop :=
  ∃ root cell, v = .list root ∧ ReflTransGen h.Contains root cell ∧ TransGen h.Contains cell cell

/-- The drawing of a value to the last element of its lists, with nothing marked. -/
inductive Unfolds (h : Heap) : Value → Drawing → Prop
  | value {v : Value} (hv : ¬v.IsList) : Unfolds h v (.value v)
  | list {cell : Nat} {items : List Drawing} (hlength : items.length = (h.elements cell).size)
    (hitems : ∀ (i : Nat) (w : Value) (d : Drawing), (h.elements cell)[i]? = some w →
      items[i]? = some d → Unfolds h w d) :
    Unfolds h (.list cell) (.list items)

/-- What occurs in a value with the drawing `d`: inside which lists, the innermost first, and how it
is drawn there. -/
inductive Occurs (h : Heap) (v : Value) (d : Drawing) : List Nat → Value → Drawing → Prop
  | whole : Occurs h v d [] v d
  | element {opened : List Nat} {cell i : Nat} {items : List Drawing} {w : Value} {e : Drawing}
    (houter : Occurs h v d opened (.list cell) (.list items)) (hw : (h.elements cell)[i]? = some w)
    (he : items[i]? = some e) : Occurs h v d (cell :: opened) w e

/-- How a value is drawn that occurs inside the lists `opened`: a list is marked if it is one of
them, and otherwise drawn as the list of its elements; any other value is drawn as it is. -/
def ShownAs (h : Heap) (opened : List Nat) : Value → Drawing → Prop
  | .list cell, e => (e = .mark ↔ cell ∈ opened) ∧
    (cell ∉ opened → ∃ items, e = .list items ∧ items.length = (h.elements cell).size)
  | w, e => e = .value w

/-- The drawing of a value inside the lists `opened`. -/
inductive Draws (h : Heap) : List Nat → Value → Drawing → Prop
  | value {opened : List Nat} {v : Value} (hv : ¬v.IsList) : Draws h opened v (.value v)
  | mark {opened : List Nat} {cell : Nat} (hopened : cell ∈ opened) :
    Draws h opened (.list cell) .mark
  | list {opened : List Nat} {cell : Nat} {items : List Drawing} (hnew : cell ∉ opened)
    (hlength : items.length = (h.elements cell).size)
    (hitems : ∀ (i : Nat) (w : Value) (d : Drawing), (h.elements cell)[i]? = some w →
      items[i]? = some d → Draws h (cell :: opened) w d) : Draws h opened (.list cell) (.list items)

section

variable {h : Heap} {v w : Value} {d e : Drawing} {opened : List Nat}

theorem Draws.shownAs (hdraws : h.Draws opened w e) : h.ShownAs opened w e := by
  cases hdraws with
  | value hv =>
    cases w with
    | list cell => exact absurd trivial hv
    | _ => rfl
  | mark hopened => exact ⟨iff_of_true rfl hopened, fun hnew ↦ absurd hopened hnew⟩
  | list hnew hlength hitems => exact ⟨iff_of_false nofun hnew, fun _ ↦ ⟨_, rfl, hlength⟩⟩

/-- What occurs in a drawing is drawn inside the lists that it occurs in. -/
theorem Occurs.draws (hoccurs : h.Occurs v d opened w e) (hdraws : h.Draws [] v d) :
    h.Draws opened w e := by
  induction hoccurs with
  | whole => exact hdraws
  | element houter hw he ih =>
    cases ih with
    | list hnew hlength hitems => exact hitems _ _ _ hw he

/-! ### Drawing comes to an end -/

/-- How many lists of the heap are not among those given. -/
def unopened (h : Heap) (opened : List Nat) : Nat :=
  (Finset.range h.lists.size \ opened.toFinset).card

theorem unopened_cons {cell : Nat} (hcell : cell < h.lists.size) (hnew : cell ∉ opened) :
    h.unopened (cell :: opened) < h.unopened opened := by
  rw [unopened, List.toFinset_cons, Finset.sdiff_insert]
  refine Finset.card_erase_lt_of_mem (Finset.mem_sdiff.mpr ⟨Finset.mem_range.mpr hcell, ?_⟩)
  rwa [List.mem_toFinset]

theorem lt_size_of_mem_elements {cell : Nat} (hw : w ∈ h.elements cell) :
    cell < h.lists.size := by
  by_contra hle
  rw [Heap.elements, Array.getElem?_eq_none (Nat.le_of_not_lt hle)] at hw
  exact Array.not_mem_empty w hw

theorem textWithin_of_not_isList (depth : Nat) (opened : List Nat) (hv : ¬v.IsList) :
    h.textWithin depth opened v = h.text v := by
  cases v with
  | list cell => exact absurd trivial hv
  | boolean b => cases b <;> cases depth <;> rfl
  | _ => cases depth <;> rfl

/-- With enough depth for the lists that are not open yet, a text is that of a drawing. -/
theorem exists_draws {depth : Nat} (hdepth : h.unopened opened < depth) (v : Value) :
    ∃ d, h.Draws opened v d ∧ h.textWithin depth opened v = d.text h := by
  induction depth generalizing opened v with
  | zero => exact absurd hdepth (Nat.not_lt_zero _)
  | succ depth ih =>
    cases v with
    | list cell =>
      by_cases hopened : cell ∈ opened
      · refine ⟨.mark, .mark hopened, ?_⟩
        rw [textWithin, if_pos (List.contains_iff_mem.mpr hopened), Drawing.text]
      · have hinside : ∀ w ∈ h.elements cell, ∃ d, h.Draws (cell :: opened) w d ∧
            h.textWithin depth (cell :: opened) w = d.text h := fun w hw ↦ by
          have hless := unopened_cons (lt_size_of_mem_elements hw) hopened
          exact ih (by omega) w
        choose! draw hdraws htext using hinside
        refine ⟨.list ((h.elements cell).toList.map draw), .list hopened ?_ ?_, ?_⟩
        · rw [List.length_map, Array.length_toList]
        · intro i w d hw hd
          have hmem := Array.mem_of_getElem? hw
          rw [List.getElem?_map, Array.getElem?_toList, hw] at hd
          cases hd
          exact hdraws w hmem
        · have hitems : (h.elements cell).toList.map (h.textWithin depth (cell :: opened)) =
              Drawing.texts h ((h.elements cell).toList.map draw) := by
            rw [Drawing.texts_eq_map, List.map_map]
            exact List.map_congr_left fun w hw ↦ htext w (Array.mem_toList_iff.mp hw)
          have hcontains : ¬opened.contains cell = true :=
            fun h ↦ hopened (List.contains_iff_mem.mp h)
          rw [textWithin, if_neg hcontains, hitems, Drawing.text]
    | _ => exact ⟨_, .value id, textWithin_of_not_isList _ _ id⟩

/-- Every value has a drawing, which its text is that of. -/
theorem exists_drawing (h : Heap) (v : Value) : ∃ d, h.Draws [] v d ∧ h.text v = d.text h := by
  refine exists_draws ?_ v
  rw [unopened, List.toFinset_nil, Finset.sdiff_empty, Finset.card_range]
  exact Nat.lt_succ_self _

/-! ### Marks and cycles -/

/-- What encloses a value that occurs in another: lists that can be reached, and from which a list
that occurs inside them can be reached. -/
structure Encloses (h : Heap) (v : Value) (opened : List Nat) (w : Value) : Prop where
  outer : ∀ cell ∈ opened, ∃ root, v = .list root ∧ ReflTransGen h.Contains root cell
  inner : ∀ cell ∈ opened, ∀ inside, w = .list inside → TransGen h.Contains cell inside
  self : ∀ inside, w = .list inside → ∃ root, v = .list root ∧ ReflTransGen h.Contains root inside

theorem Occurs.encloses (hoccurs : h.Occurs v d opened w e) : h.Encloses v opened w := by
  induction hoccurs with
  | whole => exact ⟨nofun, nofun, fun inside heq ↦ ⟨inside, heq, .refl⟩⟩
  | @element opened cell i items w e houter hw he ih =>
    have hcontains (inside : Nat) (heq : w = .list inside) : h.Contains cell inside := by
      subst heq
      exact Array.mem_of_getElem? hw
    obtain ⟨root, hroot, hreach⟩ := ih.self cell rfl
    refine ⟨?_, ?_, fun inside heq ↦ ⟨root, hroot, hreach.tail (hcontains inside heq)⟩⟩
    · exact List.forall_mem_cons.mpr ⟨⟨root, hroot, hreach⟩, ih.outer⟩
    · exact List.forall_mem_cons.mpr ⟨fun inside heq ↦ .single (hcontains inside heq),
        fun outer houter inside heq ↦ (ih.inner outer houter cell rfl).tail (hcontains inside heq)⟩

/-- A mark stands for a list that can be reached from itself. -/
theorem reachesCycle_of_mark (hdraws : h.Draws [] v d) (hmark : h.Occurs v d opened w .mark) :
    h.ReachesCycle v := by
  have hencloses := hmark.encloses
  cases hmark.draws hdraws with
  | @mark _ cell hopened =>
    obtain ⟨root, hroot, hreach⟩ := hencloses.outer cell hopened
    exact ⟨root, cell, hroot, hreach, hencloses.inner cell hopened cell rfl⟩

/-- A drawing without marks is that of all there is. -/
theorem Draws.unfolds (hnone : ∀ opened w, ¬h.Occurs v d opened w .mark)
    (hdraws : h.Draws opened w e) (hoccurs : h.Occurs v d opened w e) : h.Unfolds w e := by
  induction hdraws with
  | value hv => exact .value hv
  | mark hopened => exact absurd hoccurs (hnone _ _)
  | list hnew hlength hitems ih =>
    exact .list hlength fun i w d hw hd ↦ ih i w d hw hd (hoccurs.element hw hd)

/-- A list that can be drawn to its last element leads down only finitely often. -/
theorem Unfolds.acc {cell : Nat} (hunfolds : h.Unfolds (.list cell) d) :
    Acc (fun j i ↦ h.Contains i j) cell := by
  generalize hv : Value.list cell = v at hunfolds
  induction hunfolds generalizing cell with
  | value hlist => exact absurd (hv ▸ trivial) hlist
  | @list outer items hlength hitems ih =>
    cases hv
    refine ⟨_, fun inside hinside ↦ ?_⟩
    obtain ⟨i, hi, hget⟩ := Array.mem_iff_getElem.mp hinside
    have hdrawn : i < items.length := hlength ▸ hi
    exact ih i (.list inside) items[i] (Array.getElem?_eq_some_iff.mpr ⟨hi, hget⟩)
      (List.getElem?_eq_getElem hdrawn) rfl

/-- What leads down only finitely often does not lead back to itself. -/
theorem not_transGen_of_acc {cell : Nat} (hacc : Acc (fun j i ↦ h.Contains i j) cell) :
    ¬TransGen h.Contains cell cell := by
  replace hacc := hacc.transGen
  induction hacc with
  | intro cell _ ih => exact fun hcycle ↦ ih cell (transGen_swap.mpr hcycle) hcycle

theorem Unfolds.not_reachesCycle (hunfolds : h.Unfolds v d) : ¬h.ReachesCycle v := by
  rintro ⟨root, cell, rfl, hreach, hcycle⟩
  have hacc : Acc (fun j i ↦ h.Contains i j) cell := by
    clear hcycle
    induction hreach with
    | refl => exact hunfolds.acc
    | tail _ hstep ih => exact ih.inv hstep
  exact not_transGen_of_acc hacc hcycle

end

/-- The text of a value is that of a drawing in which every list is marked that is inside itself,
and no other is. Something is marked exactly if a list that can be reached from the value can be
reached from itself, and where there is none the drawing goes down to the last element. -/
theorem text_marks_cycles (h : Heap) (v : Value) :
    ∃ d, h.text v = d.text h ∧ (∀ opened w e, h.Occurs v d opened w e → h.ShownAs opened w e) ∧
      ((∃ opened w, h.Occurs v d opened w .mark) ↔ h.ReachesCycle v) ∧
      (¬h.ReachesCycle v → h.Unfolds v d) := by
  obtain ⟨d, hdraws, htext⟩ := h.exists_drawing v
  have hunfolds (hnone : ¬∃ opened w, h.Occurs v d opened w .mark) : h.Unfolds v d := by
    rw [not_exists] at hnone
    exact hdraws.unfolds (fun opened w hmark ↦ hnone opened ⟨w, hmark⟩) .whole
  have hcycle : (∃ opened w, h.Occurs v d opened w .mark) → h.ReachesCycle v :=
    fun ⟨_, _, hmark⟩ ↦ reachesCycle_of_mark hdraws hmark
  refine ⟨d, htext, fun opened w e hoccurs ↦ (hoccurs.draws hdraws).shownAs, ⟨hcycle, ?_⟩,
    fun hacyclic ↦ hunfolds fun hmark ↦ hacyclic (hcycle hmark)⟩
  intro hreaches
  by_contra hnone
  exact (hunfolds hnone).not_reachesCycle hreaches

/-- A list that another holds twice is drawn twice and not marked, unlike one inside itself. -/
theorem text_marks_cycles_shared :
    let shared : Heap := ⟨#[#[.list 1, .list 1], #[.none]], #[]⟩
    let looped : Heap := ⟨#[#[.none, .list 0]], #[]⟩
    (∃ d, shared.text (.list 0) = d.text shared ∧ shared.Unfolds (.list 0) d) ∧
      shared.text (.list 0) = "[[None], [None]]" ∧
      (∃ d opened w, looped.text (.list 0) = d.text looped ∧
        looped.Occurs (.list 0) d opened w .mark) ∧
      looped.text (.list 0) = "[None, [...]]" := by
  intro shared looped
  have hcontains : ∀ i j, shared.Contains i j → i = 0 ∧ j = 1
    | 0, j, hmem => ⟨rfl, by simpa [Contains, elements, shared] using hmem⟩
    | 1, j, hmem => by simp [Contains, elements, shared] at hmem
    | i + 2, j, hmem => by simp [Contains, elements, shared] at hmem
  have hacyclic : ¬shared.ReachesCycle (.list 0) := by
    rintro ⟨root, cell, hroot, hreach, hcycle⟩
    obtain ⟨next, hnext, -⟩ := TransGen.head'_iff.mp hcycle
    obtain ⟨last, -, hlast⟩ := TransGen.tail'_iff.mp hcycle
    exact Nat.zero_ne_one ((hcontains _ _ hnext).1.symm.trans (hcontains _ _ hlast).2)
  have hcycle : looped.Contains 0 0 := by simp [Contains, elements, looped]
  obtain ⟨d, htext, -, -, hunfolds⟩ := text_marks_cycles shared (.list 0)
  obtain ⟨e, hmarked, -, hmark, -⟩ := text_marks_cycles looped (.list 0)
  obtain ⟨opened, w, hoccurs⟩ := hmark.mpr ⟨0, 0, rfl, .refl, .single hcycle⟩
  exact ⟨⟨d, htext, hunfolds hacyclic⟩, by cbv, ⟨e, opened, w, hmarked, hoccurs⟩, by cbv⟩

end Heap

end Offside
