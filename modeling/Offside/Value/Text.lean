import Offside.Value

/-!
The text of values, as a program prints them. A list inside itself shows as `[...]`.
-/

set_option autoImplicit false
set_option relaxedAutoImplicit false

namespace Offside.Heap

/-- The text of a value inside the lists that are open, with at most `depth` more of them to be
opened. -/
def textWithin (h : Heap) : Nat → List Nat → Value → String
  | _, _, .number n => n.text
  | _, _, .boolean true => "True"
  | _, _, .boolean false => "False"
  | _, _, .object cell => "<" ++ h.className cell ++ " object>"
  | _, _, .none => "None"
  | 0, _, .list _ => "[...]"
  | depth + 1, opened, .list cell =>
    if opened.contains cell then "[...]"
    else
      "[" ++ ", ".intercalate
        ((h.elements cell).toList.map (h.textWithin depth (cell :: opened))) ++ "]"

/-- The text of a value. A list is opened at most once on the way to an element, so no more lists
are open at a time than there are, and one more level serves to find the innermost one open. -/
def text (h : Heap) (v : Value) : String :=
  h.textWithin (h.lists.size + 1) [] v

end Offside.Heap
