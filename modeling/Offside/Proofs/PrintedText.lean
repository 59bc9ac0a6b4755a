import Mathlib.Data.List.DropRight
import Mathlib.Data.List.Infix
import Offside.TestCase

/-!
The form in which printed texts are compared. Normalizing goes through a text once: each pair of a
carriage return and a newline becomes a newline, and the blanks at the end go. A text is normal if
it holds no such pair and does not end in a blank, and it is then left as it is. A pair is made anew
where one more carriage return stands in front of a pair, so one pass brings to normal form exactly
the texts in which nothing of this kind is followed by a character that is not blank
(`normalizeOutput_normal_unless_stacked`).
-/

set_option autoImplicit false
set_option relaxedAutoImplicit false

namespace Offside

open Text (isBlank trimEnd)

variable {c : Char} {cs : List Char} {text : String}

/-- Somewhere a carriage return stands directly in front of a newline. -/
def BreaksWithReturn (text : String) : Prop :=
  ['\r', '\n'] <:+: text.toList

instance : DecidablePred BreaksWithReturn :=
  fun text ↦ inferInstanceAs (Decidable (['\r', '\n'] <:+: text.toList))

/-- The last character is blank. -/
def EndsBlank (text : String) : Prop :=
  text.toList.getLast?.any isBlank = true

/-- Somewhere two carriage returns stand directly in front of a newline, and behind them there is
still a character that is not blank. -/
def StacksReturns (text : String) : Prop :=
  ∃ front back, text.toList = front ++ ['\r', '\r', '\n'] ++ back ∧ ∃ c ∈ back, isBlank c = false

/-! ### Blanks at the end -/

theorem trimEnd_prefix (cs : List Char) : trimEnd cs <+: cs :=
  List.rdropWhile_prefix isBlank cs

theorem trimEnd_cons (c : Char) (cs : List Char) :
    trimEnd (c :: cs) = if trimEnd cs = [] ∧ isBlank c = true then [] else c :: trimEnd cs :=
  Text.dropTailWhile_cons isBlank c cs

theorem any_isBlank_getLast?_trimEnd (cs : List Char) :
    (trimEnd cs).getLast?.any isBlank = false := by
  by_cases hnil : trimEnd cs = []
  · rw [hnil]
    rfl
  · rw [List.getLast?_eq_some_getLast hnil, Option.any_some]
    exact eq_false_of_ne_true (List.rdropWhile_last_not isBlank cs hnil)

theorem trimEnd_eq_self (h : cs.getLast?.any isBlank = false) : trimEnd cs = cs := by
  refine List.rdropWhile_eq_self_iff.mpr fun hne ↦ ?_
  rwa [List.getLast?_eq_some_getLast hne, Option.any_some, ← Bool.not_eq_true] at h

/-- Carriage returns are stacked if they still are once the blanks at the end are gone. -/
theorem stacksReturns_iff : StacksReturns text ↔ ['\r', '\r', '\n'] <:+: trimEnd text.toList := by
  constructor
  · rintro ⟨front, _, htext, c, hmem, hc⟩
    obtain ⟨between, rest, rfl⟩ := List.append_of_mem hmem
    rw [htext, trimEnd, ← List.append_assoc, Text.dropTailWhile_append_cons hc]
    exact ⟨front, between ++ c :: Text.dropTailWhile isBlank rest, by simp⟩
  · rintro ⟨front, back, htrimmed⟩
    have hend := any_isBlank_getLast?_trimEnd text.toList
    rw [← htrimmed] at hend
    obtain rfl | ⟨init, c, rfl⟩ := List.eq_nil_or_concat' back
    · simp [isBlank] at hend
    · rw [← List.append_assoc, List.getLast?_concat, Option.any_some] at hend
      obtain ⟨blanks, htext⟩ := trimEnd_prefix text.toList
      rw [← htrimmed, List.append_assoc] at htext
      exact ⟨front, _, htext.symm, c, by simp, hend⟩

instance : DecidablePred StacksReturns :=
  fun _ ↦ decidable_of_iff _ stacksReturns_iff.symm

/-! ### Newlines -/

/-- A text is read from the front, a pair at once and any other character alone. -/
@[elab_as_elim]
theorem newlines_induction {motive : List Char → Prop} (nil : motive [])
    (pair : ∀ cs, motive cs → motive ('\r' :: '\n' :: cs))
    (single : ∀ c cs, ¬['\r', '\n'] <+: c :: cs → motive cs → motive (c :: cs))
    (cs : List Char) : motive cs := by
  induction cs using unifyNewlines.induct with
  | case1 cs ih => exact pair cs ih
  | case2 c cs hpair ih =>
    refine single c cs ?_ ih
    rintro ⟨rest, hcs⟩
    obtain ⟨rfl, rfl⟩ := List.cons.inj hcs
    exact hpair rest rfl rfl
  | case3 => exact nil

theorem unifyNewlines_cons (h : ¬['\r', '\n'] <+: c :: cs) :
    unifyNewlines (c :: cs) = c :: unifyNewlines cs := by
  refine unifyNewlines.eq_2 c cs fun rest hc hcs ↦ h ⟨rest, ?_⟩
  rw [hc, hcs]
  rfl

theorem unifyNewlines_eq_nil_iff : unifyNewlines cs = [] ↔ cs = [] := by
  induction cs using newlines_induction with
  | nil => simp [unifyNewlines]
  | pair cs => simp [unifyNewlines]
  | single c cs hsingle => simp [unifyNewlines_cons hsingle]

theorem unifyNewlines_sublist (cs : List Char) : (unifyNewlines cs).Sublist cs := by
  induction cs using newlines_induction with
  | nil => exact List.Sublist.refl []
  | pair cs ih => exact (ih.cons_cons '\n').cons '\r'
  | single c cs hsingle ih =>
    rw [unifyNewlines_cons hsingle]
    exact ih.cons_cons c

theorem unifyNewlines_eq_self_iff : unifyNewlines cs = cs ↔ ¬['\r', '\n'] <:+: cs := by
  induction cs using newlines_induction with
  | nil => simp [unifyNewlines]
  | pair cs => simp [unifyNewlines, List.infix_cons_iff]
  | single c cs hsingle ih =>
    rw [unifyNewlines_cons hsingle, List.infix_cons_iff, List.cons_inj_right, ih,
      or_iff_right hsingle]

theorem newline_prefix_unifyNewlines_iff :
    ['\n'] <+: unifyNewlines cs ↔ ['\n'] <+: cs ∨ ['\r', '\n'] <+: cs := by
  induction cs using newlines_induction with
  | nil => simp [unifyNewlines]
  | pair cs => simp [unifyNewlines]
  | single c cs hsingle =>
    rw [unifyNewlines_cons hsingle, or_iff_left hsingle, List.cons_prefix_cons,
      List.cons_prefix_cons]
    exact and_congr_right fun _ ↦ iff_of_true List.nil_prefix List.nil_prefix

/-- A pair is left exactly where one more carriage return stood in front of a pair. -/
theorem pair_infix_unifyNewlines_iff :
    ['\r', '\n'] <:+: unifyNewlines cs ↔ ['\r', '\r', '\n'] <:+: cs := by
  induction cs using newlines_induction with
  | nil => simp [unifyNewlines]
  | pair cs ih => simp [unifyNewlines, List.infix_cons_iff, ih]
  | single c cs hsingle ih =>
    -- The newline behind a carriage return that stands alone comes from a pair.
    have hnewline : '\r' = c ∧ ['\n'] <+: unifyNewlines cs ↔ '\r' = c ∧ ['\r', '\n'] <+: cs := by
      rw [List.cons_prefix_cons] at hsingle
      rw [newline_prefix_unifyNewlines_iff, and_or_left, or_iff_right hsingle]
    rw [unifyNewlines_cons hsingle, List.infix_cons_iff, List.infix_cons_iff, ih,
      List.cons_prefix_cons, List.cons_prefix_cons, hnewline]

/-- Both characters of a pair are blank, so it does not matter which is done first. -/
theorem trimEnd_unifyNewlines (cs : List Char) :
    trimEnd (unifyNewlines cs) = unifyNewlines (trimEnd cs) := by
  induction cs using newlines_induction with
  | nil => rfl
  | pair cs ih =>
    simp only [unifyNewlines, trimEnd_cons, ih, unifyNewlines_eq_nil_iff]
    by_cases hnil : trimEnd cs = [] <;> simp [hnil, isBlank, unifyNewlines]
  | single c cs hsingle ih =>
    simp only [unifyNewlines_cons hsingle, trimEnd_cons, ih, unifyNewlines_eq_nil_iff]
    by_cases hnil : trimEnd cs = [] ∧ isBlank c = true
    · rw [if_pos hnil, if_pos hnil]
      rfl
    · have hshort : c :: trimEnd cs <+: c :: cs :=
        List.cons_prefix_cons.mpr ⟨rfl, trimEnd_prefix cs⟩
      rw [if_neg hnil, if_neg hnil, unifyNewlines_cons fun h ↦ hsingle (h.trans hshort)]

/-! ### Normal texts -/

theorem toList_normalizeOutput (text : String) :
    (normalizeOutput text).toList = trimEnd (unifyNewlines text.toList) :=
  String.toList_ofList

theorem not_endsBlank_normalizeOutput (text : String) : ¬EndsBlank (normalizeOutput text) := by
  rw [EndsBlank, toList_normalizeOutput, any_isBlank_getLast?_trimEnd]
  exact Bool.false_ne_true

theorem breaksWithReturn_normalizeOutput_iff (text : String) :
    BreaksWithReturn (normalizeOutput text) ↔ StacksReturns text := by
  rw [BreaksWithReturn, toList_normalizeOutput, trimEnd_unifyNewlines,
    pair_infix_unifyNewlines_iff, stacksReturns_iff]

theorem normalizeOutput_eq_self_iff :
    normalizeOutput text = text ↔ ¬BreaksWithReturn text ∧ ¬EndsBlank text := by
  constructor
  · intro h
    refine ⟨?_, h ▸ not_endsBlank_normalizeOutput text⟩
    -- Nothing was dropped at the end, so nothing was dropped before it.
    have hsame := congrArg String.toList h
    rw [toList_normalizeOutput] at hsame
    have hprefix : text.toList <+: unifyNewlines text.toList := by
      conv_lhs => rw [← hsame]
      exact trimEnd_prefix _
    exact unifyNewlines_eq_self_iff.mp
      ((unifyNewlines_sublist text.toList).antisymm hprefix.sublist)
  · rintro ⟨hpair, hend⟩
    rw [normalizeOutput, unifyNewlines_eq_self_iff.mpr hpair,
      trimEnd_eq_self (eq_false_of_ne_true hend), String.ofList_toList]

/-- A normalized text does not end in a blank. A carriage return is left directly in front of a
newline exactly if the text stacked two of them there, and normalizing again changes nothing exactly
if it did not. The texts that stay as they are are those with neither such a pair nor a blank at the
end. -/
theorem normalizeOutput_normal_unless_stacked (text : String) :
    ¬EndsBlank (normalizeOutput text) ∧
      (BreaksWithReturn (normalizeOutput text) ↔ StacksReturns text) ∧
      (normalizeOutput (normalizeOutput text) = normalizeOutput text ↔ ¬StacksReturns text) ∧
      (normalizeOutput text = text ↔ ¬BreaksWithReturn text ∧ ¬EndsBlank text) := by
  have hend := not_endsBlank_normalizeOutput text
  have hpair := breaksWithReturn_normalizeOutput_iff text
  refine ⟨hend, hpair, ?_, normalizeOutput_eq_self_iff⟩
  rw [normalizeOutput_eq_self_iff, and_iff_left hend, hpair]

/-- Stacked carriage returns at the end of the text are blanks like others. -/
example : ¬StacksReturns "a\r\r\n" ∧ normalizeOutput "a\r\r\n" = "a" := by
  decide

/-- The carriage return in front of a pair makes a pair with its newline. -/
theorem normalizeOutput_keeps_stacked_return :
    BreaksWithReturn (normalizeOutput "a\r\r\nb") ∧
      normalizeOutput (normalizeOutput "a\r\r\nb") ≠ normalizeOutput "a\r\r\nb" := by
  decide

end Offside
