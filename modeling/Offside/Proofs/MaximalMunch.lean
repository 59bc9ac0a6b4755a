import Mathlib
import Offside.Proofs.Token.Lines

/-!
Nothing is lost in reading tokens. On a line of code the ordinary tokens are those of the pieces
into which the line in front of its comment is split, each slice the longest match where it stands,
and the slices are all of that text but its blanks. A line that is indented well fails where its
split comes to a fault, and nowhere else (`tokenize_munches`).
-/

set_option autoImplicit false
set_option relaxedAutoImplicit false

namespace Offside

open Layout Piece

/-- The tokens on a line that are not there for the layout alone. -/
def ordinaryOn (line : Nat) (ts : List PlacedToken) : List PlacedToken :=
  (onLine line ts).filter (·.token.isOrdinary)

/-- The ordinary tokens of a line of code are those of its pieces. -/
theorem ordinary_lineTokens {line : Nat} {blocks kept : List Nat} {text : List Char}
    {ts : List PlacedToken} (hcode : ¬Bare text)
    (h : lineTokens line blocks text = .ok (ts, kept)) :
    ∃ pieces, Covers pieces (uncommented text) ∧
      ts.filter (·.token.isOrdinary) = place line [] pieces := by
  have hreads := lineTokens_reads line blocks text
  rw [h] at hreads
  cases hreads with
  | bare hbare => exact absurd hbare hcode
  | code _ htab layout _ hadjust pieces hcovers =>
    have hlayout : layout.filter (·.token.isOrdinary) = [] := by
      refine List.filter_eq_nil_iff.mpr fun t ht ↦ ?_
      obtain ⟨htoken | htoken, -⟩ := (adjust_isLayout hadjust).of_mem ht
      · simp [htoken, Token.isOrdinary]
      · simp [htoken, Token.isOrdinary]
    have hplaced : (place line [] pieces).filter (·.token.isOrdinary) = place line [] pieces := by
      obtain ⟨left, hmunches, -⟩ := hcovers
      exact List.filter_eq_self.mpr fun t ht ↦ hmunches.isOrdinary ht
    refine ⟨pieces, hcovers, ?_⟩
    rw [List.filter_append, List.filter_append, hlayout, hplaced, List.nil_append]
    exact List.append_nil _

/-- Takes a line of code of any source text. If the lines in front of it and the line itself have
tokens, together with the lines behind it, or with none of them, or with any others, then the
ordinary tokens of the line are those of the one split of the line in front of its comment: the text
is that of the pieces, with blanks behind it, the slices are all of it but its blanks, and each
token stands in the column behind the bytes in front of its slice. If the lines in front of it have
tokens, and the line is neither indented with a tab nor by a width that is not open, then the source
fails with a fault of the line, in some column, exactly if the split comes to that fault there.
Digits in a word belong to the word and are no number. -/
theorem tokenize_munches {source : String} {before after : List (List Char)} {text : List Char}
    (hlines : lines source.toList = before ++ text :: after) (hcode : ¬Bare text) :
    (∀ further tokens, linesTokens 1 [] (before ++ text :: further) = .ok tokens →
        ∃ pieces, Covers pieces (uncommented text) ∧
          (∀ others, Covers others (uncommented text) → others = pieces) ∧
          (∃ left, uncommented text = texts pieces ++ left ∧ ∀ c ∈ left, Text.isBlank c = true) ∧
          pieces.flatMap slice = (uncommented text).filter (!Text.isBlank ·) ∧
          ordinaryOn (before.length + 1) tokens = place (before.length + 1) [] pieces) ∧
    ((∃ tokens, linesTokens 1 [] before = .ok tokens) →
      tokenize source ≠ .error (.tabIndentation (before.length + 1)) →
      (∀ width, tokenize source ≠ .error (.inconsistentDedent width (before.length + 1))) →
        ∀ column fault,
          tokenize source = .error (.ofFault (before.length + 1) column fault) ↔
            ∃ front, Stumbles front (uncommented text) fault ∧ column = byteCount front + 1) := by
  constructor
  · intro further tokens htokens
    obtain ⟨us, kept, first, inner, -, hfirst, hon, -⟩ := linesTokens_at htokens
    obtain ⟨pieces, hcovers, hplaced⟩ := ordinary_lineTokens hcode hfirst
    rw [Nat.add_comm] at hon hplaced
    refine ⟨pieces, hcovers, fun others hothers ↦ hothers.unique hcovers, ?_,
      hcovers.flatMap_slice, ?_⟩
    · obtain ⟨left, hmunches, hleft⟩ := hcovers
      exact ⟨left, hmunches.text_eq, hleft⟩
    · rw [ordinaryOn, hon, hplaced]
  · rintro ⟨tokens, htokens⟩ htab hdedent column fault
    obtain ⟨us, kept, hbefore, -⟩ := linesTokens_eq_ok.mp htokens
    have hfails (error : LexError) (herror : error.line = before.length + 1) :
        tokenize source = .error error ↔
          lineTokens (before.length + 1) kept text = .error error := by
      rw [Nat.add_comm] at herror ⊢
      rw [tokenize, hlines]
      exact linesTokens_eq_error_iff hbefore herror
    rw [hfails _ (LexError.line_ofFault _ column fault)]
    refine lineTokens_eq_fault_iff hcode (fun h ↦ htab ?_) fun width h ↦ hdedent width ?_
    · exact (hfails (.tabIndentation (before.length + 1)) rfl).mpr h
    · exact (hfails (.inconsistentDedent width (before.length + 1)) rfl).mpr h

/-- A line with a comment is split, and the next one fails at a number with a foreign digit. -/
theorem tokenize_munches_foreign_digit :
    (∃ pieces, Covers pieces "a <=7 ".toList ∧ pieces.flatMap slice = "a<=7".toList ∧
      place 1 [] pieces =
        [⟨.identifier "a", 1, 1⟩, ⟨.compare .le, 1, 3⟩, ⟨.number 7, 1, 5⟩]) ∧
      tokenize "a <=7 # low\nb 9٣" = .error (.ofFault 2 3 (.invalidNumber "9٣")) ∧
        ∃ front, Stumbles front "b 9٣".toList (.invalidNumber "9٣") ∧
          3 = byteCount front + 1 := by
  have hlines : lines "a <=7 # low\nb 9٣".toList =
      [] ++ "a <=7 # low".toList :: ["b 9٣".toList] := by decide
  have hsource : tokenize "a <=7 # low\nb 9٣" = .error (.invalidNumber "9٣" 2 3) := by cbv
  have hfirst : linesTokens 1 [] ["a <=7 # low".toList] =
      .ok [⟨.identifier "a", 1, 1⟩, ⟨.compare .le, 1, 3⟩, ⟨.number 7, 1, 5⟩, ⟨.newline, 1, 7⟩,
        ⟨.endOfInput, 2, 1⟩] := by cbv
  constructor
  · obtain ⟨pieces, hcovers, -, -, hslices, hplaced⟩ :=
      (tokenize_munches hlines (by decide)).1 [] _ hfirst
    exact ⟨pieces, hcovers, hslices, hplaced.symm⟩
  · have hlines' : lines "a <=7 # low\nb 9٣".toList =
        ["a <=7 # low".toList] ++ "b 9٣".toList :: [] := hlines
    have hsecond := (tokenize_munches hlines' (by decide)).2 ⟨_, hfirst⟩
    rw [hsource] at hsecond
    have hfaulty := hsecond (by simp) (by simp) 3 (.invalidNumber "9٣")
    exact ⟨hsource, hfaulty.mp rfl⟩

end Offside
