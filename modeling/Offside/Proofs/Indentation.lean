import Mathlib
import Offside.Proofs.Token.Nesting
import Offside.Proofs.Token.Spans

/-!
Indents, dedents and newlines follow the layout of a source text. They are balanced, each line of
code has its own, the blocks that are open on a line are those of the stack of widths there, and no
token stands behind a later one. Where no other error comes first, a source is rejected for a dedent
exactly at the first line whose width is below the top of that stack and not on it
(`tokenize_follows_layout`).
-/

set_option autoImplicit false
set_option relaxedAutoImplicit false

namespace Offside

open Layout

/-- What the tokens of lines have to do with the layout of the lines. -/
structure FollowsLayout (texts : List (List Char)) (tokens : List PlacedToken) : Prop where
  /-- The input ends once, behind all other tokens. -/
  ends : ∃ ts, tokens = ts ++ [⟨.endOfInput, texts.length + 1, 1⟩] ∧
    ∀ t ∈ ts, t.token ≠ .endOfInput
  /-- No more blocks are closed than have been opened. -/
  front : ∀ ts, ts <+: tokens → closed ts ≤ opened ts
  /-- In the end all blocks are closed. -/
  whole : opened tokens = closed tokens
  /-- On a bare line there are no tokens. -/
  bare : ∀ before text after, texts = before ++ text :: after → Bare text →
    onLine (before.length + 1) tokens = []
  /-- On a line of code there are an indent or dedents, then ordinary tokens, and then a newline. -/
  code : ∀ before text after, texts = before ++ text :: after → ¬Bare text →
    ∃ layout body newline, onLine (before.length + 1) tokens = layout ++ body ++ [newline] ∧
      (layout.map PlacedToken.token = [.indent] ∨
        ∃ n, layout.map PlacedToken.token = List.replicate n .dedent) ∧
      body ≠ [] ∧ (∀ t ∈ body, t.token.isOrdinary = true) ∧ newline.token = .newline
  /-- On a line of code as many blocks are open as there are widths on the stack over the width
  zero; the stack is strictly increasing, and the width of the line is on its top. -/
  level : ∀ before text after, texts = before ++ text :: after → ¬Bare text →
    ∃ stack, stack = nesting [0] (before ++ [text]) ∧ stack.Pairwise (· > ·) ∧
      stack.getLast? = some 0 ∧ stack.head? = some (indentation text) ∧
        opened (upToLine (before.length + 1) tokens) + 1 =
          closed (upToLine (before.length + 1) tokens) + stack.length
  /-- The places of tokens do not go back. -/
  weak : tokens.Pairwise fun t u ↦ ¬u.Precedes t
  /-- Between tokens that neither open nor close blocks they go on. -/
  strict : (flat tokens).Pairwise PlacedToken.Precedes

section

variable {texts : List (List Char)} {tokens : List PlacedToken}

theorem nesting_append (stack : List Nat) (before after : List (List Char)) :
    nesting stack (before ++ after) = nesting (nesting stack before) after :=
  List.foldl_append

/-- The tokens of lines follow their layout. -/
theorem linesTokens_follows_layout (h : linesTokens 1 [] texts = .ok tokens) :
    FollowsLayout texts tokens where
  ends := by
    rw [Nat.add_comm]
    exact linesTokens_end h
  front ts hts := by
    have hfront := (linesTokens_balanced h).front ts hts
    omega
  whole := by
    have hwhole := (linesTokens_balanced h).whole
    omega
  bare before text after htexts hbare := by
    subst htexts
    obtain ⟨us, kept, first, inner, -, hfirst, hon, -⟩ := linesTokens_at h
    rw [lineTokens_of_bare hbare] at hfirst
    cases hfirst
    rw [Nat.add_comm, hon]
  code before text after htexts hcode := by
    subst htexts
    obtain ⟨us, kept, first, inner, -, hfirst, hon, -⟩ := linesTokens_at h
    obtain ⟨layout, body, column, hshape⟩ := lineTokens_shape hcode hfirst
    rw [Nat.add_comm, hon]
    refine ⟨layout, body, _, hshape.eq, ?_, hshape.body_ne, hshape.ordinary, rfl⟩
    obtain hlayout | ⟨n, hlayout⟩ := hshape.isLayout
    · exact .inl (congrArg _ hlayout)
    · refine .inr ⟨n, ?_⟩
      rw [hlayout, List.map_replicate]
  level before text after htexts hcode := by
    subst htexts
    obtain ⟨us, kept, first, inner, hus, hfirst, -, hup⟩ := linesTokens_at h
    obtain ⟨hstack, hsorted, hbalanced⟩ := readLines_nests around_pairwise_nil hus
    obtain ⟨⟨hstack', hsorted', hbalanced'⟩, htop⟩ := lineTokens_nests hsorted hfirst
    have hlevel := (hbalanced.append hbalanced').whole
    have hlength : (around inner).length = inner.length + 1 := List.length_append
    refine ⟨around inner, ?_, hsorted', List.getLast?_concat .., ?_, ?_⟩
    · rw [nesting_append, hstack', hstack]
      rfl
    · have hhead := htop hcode
      cases inner with
      | nil => exact congrArg some hhead
      | cons width inner => exact congrArg some hhead
    · rw [List.length_nil] at hlevel
      rw [Nat.add_comm before.length, hup, hlength]
      omega
  weak := (linesTokens_ordered h).weak
  strict := (linesTokens_ordered h).strict

end

/-- The tokens of a source text, if it has any, follow the layout of its lines: the input ends once,
blocks are opened and closed evenly, bare lines have no tokens and lines of code an indent or
dedents, ordinary tokens and a newline, with as many blocks open as the stack of widths is high over
the width zero, and no place goes back. Whether it has tokens or not, it is rejected for a dedent on
a line exactly if the lines in front of that have tokens, the line is not indented with a tab, and
its width is below the top of the stack and not on the stack. -/
theorem tokenize_follows_layout (source : String) :
    (∀ tokens, tokenize source = .ok tokens → FollowsLayout (lines source.toList) tokens) ∧
      ∀ width line, tokenize source = .error (.inconsistentDedent width line) ↔
        ∃ before text after, lines source.toList = before ++ text :: after ∧
          line = before.length + 1 ∧ (∃ tokens, linesTokens 1 [] before = .ok tokens) ∧
          ¬Bare text ∧ ¬TabIndented text ∧ width = indentation text ∧
          width < (nesting [0] before).headD 0 ∧ width ∉ nesting [0] before := by
  refine ⟨fun tokens h ↦ linesTokens_follows_layout h, fun width line ↦ ?_⟩
  constructor
  · intro h
    obtain ⟨before, text, after, us, kept, hlines, hus, hfail⟩ :=
      exists_failing_line (linesTokens_eq_error.mp h)
    obtain ⟨hstack, hsorted, -⟩ := readLines_nests around_pairwise_nil hus
    have hline : line = 1 + before.length := line_of_lineTokens_eq_error hfail
    rw [← hline, lineTokens_eq_dedent_iff hsorted, hstack] at hfail
    exact ⟨before, text, after, hlines, hline.trans (Nat.add_comm _ _),
      ⟨_, linesTokens_eq_ok.mpr ⟨us, kept, hus, rfl⟩⟩, hfail⟩
  · rintro ⟨before, text, after, hlines, rfl, ⟨tokens, htokens⟩, hreject⟩
    obtain ⟨us, kept, hus, -⟩ := linesTokens_eq_ok.mp htokens
    obtain ⟨hstack, hsorted, -⟩ := readLines_nests around_pairwise_nil hus
    have hfails : linesTokens 1 [] (before ++ text :: after) =
        .error (.inconsistentDedent width (1 + before.length)) ↔ _ :=
      linesTokens_eq_error_iff hus rfl
    rw [tokenize, hlines, Nat.add_comm, hfails, lineTokens_eq_dedent_iff hsorted, hstack]
    exact hreject

/-- Two blocks are closed at once around a line with a comment, and a line between the widths of two
blocks is rejected. -/
theorem tokenize_follows_layout_two_blocks :
    (∃ tokens, tokenize "a\n  b\n    c\n # d\ne" = .ok tokens ∧
      FollowsLayout (lines "a\n  b\n    c\n # d\ne".toList) tokens ∧
        tokens.map PlacedToken.token = [.identifier "a", .newline, .indent, .identifier "b",
          .newline, .indent, .identifier "c", .newline, .dedent, .dedent, .identifier "e",
          .newline, .endOfInput]) ∧
      tokenize "a\n    b\n  c" = .error (.inconsistentDedent 2 3) := by
  constructor
  · have hsource : ∃ tokens, tokenize "a\n  b\n    c\n # d\ne" = .ok tokens ∧
        tokens.map PlacedToken.token = [.identifier "a", .newline, .indent, .identifier "b",
          .newline, .indent, .identifier "c", .newline, .dedent, .dedent, .identifier "e",
          .newline, .endOfInput] := by
      conv in tokenize _ => cbv
      exact ⟨_, rfl, by cbv⟩
    obtain ⟨tokens, hsource, htokens⟩ := hsource
    exact ⟨tokens, hsource, (tokenize_follows_layout _).1 tokens hsource, htokens⟩
  · refine ((tokenize_follows_layout _).2 2 3).mpr ⟨["a".toList, "    b".toList], "  c".toList, [],
      by decide, rfl, ⟨_, by cbv⟩, by decide, by decide, by decide, by decide, by decide⟩

end Offside
