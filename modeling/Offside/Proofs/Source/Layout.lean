import Offside.Proofs.Source.Expr

/-!
The layout of written lines. On a line of level `k` the open blocks have the widths `4`, `8` and so
on up to `4 * k`, so a line of level `l` opens one block or closes `k - l` of them. `Fills l text
ts` says what a text of level `l` comes to: the tokens `ts`, behind those that open the block of the
text or close what is open above its level, and in front of the tokens of whatever follows.
-/

set_option autoImplicit false
set_option relaxedAutoImplicit false

namespace Offside.Source

variable {k l : Nat} {cs : List Char} {ts us layout : List Token}
variable {first second text header block : String}

/-! ### Open blocks -/

/-- The widths of the blocks that are open on a line of the given level. -/
def widths : Nat → List Nat
  | 0 => []
  | level + 1 => 4 * (level + 1) :: widths level

theorem innermost_widths (k : Nat) : Layout.innermost (widths k) = 4 * k := by
  cases k <;> rfl

theorem length_widths (k : Nat) : (widths k).length = k := by
  induction k with
  | zero => rfl
  | succ k ih => rw [widths, List.length_cons, ih]

theorem dropWhile_widths (h : l ≤ k) : (widths k).dropWhile (4 * l < ·) = widths l := by
  induction k with
  | zero =>
    obtain rfl := Nat.le_zero.mp h
    rfl
  | succ k ih =>
    obtain rfl | hlt := Nat.eq_or_lt_of_le h
    · exact List.dropWhile_cons_of_neg (by simp)
    · have hwider : 4 * l < 4 * (k + 1) := by omega
      rw [widths, List.dropWhile_cons_of_pos (by simpa using hwider), ih (Nat.le_of_lt_succ hlt)]

theorem length_takeWhile_widths (h : l ≤ k) :
    ((widths k).takeWhile (4 * l < ·)).length = k - l := by
  have hlength := congrArg List.length
    (List.takeWhile_append_dropWhile (p := fun width ↦ decide (4 * l < width)) (l := widths k))
  rw [List.length_append, dropWhile_widths h, length_widths, length_widths] at hlength
  omega

/-- Between a line of level `k` and one of level `l` blocks are opened and closed like this. -/
def Shifts (k l : Nat) (layout : List Token) : Prop :=
  ∀ line, ∃ placed, Layout.adjust (widths k) line (4 * l) = .ok (placed, widths l) ∧
    placed.map PlacedToken.token = layout

theorem shifts_deeper (k : Nat) : Shifts k (k + 1) [.indent] := by
  intro line
  have hwider : Layout.innermost (widths k) < 4 * (k + 1) := by
    rw [innermost_widths]
    omega
  exact ⟨[⟨.indent, line, 1⟩], if_pos hwider, rfl⟩

theorem shifts_back (h : l ≤ k) : Shifts k l (List.replicate (k - l) .dedent) := by
  intro line
  have hwider : ¬Layout.innermost (widths k) < 4 * l := by
    rw [innermost_widths]
    omega
  refine ⟨((widths k).takeWhile (4 * l < ·)).map fun _ ↦ ⟨.dedent, line, 1⟩, ?_, ?_⟩
  · rw [Layout.adjust, if_neg hwider, dropWhile_widths h, if_pos (innermost_widths l)]
  · rw [List.map_map, ← length_takeWhile_widths h]
    exact List.map_const'

/-! ### One line -/

theorem lines_append (h : cs.all coding = true) (rest : List Char) :
    Layout.lines (cs ++ '\n' :: rest) = cs :: Layout.lines rest := by
  induction cs with
  | nil => rfl
  | cons c cs ih =>
    rw [List.all_cons, Bool.and_eq_true] at h
    have hc : c ≠ '\n' := by
      rintro rfl
      cases h.1
    rw [List.cons_append, Layout.lines, if_neg hc, ih h.2]

/-- A line without a comment and without carriage returns is code from end to end. -/
theorem code_eq_self (h : cs.all coding = true) : Layout.code cs = cs := by
  rw [List.all_eq_true] at h
  have hreturn : Text.dropTailWhile (· = '\r') cs = cs := by
    obtain rfl | ⟨init, last, rfl⟩ := List.eq_nil_or_concat cs
    · rfl
    · rw [List.concat_eq_append] at h ⊢
      have hlast : last ≠ '\r' := by
        rintro rfl
        cases h '\r' (by simp)
      exact Text.dropTailWhile_append_singleton_of_neg (decide_eq_false hlast) init
  have hhash : ∀ c ∈ cs, decide (c ≠ '#') = true :=
    fun c hc ↦ (Bool.and_eq_true_iff.mp (h c hc)).2
  have htake : (cs ++ []).takeWhile (· ≠ '#') = cs := takeWhile_append hhash nofun
  rw [List.append_nil] at htake
  rwa [Layout.code, hreturn]

/-- The parts of a written line: its indentation as wide as its level demands, and its text. -/
theorem code_sourceLine (hlexes : Lexes parting text ts) (hbegins : Begins solid text) :
    let cs := (blanks (4 * l) ++ text).toList
    Layout.code cs = cs ∧ cs.all Text.isBlank = false ∧ cs.dropWhile (· = ' ') = text.toList ∧
      text.toList.head? ≠ some '\t' ∧ (cs.takeWhile (· = ' ')).length = 4 * l := by
  obtain ⟨c, rest, htext, hc⟩ := hbegins.exists_cons
  have hblank : Text.isBlank c = false := by
    simpa using (Bool.and_eq_true_iff.mp hc).1
  have hspace : c ≠ ' ' := by
    rintro rfl
    cases hblank
  have hindent : ∀ d ∈ List.replicate (4 * l) ' ', decide (d = ' ') = true :=
    fun d hd ↦ decide_eq_true (List.eq_of_mem_replicate hd)
  have hinline := ((Lexes.blanks (4 * l)).before hlexes).inline
  refine ⟨code_eq_self hinline, ?_, ?_, ?_, ?_⟩
  · simp [htext, hblank]
  · rw [String.toList_append, toList_blanks, List.dropWhile_append_of_pos hindent, htext]
    exact List.dropWhile_cons_of_neg (by simpa using hspace)
  · rw [htext]
    rintro ⟨⟩
    cases hblank
  · rw [String.toList_append, toList_blanks, htext, takeWhile_append hindent]
    · exact List.length_replicate
    · rintro _ ⟨⟩
      exact decide_eq_false hspace

/-- The tokens of one line: what opens or closes blocks, those of its text, and a newline. -/
theorem lineTokens_sourceLine (hlayout : Shifts k l layout) (hlexes : Lexes parting text ts)
    (hbegins : Begins solid text) (line : Nat) : ∃ placed,
      Layout.lineTokens line (widths k) (blanks (4 * l) ++ text).toList = .ok (placed, widths l) ∧
        placed.map PlacedToken.token = layout ++ ts ++ [.newline] := by
  obtain ⟨hcode, hblank, hbody, htab, hwidth⟩ := code_sourceLine (l := l) hlexes hbegins
  obtain ⟨shift, hshift, hlayout⟩ := hlayout line
  obtain ⟨placed, hplaced, htokens⟩ := hlexes.splits [] [] nofun .nil line (4 * l + 1)
  rw [List.append_nil] at hplaced htokens
  rw [Layout.lineTokens, hcode]
  simp only [hblank, hbody, htab, hwidth, hshift, hplaced, if_false, Bool.false_eq_true]
  refine ⟨_, rfl, ?_⟩
  simp [hlayout, htokens]

/-- On lines behind one of level `k`, down to the end of the text, there are the given tokens. -/
def Gives (k : Nat) (cs : List Char) (ts : List Token) : Prop :=
  ∀ line, ∃ placed, Layout.linesTokens line (widths k) (Layout.lines cs) = .ok placed ∧
    placed.map PlacedToken.token = ts

theorem gives_line (hlayout : Shifts k l layout) (hlexes : Lexes parting text ts)
    (hbegins : Begins solid text) (h : Gives l cs us) :
    Gives k ((sourceLine l text).toList ++ cs) (layout ++ ts ++ .newline :: us) := by
  intro line
  -- The tokens of the line leave the blocks of its level open, and the rest begins with these.
  obtain ⟨first, hfirst, hfirstTokens⟩ := lineTokens_sourceLine hlayout hlexes hbegins line
  obtain ⟨rest, hrest, hrestTokens⟩ := h (line + 1)
  have hinline := ((Lexes.blanks (4 * l)).before hlexes).inline
  have hlines : Layout.lines ((sourceLine l text).toList ++ cs) =
      (blanks (4 * l) ++ text).toList :: Layout.lines cs := by
    rw [sourceLine, String.toList_append, List.append_assoc]
    exact lines_append hinline cs
  rw [hlines, Layout.linesTokens, hfirst]
  refine ⟨first ++ rest, ?_, ?_⟩
  · simp only [bind, Except.bind, hrest]
  · simp [hfirstTokens, hrestTokens]

/-! ### Lines behind lines -/

/-- What follows a text of level `l`: blocks above the level are closed first. -/
def Continues (l : Nat) (cs : List Char) (ts : List Token) : Prop :=
  ∀ k, l ≤ k → Gives k cs (List.replicate (k - l) .dedent ++ ts)

/-- What begins with a line of level `l`, which can be the first one of its block. -/
structure Starts (l : Nat) (cs : List Char) (ts : List Token) : Prop where
  continues : Continues l cs ts
  opens : ∀ k, l = k + 1 → Gives k cs (.indent :: ts)

/-- At the end of the text all blocks are closed. -/
theorem continues_end : Continues 0 [] [.endOfInput] := by
  intro k _ line
  refine ⟨_, rfl, ?_⟩
  simp [List.map_const', length_widths]

/-- Behind a block of level `l + 1`, one more block is closed. -/
theorem Continues.closes (h : Continues l cs ts) : Continues (l + 1) cs (.dedent :: ts) := by
  intro k hk
  have hcount : k - l = k - (l + 1) + 1 := by omega
  have hgives := h k (Nat.le_of_succ_le hk)
  rwa [hcount, List.replicate_succ', List.append_assoc] at hgives

theorem starts_line (hlexes : Lexes parting text ts) (hbegins : Begins solid text)
    (h : Gives l cs us) : Starts l ((sourceLine l text).toList ++ cs) (ts ++ .newline :: us) where
  continues k hk := by
    rw [← List.append_assoc]
    exact gives_line (shifts_back hk) hlexes hbegins h
  opens k hk := by
    subst hk
    exact gives_line (shifts_deeper k) hlexes hbegins h

/-! ### Texts of a level -/

/-- A text of lines of level `l`, if any, comes to the given tokens. -/
def Extends (l : Nat) (text : String) (ts : List Token) : Prop :=
  ∀ cs us, Continues l cs us → Continues l (text.toList ++ cs) (ts ++ us)

/-- A text of lines of level `l`, at least one, comes to the given tokens. -/
def Fills (l : Nat) (text : String) (ts : List Token) : Prop :=
  ∀ cs us, Continues l cs us → Starts l (text.toList ++ cs) (ts ++ us)

theorem extends_empty : Extends l "" [] :=
  fun _ _ h ↦ h

theorem Fills.extends (h : Fills l text ts) : Extends l text ts :=
  fun cs us hcs ↦ (h cs us hcs).continues

theorem Fills.append (hfirst : Fills l first ts) (hsecond : Extends l second us) :
    Fills l (first ++ second) (ts ++ us) := by
  intro cs vs hcs
  rw [String.toList_append, List.append_assoc, List.append_assoc]
  exact hfirst _ _ (hsecond cs vs hcs)

theorem fills_line (hlexes : Lexes parting text ts) (hbegins : Begins solid text) :
    Fills l (sourceLine l text) (ts ++ [.newline]) := by
  intro cs us hcs
  have hgives := hcs l (Nat.le_refl l)
  rw [Nat.sub_self] at hgives
  rw [List.append_assoc]
  exact starts_line hlexes hbegins hgives

/-- A line with a block below it. -/
theorem fills_block (hlexes : Lexes parting header us) (hbegins : Begins solid header)
    (hblock : Fills (l + 1) block ts) :
    Fills l (sourceLine l header ++ block) (us ++ .newline :: .indent :: ts ++ [.dedent]) := by
  intro cs vs hcs
  -- Seen from inside of the block, what follows it begins with one more dedent.
  have hgives := (hblock cs _ hcs.closes).opens l rfl
  rw [String.toList_append, List.append_assoc]
  simpa using starts_line hlexes hbegins hgives

end Offside.Source
