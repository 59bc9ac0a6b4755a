import Offside.Proofs.Reading.Finds

/-!
The bounds of readings do not matter. Whatever repeats or nests takes a token first, so bounds that
are no less than the number of tokens left are never reached. `Alike n x y` says that two readings
do the same, be it that they yield something or that they fail, where no more than `n` tokens are
left; readings with two different bounds that are large enough are alike.
-/

set_option autoImplicit false
set_option relaxedAutoImplicit false

namespace Offside.Reading

open Grammar

/-- How many tokens are left that can be taken. -/
def left (ts : List PlacedToken) : Nat :=
  ts.countP fun t ↦ t.token ≠ .endOfInput

section

variable {α β : Type} {n k : Nat}

/-- Readings that do the same where no more than `n` tokens are left and `S` holds of the first. -/
def AlikeAt (S : Token → Prop) (n : Nat) (x y : Reading α) : Prop :=
  ∀ ts, S (next ts) → left ts ≤ n → x ts = y ts

/-- Readings that do the same where no more than `n` tokens are left. -/
abbrev Alike (n : Nat) (x y : Reading α) : Prop :=
  AlikeAt (fun _ ↦ True) n x y

/-- A reading that takes at least `k` tokens. -/
def Takes (k : Nat) (x : Reading α) : Prop :=
  ∀ ts a rest, x ts = .ok (a, rest) → left rest + k ≤ left ts

/-! ### Rules -/

theorem next_of_left (ts : List PlacedToken) (h : left ts ≤ 0) : next ts = .endOfInput := by
  cases ts with
  | nil => rfl
  | cons t ts =>
    have hzero := List.countP_eq_zero.mp (Nat.le_zero.mp h) t List.mem_cons_self
    have hend : t.token = .endOfInput := by simpa using hzero
    exact hend

/-- A token that is not the end of the input can be taken. -/
theorem left_tail {ts : List PlacedToken} (h : next ts ≠ .endOfInput) :
    left ts = left ts.tail + 1 := by
  cases ts with
  | nil => exact absurd rfl h
  | cons t ts =>
    have htoken : t.token ≠ .endOfInput := h
    exact List.countP_cons_of_pos (by simpa using htoken)

/-- Where the first reading fails, nothing is done with its result. -/
theorem unexpected_bind {x : Reading β} {f : β → Reading α} {expected : Expected}
    {ts : List PlacedToken} (h : x ts = unexpected expected ts) :
    (x >>= f) ts = unexpected expected ts := by
  rw [run_bind, h]
  rfl

/-- What is derived by texts of some length has been taken. -/
theorem Finds.takes {x : Reading α} {G : List Token → α → Prop} (h : Finds x G)
    (hG : ∀ {text a}, G text a → k ≤ text.length) : Takes k x := by
  intro ts a rest hx
  obtain ⟨taken, rfl, hend, ha⟩ := h ts a rest trivial hx
  have hlength := hG ha
  rw [List.length_map] at hlength
  have htaken : left taken = taken.length := by
    refine List.countP_eq_length.mpr fun t ht ↦ ?_
    simpa using hend t ht
  have hsum : left (taken ++ rest) = left taken + left rest := List.countP_append
  omega

theorem Alike.at {x y : Reading α} (h : Alike n x y) (S : Token → Prop) : AlikeAt S n x y :=
  fun ts _ hleft ↦ h ts trivial hleft

theorem Alike.le {m : Nat} {x y : Reading α} (h : Alike n x y) (hle : m ≤ n) : Alike m x y :=
  fun ts _ hleft ↦ h ts trivial (Nat.le_trans hleft hle)

/-- Readings that do the same at the end of the input. -/
theorem alike_zero {x y : Reading α} (h : ∀ ts, next ts = .endOfInput → x ts = y ts) :
    Alike 0 x y :=
  fun ts _ hleft ↦ h ts (next_of_left ts hleft)

theorem alike_refl (x : Reading α) : Alike n x x :=
  fun _ _ _ ↦ rfl

theorem Alike.bind {x y : Reading β} {f g : β → Reading α} (hx : Alike n x y) (htakes : Takes k y)
    (hf : ∀ b, k ≤ n → Alike (n - k) (f b) (g b)) : Alike n (x >>= f) (y >>= g) := by
  intro ts _ hleft
  rw [run_bind, run_bind, hx ts trivial hleft]
  cases hy : y ts with
  | error e => rfl
  | ok p =>
    have hrest := htakes ts p.1 p.2 hy
    exact hf p.1 (by omega) p.2 trivial (by omega)

/-- What is done with the results is the same. -/
theorem Alike.bind_same {x y : Reading β} (hx : Alike n x y) (f : β → Reading α) :
    Alike n (x >>= f) (y >>= f) := by
  intro ts _ hleft
  rw [run_bind, run_bind, hx ts trivial hleft]

theorem alike_current_bind {f g : PlacedToken → Reading α}
    (h : ∀ t, AlikeAt (· = t.token) n (f t) (g t)) : Alike n (current >>= f) (current >>= g) :=
  fun ts _ hleft ↦ h _ ts rfl hleft

theorem alikeAt_advance_bind {token : Token} {f g : Unit → Reading α}
    (htoken : token ≠ .endOfInput) (h : Alike (n - 1) (f ()) (g ())) :
    AlikeAt (· = token) n (advance >>= f) (advance >>= g) := by
  intro ts hnext hleft
  have htail := left_tail (hnext ▸ htoken)
  exact h ts.tail trivial (by omega)

theorem alike_if_take? {token : Token} {x x' y y' : Reading α} (htoken : token ≠ .endOfInput)
    (htrue : Alike (n - 1) x x') (hfalse : Alike n y y') :
    Alike n (do if ← take? token then x else y) (do if ← take? token then x' else y') := by
  rw [take?_bind, take?_bind]
  refine alike_current_bind fun t ↦ ?_
  by_cases h : t.token = token
  · rw [if_pos h, if_pos h]
    exact alikeAt_advance_bind (h ▸ htoken) htrue
  · rw [if_neg h, if_neg h]
    exact hfalse.at _

theorem takes_take {token : Token} (htoken : token ≠ .endOfInput) : Takes 1 (take token) := by
  refine (finds_take htoken).takes fun h ↦ ?_
  rw [h]
  exact Nat.le_refl 1

theorem alike_take_bind {token : Token} {f g : Unit → Reading α} (htoken : token ≠ .endOfInput)
    (h : Alike (n - 1) (f ()) (g ())) : Alike n (take token >>= f) (take token >>= g) :=
  (alike_refl _).bind (takes_take htoken) fun _ _ ↦ h

theorem takes_identifier : Takes 1 identifier := by
  refine finds_identifier.takes fun h ↦ ?_
  cases h
  exact Nat.le_refl 1

end

/-! ### Lists and blocks -/

section

variable {α β : Type} {item item' : Reading α} {line line' : Reading (List β)}
  {n bound bound' : Nat}

theorem alike_itemsBetweenCommas (hitem : Alike n item item') (htakes : Takes 1 item')
    (hbound : n ≤ bound) (hbound' : n ≤ bound') :
    Alike n (itemsBetweenCommas item bound) (itemsBetweenCommas item' bound') := by
  induction n generalizing bound bound' with
  | zero =>
    -- Without a token left there is no first item, whichever bound there is.
    cases bound <;> cases bound' <;>
      exact hitem.bind htakes fun _ h ↦ absurd h (Nat.not_succ_le_zero 0)
  | succ n ih =>
    obtain ⟨bound, rfl⟩ : ∃ b, bound = b + 1 := ⟨bound - 1, by omega⟩
    obtain ⟨bound', rfl⟩ : ∃ b, bound' = b + 1 := ⟨bound' - 1, by omega⟩
    have hrest : Alike n (itemsBetweenCommas item bound) (itemsBetweenCommas item' bound') :=
      ih (hitem.le (Nat.le_succ n)) (by omega) (by omega)
    refine hitem.bind htakes fun first _ ↦ alike_if_take? nofun ?_ (alike_refl _)
    exact (hrest.le (Nat.sub_le n 1)).bind_same _

theorem alike_itemsUpTo (hitem : Alike n item item') (htakes : Takes 1 item')
    (hbound : n ≤ bound) (hbound' : n ≤ bound') (closing : Punctuation) :
    Alike n (itemsUpTo bound closing item) (itemsUpTo bound' closing item') := by
  refine alike_if_take? nofun (alike_refl _) ?_
  exact (alike_itemsBetweenCommas hitem htakes hbound hbound').bind_same _

theorem alike_linesUpTo {closes : Token → Bool} (hcloses : closes .endOfInput = true)
    (hline : Alike n line line') (htakes : Takes 1 line') (hbound : n ≤ bound)
    (hbound' : n ≤ bound') :
    Alike n (linesUpTo closes line bound) (linesUpTo closes line' bound') := by
  induction n generalizing bound bound' with
  | zero =>
    have hend (line : Reading (List β)) (bound : Nat) (ts : List PlacedToken)
        (hts : next ts = .endOfInput) : linesUpTo closes line bound ts = .ok ([], ts) := by
      cases bound with
      | zero => rfl
      | succ bound =>
        rw [linesUpTo, current_bind, show (ts.headD ⟨.endOfInput, 0, 0⟩).token = _ from hts,
          if_pos hcloses]
        rfl
    exact alike_zero fun ts hts ↦ (hend line bound ts hts).trans (hend line' bound' ts hts).symm
  | succ n ih =>
    obtain ⟨bound, rfl⟩ : ∃ b, bound = b + 1 := ⟨bound - 1, by omega⟩
    obtain ⟨bound', rfl⟩ : ∃ b, bound' = b + 1 := ⟨bound' - 1, by omega⟩
    have hrest : Alike n (linesUpTo closes line bound) (linesUpTo closes line' bound') :=
      ih (hline.le (Nat.le_succ n)) (by omega) (by omega)
    refine alike_current_bind fun t ↦ Alike.at ?_ _
    split
    · exact alike_refl _
    · exact alike_if_take? nofun hrest (hline.bind htakes fun _ _ ↦ hrest.bind_same _)

/-- Lines end where they are closed, or the bound has been reached, a token for each line. -/
theorem linesUpTo_ends {closes : Token → Bool} {ts rest : List PlacedToken} {bs : List β}
    (htakes : Takes 1 line) (h : linesUpTo closes line bound ts = .ok (bs, rest)) :
    closes (next rest) = true ∨ left rest + bound ≤ left ts := by
  induction bound generalizing ts bs with
  | zero =>
    cases h
    exact .inr (Nat.le_refl _)
  | succ bound ih =>
    rw [linesUpTo, current_bind] at h
    split at h
    · next hcloses =>
      cases h
      exact .inl hcloses
    · rw [take?_bind, current_bind] at h
      split at h
      · next hnewline =>
        have htail : left ts = left ts.tail + 1 :=
          left_tail fun hend ↦ Token.noConfusion (hnewline.symm.trans hend)
        exact (ih h).imp_right fun hrest ↦ by omega
      · obtain ⟨as, us, hus, h⟩ := run_bind_eq_ok.mp h
        obtain ⟨cs, vs, hvs, h⟩ := run_bind_eq_ok.mp h
        cases h
        have hline := htakes ts as us hus
        exact (ih hvs).imp_right fun hrest ↦ by omega

theorem alike_indented (hline : Alike n line line') (htakes : Takes 1 line') (hbound : n ≤ bound)
    (hbound' : n ≤ bound') : Alike n (indented bound line) (indented bound' line') := by
  refine alike_take_bind nofun (alike_take_bind nofun ?_)
  refine Alike.bind_same (alike_linesUpTo rfl (hline.le ?_) htakes ?_ ?_) _ <;> omega

end

/-! ### Expressions -/

section

variable {op? : Token → Option ArithOp} {operand operand' : Reading Expr} {n bound bound' : Nat}

theorem alike_chainOnto (hend : op? .endOfInput = none) (hoperand : Alike n operand operand')
    (htakes : Takes 1 operand') (hbound : n ≤ bound) (hbound' : n ≤ bound') (left : Expr) :
    Alike n (chainOnto op? operand left bound) (chainOnto op? operand' left bound') := by
  induction n generalizing bound bound' left with
  | zero =>
    have hstop (operand : Reading Expr) (bound : Nat) (ts : List PlacedToken)
        (hts : next ts = .endOfInput) : chainOnto op? operand left bound ts = .ok (left, ts) := by
      cases bound with
      | zero => rfl
      | succ bound =>
        rw [chainOnto, current_bind, show (ts.headD ⟨.endOfInput, 0, 0⟩).token = _ from hts, hend]
        rfl
    exact alike_zero fun ts hts ↦
      (hstop operand bound ts hts).trans (hstop operand' bound' ts hts).symm
  | succ n ih =>
    obtain ⟨bound, rfl⟩ : ∃ b, bound = b + 1 := ⟨bound - 1, by omega⟩
    obtain ⟨bound', rfl⟩ : ∃ b, bound' = b + 1 := ⟨bound' - 1, by omega⟩
    refine alike_current_bind fun t ↦ ?_
    split
    · next op hop =>
      have htoken : t.token ≠ .endOfInput := by
        intro h
        rw [h, hend] at hop
        cases hop
      refine alikeAt_advance_bind htoken
        ((hoperand.le (Nat.le_succ n)).bind htakes fun right _ ↦ ?_)
      refine Alike.le (ih (hoperand.le (Nat.le_succ n)) ?_ ?_ _) (Nat.sub_le _ 1) <;> omega
    · exact Alike.at (alike_refl _) _

theorem alike_chain (hend : op? .endOfInput = none) (hoperand : Alike n operand operand')
    (htakes : Takes 1 operand') (hbound : n ≤ bound) (hbound' : n ≤ bound') :
    Alike n (chain bound op? operand) (chain bound' op? operand') := by
  refine hoperand.bind htakes fun left _ ↦ ?_
  refine alike_chainOnto hend (hoperand.le ?_) htakes ?_ ?_ left <;> omega

theorem alike_expressionOver (hoperand : Alike n operand operand')
    (hfinds : Finds operand' Operand) (hbound : n ≤ bound) (hbound' : n ≤ bound') :
    Alike n (expressionOver bound operand) (expressionOver bound' operand') := by
  have hproduct := finds_chain productOp?_eq_some hfinds bound'
  have htakes : Takes 1 (chain bound' sumOp? (chain bound' productOp? operand')) :=
    (finds_chain sumOp?_eq_some hproduct bound').takes
      fun h ↦ (h.begins (Chain.begins Operand.begins)).length_pos
  have hsum : Alike n (chain bound sumOp? (chain bound productOp? operand))
      (chain bound' sumOp? (chain bound' productOp? operand')) :=
    alike_chain rfl (alike_chain rfl hoperand (hfinds.takes fun h ↦ h.begins.length_pos) hbound
      hbound') (hproduct.takes fun h ↦ (h.begins Operand.begins).length_pos) hbound hbound'
  refine hsum.bind htakes fun left _ ↦ alike_current_bind fun t ↦ ?_
  split
  · exact Alike.at (alike_refl _) _
  · next op hop =>
    rw [compareOp?_eq_some.mp hop]
    refine alikeAt_advance_bind nofun ((hsum.le ?_).bind_same _)
    omega

theorem alike_accessOf {expression expression' : Reading Expr}
    (hexpression : Alike n expression expression') (htakes : Takes 1 expression')
    (hbound : n ≤ bound) (hbound' : n ≤ bound') (name : String) :
    Alike n (accessOf bound expression name) (accessOf bound' expression' name) := by
  have hargs {k : Nat} (hk : k ≤ n) : Alike k (itemsUpTo bound .rightParen expression)
      (itemsUpTo bound' .rightParen expression') :=
    alike_itemsUpTo (hexpression.le hk) htakes (Nat.le_trans hk hbound) (Nat.le_trans hk hbound') _
  refine alike_if_take? nofun ((hargs (Nat.sub_le n 1)).bind_same _) (alike_if_take? nofun
    ((hexpression.le (Nat.sub_le n 1)).bind_same _) (alike_if_take? nofun ?_ (alike_refl _)))
  refine (alike_refl _).bind takes_identifier fun member _ ↦ ?_
  refine alike_if_take? nofun ((hargs ?_).bind_same _) (alike_refl _)
  omega

/-- No operand is found at the end of the input, whichever bounds there are. -/
theorem operand_end (bound depth : Nat) {ts : List PlacedToken} (hts : next ts = .endOfInput) :
    Reading.operand bound depth ts = unexpected .expression ts := by
  cases depth with
  | zero => rfl
  | succ depth =>
    cases ts with
    | nil => rfl
    | cons t ts =>
      obtain ⟨token, line, column⟩ := t
      cases hts
      rfl

theorem expression_end (bound : Nat) {ts : List PlacedToken} (hts : next ts = .endOfInput) :
    expression bound ts = unexpected .expression ts :=
  unexpected_bind (unexpected_bind (unexpected_bind (operand_end bound _ hts)))

/-- Operands are read alike with two bounds on the levels of nesting. -/
theorem alike_operand {depth depth' : Nat} (hbound : n ≤ bound) (hbound' : n ≤ bound')
    (hdepth : n ≤ depth) (hdepth' : n ≤ depth') :
    Alike n (Reading.operand bound depth) (Reading.operand bound' depth') := by
  induction n generalizing depth depth' with
  | zero =>
    exact alike_zero fun ts hts ↦
      (operand_end bound depth hts).trans (operand_end bound' depth' hts).symm
  | succ n ih =>
    obtain ⟨depth, rfl⟩ : ∃ d, depth = d + 1 := ⟨depth - 1, by omega⟩
    obtain ⟨depth', rfl⟩ : ∃ d, depth' = d + 1 := ⟨depth' - 1, by omega⟩
    have hinner : Alike n (Reading.operand bound depth) (Reading.operand bound' depth') :=
      ih (by omega) (by omega) (by omega) (by omega)
    have hfinds := finds_operand bound' depth'
    have hexpression : Alike n (expressionOver bound (Reading.operand bound depth))
        (expressionOver bound' (Reading.operand bound' depth')) :=
      alike_expressionOver hinner hfinds (by omega) (by omega)
    have htakes : Takes 1 (expressionOver bound' (Reading.operand bound' depth')) :=
      (finds_expressionOver hfinds bound').takes fun h ↦ (Expression.begins h).length_pos
    have hitems : Alike n (itemsUpTo bound .rightBracket _) (itemsUpTo bound' .rightBracket _) :=
      alike_itemsUpTo hexpression htakes (by omega) (by omega) .rightBracket
    refine alike_current_bind fun t ↦ ?_
    obtain ⟨token, line, column⟩ := t
    cases token with
    | keyword word => cases word <;> exact Alike.at (alike_refl _) _
    | arith op =>
      cases op with
      | sub => exact alikeAt_advance_bind nofun (hinner.bind_same _)
      | _ => exact Alike.at (alike_refl _) _
    | identifier name =>
      exact alikeAt_advance_bind nofun
        (alike_accessOf hexpression htakes (by omega) (by omega) name)
    | punctuation mark =>
      cases mark with
      | leftBracket => exact alikeAt_advance_bind nofun (hitems.bind_same _)
      | leftParen => exact alikeAt_advance_bind nofun (hexpression.bind_same _)
      | _ => exact Alike.at (alike_refl _) _
    | _ => exact Alike.at (alike_refl _) _

theorem alike_expression (hbound : n ≤ bound) (hbound' : n ≤ bound') :
    Alike n (expression bound) (expression bound') :=
  alike_expressionOver (alike_operand hbound hbound' (Nat.le_succ_of_le hbound)
    (Nat.le_succ_of_le hbound')) (finds_operand bound' _) hbound hbound'

theorem takes_expression (bound : Nat) : Takes 1 (expression bound) :=
  (finds_expression bound).takes fun h ↦ h.begins.length_pos

end

/-! ### Statements -/

section

variable {statement statement' : Reading Stmt} {n bound bound' : Nat}

theorem takes_line (hfinds : Finds statement' Statement) :
    Takes 1 (return [← statement'] : Reading Block) := by
  refine (finds_line hfinds).takes ?_
  rintro text xs ⟨st, -, hst⟩
  exact hst.begins.length_pos

theorem takes_member (hfinds : Finds statement' Statement) (bound : Nat) :
    Takes 1 (member bound statement') := by
  refine (finds_member hfinds bound).takes ?_
  rintro text rs ⟨rs', -, hrs⟩
  exact hrs.begins.length_pos

theorem alike_block (hstatement : Alike n statement statement')
    (hfinds : Finds statement' Statement) (hbound : n ≤ bound) (hbound' : n ≤ bound') :
    Alike n (indented bound (return [← statement])) (indented bound' (return [← statement'])) :=
  alike_indented (hstatement.bind_same _) (takes_line hfinds) hbound hbound'

/-- The keyword of a routine has been taken where its statements are read. -/
theorem alike_routine (hstatement : Alike (n - 1) statement statement')
    (hfinds : Finds statement' Statement) (hbound : n ≤ bound) (hbound' : n ≤ bound') :
    Alike n (routine bound statement) (routine bound' statement') := by
  refine alike_take_bind nofun ((alike_refl _).bind takes_identifier fun name _ ↦ ?_)
  refine alike_take_bind nofun ?_
  have hparams : Alike (n - 1 - 1 - 1) (itemsUpTo bound .rightParen identifier)
      (itemsUpTo bound' .rightParen identifier) := by
    refine alike_itemsUpTo (alike_refl _) takes_identifier ?_ ?_ _ <;> omega
  refine hparams.bind (k := 0) ?_ fun params _ ↦ alike_take_bind nofun ?_
  · exact (finds_itemsUpTo finds_identifier bound' _).takes fun _ ↦ Nat.zero_le _
  · refine (alike_block (hstatement.le ?_) hfinds ?_ ?_).bind_same _ <;> omega

theorem alike_member (hstatement : Alike (n - 1) statement statement')
    (hfinds : Finds statement' Statement) (hbound : n ≤ bound) (hbound' : n ≤ bound') :
    Alike n (member bound statement) (member bound' statement') := by
  refine alike_current_bind fun t ↦ Alike.at ?_ _
  split
  · exact (alike_routine hstatement hfinds hbound hbound').bind_same _
  · exact alike_refl _
  · exact alike_refl _

theorem alike_rangeArgument (hbound : n ≤ bound) (hbound' : n ≤ bound') :
    Alike n (rangeArgument bound) (rangeArgument bound') := by
  refine alike_current_bind fun t ↦ Alike.at ?_ _
  refine (alike_refl _).bind takes_identifier fun callee _ ↦ ?_
  split
  · exact alike_refl _
  · refine alike_take_bind nofun (Alike.bind_same (alike_itemsUpTo (alike_expression ?_ ?_)
      (takes_expression bound') ?_ ?_ _) _) <;> omega

theorem alike_simpleLine (hbound : n ≤ bound) (hbound' : n ≤ bound') :
    Alike n (simpleLine bound) (simpleLine bound') := by
  have hvalue : Alike (n - 1 - 1) (expression bound) (expression bound') :=
    alike_expression (by omega) (by omega)
  refine alike_current_bind fun t ↦ Alike.at ?_ _
  refine (alike_expression hbound hbound').bind (takes_expression bound') fun target _ ↦ ?_
  exact alike_if_take? nofun (hvalue.bind_same _) (alike_refl _)

/-- No statement is found at the end of the input, whichever bounds there are. -/
theorem statement_end (bound depth : Nat) {ts : List PlacedToken} (hts : next ts = .endOfInput) :
    Reading.statement bound depth ts = unexpected .expression ts := by
  cases depth with
  | zero => rfl
  | succ depth =>
    rw [Reading.statement, current_bind, show (ts.headD ⟨.endOfInput, 0, 0⟩).token = _ from hts]
    show simpleLine bound ts = _
    rw [simpleLine, current_bind]
    exact unexpected_bind (expression_end bound hts)

/-- Statements are read alike with two bounds on the levels of nesting. -/
theorem alike_statement {depth depth' : Nat} (hbound : n ≤ bound) (hbound' : n ≤ bound')
    (hdepth : n ≤ depth) (hdepth' : n ≤ depth') :
    Alike n (Reading.statement bound depth) (Reading.statement bound' depth') := by
  induction n generalizing depth depth' with
  | zero =>
    exact alike_zero fun ts hts ↦
      (statement_end bound depth hts).trans (statement_end bound' depth' hts).symm
  | succ n ih =>
    obtain ⟨depth, rfl⟩ : ∃ d, depth = d + 1 := ⟨depth - 1, by omega⟩
    obtain ⟨depth', rfl⟩ : ∃ d, depth' = d + 1 := ⟨depth' - 1, by omega⟩
    have hinner : Alike n (Reading.statement bound depth) (Reading.statement bound' depth') :=
      ih (by omega) (by omega) (by omega) (by omega)
    have hfinds := finds_statement bound' depth'
    have hexpression : Alike n (expression bound) (expression bound') :=
      alike_expression (by omega) (by omega)
    have hblock {k : Nat} (hk : k ≤ n) :
        Alike k (indented bound (return [← Reading.statement bound depth]))
          (indented bound' (return [← Reading.statement bound' depth'])) :=
      alike_block (hinner.le hk) hfinds (by omega) (by omega)
    have hline := alike_simpleLine hbound hbound'
    refine alike_current_bind fun t ↦ ?_
    obtain ⟨token, line, column⟩ := t
    cases token with
    | keyword word =>
      cases word with
      | printWord =>
        refine alikeAt_advance_bind nofun (alike_take_bind nofun ?_)
        exact (hexpression.le (Nat.sub_le n 1)).bind_same _
      | defWord =>
        have hroutine : Alike (n + 1) (routine bound (Reading.statement bound depth))
            (routine bound' (Reading.statement bound' depth')) :=
          alike_routine hinner hfinds hbound hbound'
        exact Alike.at (hroutine.bind_same _) _
      | classWord =>
        refine alikeAt_advance_bind nofun ?_
        refine (alike_refl _).bind takes_identifier fun name _ ↦ alike_take_bind nofun ?_
        have hmember : Alike (n + 1 - 1 - 1 - 1) (member bound (Reading.statement bound depth))
            (member bound' (Reading.statement bound' depth')) :=
          alike_member (hinner.le (by omega)) hfinds (by omega) (by omega)
        exact (alike_indented hmember (takes_member hfinds bound') (by omega)
          (by omega)).bind_same _
      | returnWord =>
        refine alikeAt_advance_bind nofun (alike_if_take? nofun (alike_refl _) ?_)
        exact hexpression.bind_same _
      | ifWord =>
        refine alikeAt_advance_bind nofun ?_
        refine hexpression.bind (takes_expression _) fun condition _ ↦ alike_take_bind nofun ?_
        refine (hblock (by omega)).bind (k := 0) ?_ fun body _ ↦ ?_
        · exact (finds_block hfinds bound').takes fun _ ↦ Nat.zero_le _
        · refine alike_if_take? nofun (alike_take_bind nofun ?_) (alike_refl _)
          exact (hblock (by omega)).bind_same _
      | whileWord =>
        refine alikeAt_advance_bind nofun ?_
        refine hexpression.bind (takes_expression _) fun condition _ ↦ alike_take_bind nofun ?_
        exact (hblock (by omega)).bind_same _
      | forWord =>
        refine alikeAt_advance_bind nofun ((alike_refl _).bind takes_identifier fun name _ ↦ ?_)
        refine alike_take_bind nofun ?_
        have hstop : Alike (n + 1 - 1 - 1 - 1) (rangeArgument bound) (rangeArgument bound') :=
          alike_rangeArgument (by omega) (by omega)
        refine hstop.bind (k := 0) ?_ fun stop _ ↦ ?_
        · exact (finds_rangeArgument bound').takes fun _ ↦ Nat.zero_le _
        · exact alike_take_bind nofun ((hblock (by omega)).bind_same _)
      | passWord => exact Alike.at (alike_refl _) _
      | _ => exact hline.at _
    | _ => exact hline.at _

/-- Programs are read alike with any two bounds that no reading reaches. -/
theorem alike_program (hbound : n ≤ bound) (hbound' : n ≤ bound') :
    Alike n (program bound) (program bound') := by
  have hstatement : Alike n (Reading.statement bound (bound + 1))
      (Reading.statement bound' (bound' + 1)) :=
    alike_statement hbound hbound' (Nat.le_succ_of_le hbound) (Nat.le_succ_of_le hbound')
  exact alike_linesUpTo rfl (hstatement.bind_same _) (takes_line (finds_statement bound' _)) hbound
    hbound'

end

end Offside.Reading
