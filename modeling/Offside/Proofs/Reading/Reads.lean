import Offside.Proofs.Reading.Finds

/-!
What is derived is read. `Reads x text a F` says that `x` takes the tokens `text` from the front and
yields `a`, whatever stands behind them, as long as that begins with a token of `F`. A phrase of the
grammar is read in this way if the token behind it cannot continue it and the bounds are not less
than the length of its text, since each repetition and each level of nesting takes a token.
-/

set_option autoImplicit false
set_option relaxedAutoImplicit false

namespace Offside.Reading

open Grammar

theorem next_append (ts rest : List PlacedToken) :
    next (ts ++ rest) = (ts.map PlacedToken.token).headD (next rest) := by
  cases ts <;> rfl

section

variable {α β : Type}

/-- A reading that takes the given text and yields `a` in front of any token of `F`. -/
def Reads (x : Reading α) (text : List Token) (a : α) (F : Token → Prop) : Prop :=
  ∀ ts rest, ts.map PlacedToken.token = text → F (next rest) → x (ts ++ rest) = .ok (a, rest)

/-- All tokens. -/
abbrev Anything (_ : Token) : Prop :=
  True

/-! ### Rules -/

section

variable {text first second : List Token} {a : α} {b : β} {F G : Token → Prop}

theorem Reads.mono {x : Reading α} (h : Reads x text a F) (hGF : ∀ t, G t → F t) :
    Reads x text a G :=
  fun ts rest hts hrest ↦ h ts rest hts (hGF _ hrest)

theorem reads_pure : Reads (pure a) [] a F := by
  intro ts rest hts _
  rw [List.map_eq_nil_iff.mp hts]
  rfl

/-- The second text, or what follows it, must stand behind the first. -/
theorem Reads.bind {x : Reading β} {f : β → Reading α} (hx : Reads x first b F)
    (hf : Reads (f b) second a G) (hF : ∀ t, G t → F (second.headD t)) :
    Reads (x >>= f) (first ++ second) a G := by
  intro ts rest hts hrest
  obtain ⟨ts₁, ts₂, rfl, rfl, rfl⟩ := List.map_eq_append_iff.mp hts
  have hnext : F (next (ts₂ ++ rest)) := next_append ts₂ rest ▸ hF _ hrest
  rw [List.append_assoc, run_bind, hx ts₁ (ts₂ ++ rest) rfl hnext]
  exact hf ts₂ rest rfl hrest

/-- The second reading only looks at what stands behind the text. -/
theorem Reads.bind_nil {x : Reading β} {f : β → Reading α} (hx : Reads x text b F)
    (hf : Reads (f b) [] a G) (hGF : ∀ t, G t → F t) : Reads (x >>= f) text a G := by
  have h := hx.bind hf hGF
  rwa [List.append_nil] at h

/-- It does not matter where the token at the front stands. -/
theorem reads_current_bind {f : PlacedToken → Reading α} {token : Token}
    (hf : ∀ line column, Reads (f ⟨token, line, column⟩) (token :: text) a F) :
    Reads (current >>= f) (token :: text) a F := by
  intro ts rest hts hrest
  obtain ⟨⟨token, line, column⟩, ts, rfl, rfl, rfl⟩ := List.map_eq_cons_iff.mp hts
  exact hf line column (⟨token, line, column⟩ :: ts) rest rfl hrest

/-- A reading that looks at what stands behind it. -/
theorem reads_current_bind_nil {f : PlacedToken → Reading α}
    (hf : ∀ t, F t.token → Reads (f t) [] a F) : Reads (current >>= f) [] a F := by
  intro ts rest hts hrest
  obtain rfl := List.map_eq_nil_iff.mp hts
  exact hf _ hrest [] rest rfl hrest

/-- A reading for which it does not matter what it looks at. -/
theorem reads_current_bind_any {f : PlacedToken → Reading α} (hf : ∀ t, Reads (f t) text a F) :
    Reads (current >>= f) text a F :=
  fun ts rest hts hrest ↦ hf _ ts rest hts hrest

theorem reads_advance_bind {f : Unit → Reading α} {token : Token}
    (hf : Reads (f ()) text a F) : Reads (advance >>= f) (token :: text) a F := by
  intro ts rest hts hrest
  obtain ⟨t, ts, rfl, ht, rfl⟩ := List.map_eq_cons_iff.mp hts
  exact hf ts rest rfl hrest

/-- The token is at the front. -/
theorem reads_take?_bind {f : Bool → Reading α} {token : Token}
    (hf : Reads (f true) text a F) : Reads (take? token >>= f) (token :: text) a F := by
  rw [take?_bind]
  refine reads_current_bind fun line column ↦ ?_
  rw [if_pos rfl]
  exact reads_advance_bind hf

/-- Another token begins the text, or stands behind it. -/
theorem reads_take?_bind_of_ne {f : Bool → Reading α} {token : Token}
    (hf : Reads (f false) text a F) (htoken : ∀ t, F t → text.headD t ≠ token) :
    Reads (take? token >>= f) text a F := by
  rw [take?_bind]
  cases text with
  | nil =>
    refine reads_current_bind_nil fun t ht ↦ ?_
    rw [if_neg (show t.token ≠ token from htoken _ ht)]
    exact hf
  | cons t text =>
    intro ts rest hts hrest
    refine reads_current_bind (fun line column ↦ ?_) ts rest hts hrest
    rw [if_neg (show t ≠ token from htoken _ hrest)]
    exact hf

theorem reads_take_bind {f : Unit → Reading α} {token : Token} (hf : Reads (f ()) text a F) :
    Reads (take token >>= f) (token :: text) a F := by
  have htake : Reads (take token) [token] () Anything := reads_take?_bind reads_pure
  exact htake.bind hf fun _ _ ↦ trivial

theorem reads_identifier (name : String) : Reads identifier [.identifier name] name Anything :=
  reads_current_bind fun _ _ ↦ reads_advance_bind reads_pure

theorem reads_identifier_bind {f : String → Reading α} {name : String}
    (hf : Reads (f name) text a F) : Reads (identifier >>= f) (.identifier name :: text) a F :=
  (reads_identifier name).bind hf fun _ _ ↦ trivial

end

end

/-! ### Lists and blocks -/

section

variable {α β : Type} {P : List Token → α → Prop} {item : Reading α} {line : Reading (List β)}
  {contents : α → List β} {F : Token → Prop} {limit bound : Nat}

theorem reads_itemsBetweenCommas {text : List Token} {as : List α}
    (hitem : ∀ {text a}, P text a → text.length ≤ limit → Reads item text a F)
    (hcomma : F (.punctuation .comma)) (h : Separated P text as) (hlimit : text.length ≤ limit)
    (hbound : text.length ≤ bound) :
    Reads (itemsBetweenCommas item bound) text as fun t ↦ F t ∧ t ≠ .punctuation .comma := by
  induction h generalizing bound with
  | @one text a h =>
    cases bound with
    | zero => exact (hitem h hlimit).bind_nil reads_pure fun _ ht ↦ ht.1
    | succ bound =>
      refine (hitem h hlimit).bind_nil (reads_take?_bind_of_ne reads_pure fun _ ht ↦ ht.2) ?_
      exact fun _ ht ↦ ht.1
  | @more first rest a as hfirst hrest ih =>
    rw [List.length_append, List.length_cons] at hlimit hbound
    obtain ⟨bound, rfl⟩ : ∃ b, bound = b + 1 := ⟨bound - 1, by omega⟩
    refine (hitem hfirst (by omega)).bind (reads_take?_bind ?_) fun _ _ ↦ hcomma
    exact (ih (by omega) (by omega)).bind_nil reads_pure fun _ ht ↦ ht

theorem reads_itemsUpTo {text : List Token} {as : List α} {closing : Punctuation}
    (hitem : ∀ {text a}, P text a → text.length ≤ limit → Reads item text a F)
    (hcomma : F (.punctuation .comma)) (hclosing : F (.punctuation closing))
    (hne : closing ≠ .comma)
    (hbegins : ∀ {text a}, P text a → Begins (· ≠ .punctuation closing) text)
    (h : Items P text as) (hlimit : text.length ≤ limit) (hbound : text.length ≤ bound) :
    Reads (itemsUpTo bound closing item) (text ++ [.punctuation closing]) as Anything := by
  cases h with
  | none => exact reads_take?_bind reads_pure
  | some h =>
    have hfirst : Begins (· ≠ .punctuation closing) text := by
      cases h with
      | one h => exact hbegins h
      | more hfirst hrest => exact (hbegins hfirst).append
    refine reads_take?_bind_of_ne ?_ fun t _ ↦ hfirst.append.headD t
    refine (reads_itemsBetweenCommas hitem hcomma h hlimit hbound).bind
      (reads_take_bind reads_pure) fun _ _ ↦ ⟨hclosing, ?_⟩
    simpa using hne

theorem reads_linesUpTo {closes : Token → Bool} {text : List Token} {as : List α}
    (hline : ∀ {text a}, P text a → text.length ≤ limit → Reads line text (contents a) F)
    (hbegins : ∀ {text a}, P text a → Begins (fun t ↦ F t ∧ closes t = false ∧ t ≠ .newline) text)
    (hblank : F .newline ∧ closes .newline = false) (hcloses : ∀ t, closes t = true → F t)
    (h : Lines P text as) (hlimit : text.length ≤ limit) (hbound : text.length ≤ bound) :
    Reads (linesUpTo closes line bound) text (as.flatMap contents) (closes · = true) := by
  induction h generalizing bound with
  | nil =>
    cases bound with
    | zero => exact reads_pure
    | succ bound =>
      refine reads_current_bind_nil fun t ht ↦ ?_
      rw [if_pos ht]
      exact reads_pure
  | @blank text as h ih =>
    rw [List.length_cons] at hlimit hbound
    obtain ⟨bound, rfl⟩ : ∃ b, bound = b + 1 := ⟨bound - 1, by omega⟩
    refine reads_current_bind fun line column ↦ ?_
    rw [if_neg (Bool.eq_false_iff.mp hblank.2)]
    exact reads_take?_bind (ih (by omega) (by omega))
  | @line first rest a as hfirst hrest ih =>
    have hpos := (hbegins hfirst).length_pos
    rw [List.length_append] at hlimit hbound
    obtain ⟨bound, rfl⟩ : ∃ b, bound = b + 1 := ⟨bound - 1, by omega⟩
    have hboth := (hline hfirst (by omega)).bind
      (f := fun xs ↦ linesUpTo closes line bound >>= fun ys ↦ pure (xs ++ ys))
      ((ih (by omega) (by omega)).bind_nil reads_pure fun _ ht ↦ ht) fun t ht ↦
        hrest.headD (fun h ↦ (hbegins h).mono fun _ ht ↦ ht.1) hblank.1 (hcloses t ht)
    obtain ⟨t, first, rfl, ⟨-, hopen, hne⟩⟩ := hbegins hfirst
    refine reads_current_bind fun line column ↦ ?_
    rw [if_neg (Bool.eq_false_iff.mp hopen)]
    exact reads_take?_bind_of_ne hboth fun _ _ ↦ hne

end

/-! ### Expressions -/

/-- A token that does not continue an operand. -/
def EndsOperand (t : Token) : Prop :=
  t ≠ .punctuation .leftParen ∧ t ≠ .punctuation .leftBracket ∧ t ≠ .punctuation .dot

/-- A token that does not continue an expression. -/
def EndsExpression (t : Token) : Prop :=
  ((EndsOperand t ∧ productOp? t = none) ∧ sumOp? t = none) ∧ compareOp? t = none

section

variable {P : List Token → Expr → Prop} {op? : Token → Option ArithOp} {operators : List ArithOp}
  {operand : Reading Expr} {F : Token → Prop} {limit bound : Nat} {text : List Token} {e : Expr}

/-- A chain is read up to its last operand, and goes on from there. -/
theorem chain_eq_chainOnto (hops : ∀ t op, op? t = some op ↔ t = .arith op ∧ op ∈ operators)
    (hoperand : ∀ {text e}, P text e → text.length ≤ limit → Reads operand text e F)
    (hF : ∀ op ∈ operators, F (.arith op)) (h : Chain operators P text e)
    (hlimit : text.length ≤ limit) (hbound : text.length ≤ bound) :
    ∃ k, bound ≤ k + text.length ∧ ∀ ts rest, ts.map PlacedToken.token = text → F (next rest) →
      chain bound op? operand (ts ++ rest) = chainOnto op? operand e k rest := by
  induction h with
  | @one text e h =>
    refine ⟨bound, Nat.le_add_right _ _, fun ts rest hts hrest ↦ ?_⟩
    rw [chain, run_bind, hoperand h hlimit ts rest hts hrest]
    rfl
  | @more left right op a b hleft hop hright ih =>
    rw [List.length_append, List.length_cons] at hlimit hbound ⊢
    obtain ⟨k, hk, hchain⟩ := ih (by omega) (by omega)
    obtain ⟨k, rfl⟩ : ∃ k', k = k' + 1 := ⟨k - 1, by omega⟩
    refine ⟨k, by omega, fun ts rest hts hrest ↦ ?_⟩
    obtain ⟨ts₁, ts₂, rfl, hts₁, hts₂⟩ := List.map_eq_append_iff.mp hts
    obtain ⟨t, ts₂, rfl, ht, hts₂⟩ := List.map_eq_cons_iff.mp hts₂
    have hnext : F (next (t :: ts₂ ++ rest)) := by
      show F t.token
      exact ht ▸ hF op hop
    rw [List.append_assoc, hchain ts₁ _ hts₁ hnext]
    have hop? : op? t.token = some op := (hops _ _).mpr ⟨ht, hop⟩
    have hcurrent : chainOnto op? operand a (k + 1) (t :: ts₂ ++ rest) =
        (operand (ts₂ ++ rest)).bind fun p ↦ chainOnto op? operand (.arith op a p.1) k p.2 := by
      rw [chainOnto, List.cons_append, current_bind, List.headD_cons, hop?]
      rfl
    rw [hcurrent, hoperand hright (by omega) ts₂ rest hts₂ hrest]
    rfl

theorem reads_chain (hops : ∀ t op, op? t = some op ↔ t = .arith op ∧ op ∈ operators)
    (hoperand : ∀ {text e}, P text e → text.length ≤ limit → Reads operand text e F)
    (hF : ∀ op ∈ operators, F (.arith op)) (h : Chain operators P text e)
    (hlimit : text.length ≤ limit) (hbound : text.length ≤ bound) :
    Reads (chain bound op? operand) text e fun t ↦ F t ∧ op? t = none := by
  obtain ⟨k, -, hchain⟩ := chain_eq_chainOnto hops hoperand hF h hlimit hbound
  intro ts rest hts hrest
  rw [hchain ts rest hts hrest.1]
  cases k with
  | zero => rfl
  | succ k =>
    have hend : Reads (chainOnto op? operand e (k + 1)) [] e fun t ↦ op? t = none := by
      refine reads_current_bind_nil fun t ht ↦ ?_
      rw [ht]
      exact reads_pure
    exact hend [] rest rfl hrest.2

theorem reads_expressionOver
    (hoperand : ∀ {text e}, P text e → text.length ≤ limit → Reads operand text e EndsOperand)
    (h : ExpressionOver P text e) (hlimit : text.length ≤ limit) (hbound : text.length ≤ bound) :
    Reads (expressionOver bound operand) text e EndsExpression := by
  have hends (op : ArithOp) : EndsOperand (.arith op) := ⟨nofun, nofun, nofun⟩
  have hproduct {text : List Token} {e : Expr} (h : Chain [.mul, .div] P text e)
      (hlimit : text.length ≤ min limit bound) :=
    reads_chain productOp?_eq_some hoperand (fun op _ ↦ hends op) h
      (Nat.le_trans hlimit (Nat.min_le_left _ _)) (Nat.le_trans hlimit (Nat.min_le_right _ _))
  have hsum {text : List Token} {e : Expr} (h : Chain [.add, .sub] (Chain [.mul, .div] P) text e)
      (hlimit : text.length ≤ limit) (hbound : text.length ≤ bound) :=
    reads_chain sumOp?_eq_some hproduct
      (fun op hop ↦ ⟨hends op, by cases op <;> first | rfl | simp at hop⟩) h
      (Nat.le_min.mpr ⟨hlimit, hbound⟩) hbound
  cases h with
  | sum h =>
    refine (hsum h hlimit hbound).bind_nil (reads_current_bind_nil fun t ht ↦ ?_) fun t ht ↦ ht.1
    rw [ht.2]
    exact reads_pure
  | @compare left right a b op hleft hright =>
    rw [List.length_append, List.length_cons] at hlimit hbound
    refine (hsum hleft (by omega) (by omega)).bind (reads_current_bind fun _ _ ↦ ?_) fun t _ ↦ ?_
    · refine reads_advance_bind ((hsum hright (by omega) (by omega)).bind_nil
        (reads_current_bind_nil fun t ht ↦ ?_) fun t ht ↦ ht.1)
      rw [ht.2]
      exact reads_pure
    · exact ⟨⟨⟨nofun, nofun, nofun⟩, rfl⟩, rfl⟩

theorem endsExpression_mark {mark : Punctuation}
    (h : mark ≠ .leftParen ∧ mark ≠ .leftBracket ∧ mark ≠ .dot) :
    EndsExpression (.punctuation mark) := by
  refine ⟨⟨⟨⟨?_, ?_, ?_⟩, rfl⟩, rfl⟩, rfl⟩
  · simpa using h.1
  · simpa using h.2.1
  · simpa using h.2.2

/-- Expressions up to a mark that begins none. -/
theorem reads_expressionsUpTo {expression : Reading Expr} {es : List Expr} {closing : Punctuation}
    (hexpression : ∀ {text e}, Expression text e → text.length ≤ limit →
      Reads expression text e EndsExpression)
    (hclosing : closing = .rightParen ∨ closing = .rightBracket) (h : Items Expression text es)
    (hlimit : text.length ≤ limit) (hbound : text.length ≤ bound) :
    Reads (itemsUpTo bound closing expression) (text ++ [.punctuation closing]) es Anything := by
  refine reads_itemsUpTo hexpression (endsExpression_mark (by decide)) ?_ ?_ (fun h ↦ ?_) h hlimit
    hbound
  · rcases hclosing with rfl | rfl <;> exact endsExpression_mark (by decide)
  · rcases hclosing with rfl | rfl <;> decide
  · refine h.begins.mono ?_
    rintro t ht rfl
    rcases hclosing with rfl | rfl <;> exact ht

theorem reads_endOfAccess : Reads (endOfAccess e) [] e EndsOperand := by
  refine reads_current_bind_nil fun t ht ↦ ?_
  rw [if_neg fun h ↦ h.elim ht.1 fun h ↦ h.elim ht.2.1 ht.2.2]
  exact reads_pure

/-- An operand is read, by induction on the levels of nesting. -/
theorem reads_operand (bound depth : Nat) : ∀ {text : List Token} {e : Expr}, Operand text e →
    text.length ≤ depth → text.length ≤ bound →
    Reads (Reading.operand bound depth) text e EndsOperand := by
  induction depth with
  | zero => exact fun h hdepth _ ↦ absurd (Nat.le_trans h.begins.length_pos hdepth) (by decide)
  | succ depth ih =>
    intro text e h hdepth hbound
    have hoperand {text : List Token} {e : Expr} (h : Operand text e)
        (hlimit : text.length ≤ min depth bound) :=
      ih h (Nat.le_trans hlimit (Nat.min_le_left _ _)) (Nat.le_trans hlimit (Nat.min_le_right _ _))
    have hexpression {text : List Token} {e : Expr} (h : Expression text e)
        (hlimit : text.length ≤ min depth bound) :
        Reads (expressionOver bound (Reading.operand bound depth)) text e EndsExpression :=
      reads_expressionOver hoperand h hlimit (Nat.le_trans hlimit (Nat.min_le_right _ _))
    cases h with
    | number value => exact reads_current_bind fun _ _ ↦ reads_advance_bind reads_pure
    | true => exact reads_current_bind fun _ _ ↦ reads_advance_bind reads_pure
    | false => exact reads_current_bind fun _ _ ↦ reads_advance_bind reads_pure
    | negation h =>
      rw [List.length_cons] at hdepth hbound
      exact reads_current_bind fun _ _ ↦
        reads_advance_bind ((ih h (by omega) (by omega)).bind_nil reads_pure fun _ ht ↦ ht)
    | «variable» name =>
      refine reads_current_bind fun _ _ ↦ reads_advance_bind ?_
      refine reads_take?_bind_of_ne ?_ fun t ht ↦ ht.1
      refine reads_take?_bind_of_ne ?_ fun t ht ↦ ht.2.1
      exact reads_take?_bind_of_ne reads_pure fun t ht ↦ ht.2.2
    | @call text args name h =>
      simp only [List.length_append, List.length_cons, List.length_nil] at hdepth hbound
      have hlimit : text.length ≤ bound := by omega
      have hargs := reads_expressionsUpTo hexpression (.inl rfl) h (by omega) hlimit
      exact reads_current_bind fun _ _ ↦ reads_advance_bind
        (reads_take?_bind (hargs.bind_nil reads_endOfAccess fun _ _ ↦ trivial))
    | @index text position name h =>
      simp only [List.length_append, List.length_cons, List.length_nil] at hdepth hbound
      have hposition := hexpression h (by omega)
      refine reads_current_bind fun _ _ ↦ reads_advance_bind ?_
      refine reads_take?_bind_of_ne (reads_take?_bind ?_) fun _ _ ↦ nofun
      exact hposition.bind (reads_take_bind reads_endOfAccess)
        fun _ _ ↦ endsExpression_mark (by decide)
    | member object name =>
      refine reads_current_bind fun _ _ ↦ reads_advance_bind ?_
      refine reads_take?_bind_of_ne (reads_take?_bind_of_ne (reads_take?_bind ?_) ?_) ?_
      · exact reads_identifier_bind (reads_take?_bind_of_ne reads_endOfAccess fun t ht ↦ ht.1)
      · exact fun _ _ ↦ nofun
      · exact fun _ _ ↦ nofun
    | @methodCall text args object method h =>
      simp only [List.length_append, List.length_cons, List.length_nil] at hdepth hbound
      have hlimit : text.length ≤ bound := by omega
      have hargs := reads_expressionsUpTo hexpression (.inl rfl) h (by omega) hlimit
      refine reads_current_bind fun _ _ ↦ reads_advance_bind ?_
      refine reads_take?_bind_of_ne (reads_take?_bind_of_ne (reads_take?_bind ?_) ?_) ?_
      · exact reads_identifier_bind (reads_take?_bind
          (hargs.bind_nil reads_endOfAccess fun _ _ ↦ trivial))
      · exact fun _ _ ↦ nofun
      · exact fun _ _ ↦ nofun
    | @list text items h =>
      simp only [List.length_append, List.length_cons, List.length_nil] at hdepth hbound
      have hlimit : text.length ≤ bound := by omega
      have hitems := reads_expressionsUpTo hexpression (.inr rfl) h (by omega) hlimit
      exact reads_current_bind fun _ _ ↦
        reads_advance_bind (hitems.bind_nil reads_pure fun _ _ ↦ trivial)
    | @parens text e h =>
      simp only [List.length_append, List.length_cons, List.length_nil] at hdepth hbound
      have hinner := hexpression h (by omega)
      refine reads_current_bind fun _ _ ↦ reads_advance_bind ?_
      exact hinner.bind (reads_take_bind reads_pure) fun _ _ ↦ endsExpression_mark (by decide)

theorem reads_expression (h : Expression text e) (hbound : text.length ≤ bound) :
    Reads (expression bound) text e EndsExpression := by
  have hoperand {text : List Token} {e : Expr} (h : Operand text e)
      (hlimit : text.length ≤ bound) :=
    reads_operand bound (bound + 1) h (Nat.le_succ_of_le hlimit) hlimit
  exact reads_expressionOver hoperand h hbound hbound

end

/-! ### Statements -/

/-- A token that does not continue a statement. -/
def EndsStatement (t : Token) : Prop :=
  t ≠ .keyword .elseWord

section

variable {statement : Reading Stmt} {limit bound : Nat} {text : List Token}

theorem reads_line {st : Stmt} (h : Reads statement text st EndsStatement) :
    Reads (return [← statement]) text [st] EndsStatement :=
  h.bind_nil reads_pure fun _ ht ↦ ht

/-- An indented block of lines that begin as statements do. -/
theorem reads_indented {α β : Type} {P : List Token → α → Prop} {line : Reading (List β)}
    {contents : α → List β} {as : List α}
    (hline : ∀ {text a}, P text a → text.length ≤ limit →
      Reads line text (contents a) EndsStatement)
    (hbegins : ∀ {text a}, P text a → Begins StartsStatement text) (h : Indented P text as)
    (hlimit : text.length ≤ limit) (hbound : text.length ≤ bound) :
    Reads (indented bound line) text (as.flatMap contents) Anything := by
  cases h with
  | @mk text as h =>
    simp only [List.length_append, List.length_cons, List.length_nil] at hlimit hbound
    have hlines : Reads (linesUpTo (fun t ↦ t = .dedent || t = .endOfInput) line bound) text
        (as.flatMap contents) fun t ↦ (t = .dedent || t = .endOfInput) = true := by
      refine reads_linesUpTo hline (fun h ↦ (hbegins h).mono fun t ht ↦ ?_) ⟨nofun, rfl⟩
        (fun t ht ↦ ?_) h (by omega) (by omega)
      · obtain ⟨hnewline, hdedent, hend, helse⟩ := startsStatement_ne ht
        exact ⟨helse, by simp [hdedent, hend], hnewline⟩
      · rintro rfl
        exact absurd ht (by decide)
    exact reads_take_bind (reads_take_bind
      (hlines.bind (reads_take_bind reads_pure) fun _ _ ↦ rfl))

section

variable (hstatement : ∀ {text st}, Statement text st → text.length ≤ limit →
  Reads statement text st EndsStatement)

include hstatement

theorem reads_block {body : Block} (h : Indented Statement text body)
    (hlimit : text.length ≤ limit) (hbound : text.length ≤ bound) :
    Reads (indented bound (return [← statement])) text body Anything := by
  have hblock := reads_indented (fun h hlimit ↦ reads_line (hstatement h hlimit))
    Statement.begins h hlimit hbound
  rwa [List.flatMap_singleton'] at hblock

theorem reads_routine {r : Routine Block} (h : RoutineOver Statement text r)
    (hlimit : text.length ≤ limit + 1) (hbound : text.length ≤ bound) :
    Reads (routine bound statement) text r Anything := by
  cases h with
  | @mk parameters text params body name hparams hbody =>
    simp only [List.length_append, List.length_cons] at hlimit hbound
    have hname {text : List Token} {name : String} (h : Name text name)
        (_ : text.length ≤ bound) : Reads identifier text name Anything := by
      cases h with
      | mk => exact reads_identifier name
    have hbegins {text : List Token} {name : String} (h : Name text name) :
        Begins (· ≠ .punctuation .rightParen) text := by
      cases h with
      | mk => exact begins_cons nofun
    have hnames : Reads (itemsUpTo bound .rightParen identifier)
        (parameters ++ [.punctuation .rightParen]) params Anything :=
      reads_itemsUpTo hname trivial trivial (by decide) hbegins hparams (by omega) (by omega)
    have hblock : Reads (indented bound (return [← statement])) text body Anything :=
      reads_block hstatement hbody (by omega) (by omega)
    rw [List.append_cons]
    exact reads_take_bind (reads_identifier_bind (reads_take_bind (hnames.bind
      (reads_take_bind (hblock.bind_nil reads_pure fun _ _ ↦ trivial)) fun _ _ ↦ trivial)))

theorem reads_member {rs : List (Routine Block)} (h : MemberOver Statement text rs)
    (hlimit : text.length ≤ limit) (hbound : text.length ≤ bound) :
    Reads (member bound statement) text rs EndsStatement := by
  cases h with
  | @method text r h =>
    have hroutine := reads_routine hstatement h (Nat.le_succ_of_le hlimit) hbound
    obtain ⟨t, text, rfl, rfl⟩ := h.begins
    exact reads_current_bind fun _ _ ↦ hroutine.bind_nil reads_pure fun _ _ ↦ trivial
  | pass =>
    exact reads_current_bind fun _ _ ↦ reads_advance_bind (reads_take_bind reads_pure)

end

theorem reads_rangeArgument {stop : Expr} (h : Expression text stop)
    (hbound : text.length ≤ bound) :
    Reads (rangeArgument bound) (.identifier "range" :: .punctuation .leftParen :: text ++
      [.punctuation .rightParen]) stop Anything := by
  have hexpression {text : List Token} {e : Expr} (h : Expression text e)
      (hlimit : text.length ≤ bound) := reads_expression h hlimit
  have hargs := reads_expressionsUpTo hexpression (.inl rfl) (.some (.one h)) hbound hbound
  refine reads_current_bind_any fun t ↦ reads_identifier_bind ?_
  rw [if_neg (not_not_intro rfl)]
  exact reads_take_bind (hargs.bind_nil reads_pure fun _ _ ↦ trivial)

theorem endsExpression_newline : EndsExpression .newline :=
  ⟨⟨⟨⟨nofun, nofun, nofun⟩, rfl⟩, rfl⟩, rfl⟩

/-- An assignment to what the target names. -/
theorem reads_assignment {target : List Token} {e value : Expr} {st : Stmt}
    (htarget : Expression target e) (hvalue : Expression text value)
    (hst : assignment? value e = some st) (htargetBound : target.length ≤ bound)
    (hbound : text.length ≤ bound) :
    Reads (simpleLine bound) (target ++ .punctuation .assign :: text ++ [.newline]) st
      Anything := by
  refine reads_current_bind_any fun t ↦ ?_
  rw [List.append_assoc]
  refine (reads_expression htarget htargetBound).bind (reads_take?_bind
    ((reads_expression hvalue hbound).bind (reads_take_bind ?_) fun _ _ ↦ ?_)) fun _ _ ↦ ?_
  · rw [hst]
    exact reads_pure
  · exact endsExpression_newline
  · exact endsExpression_mark (by decide)

theorem reads_simpleLine {value : Expr} (h : Expression text value)
    (hbound : text.length ≤ bound) :
    Reads (simpleLine bound) (text ++ [.newline]) (.expr value) Anything := by
  refine reads_current_bind_any fun t ↦ ?_
  exact (reads_expression h hbound).bind (reads_take?_bind_of_ne (reads_take_bind reads_pure)
    fun _ _ ↦ nofun) fun _ _ ↦ endsExpression_newline

/-- A line that does not begin with the keyword of a statement. -/
theorem reads_statement_simple {st : Stmt} {depth : Nat} (hbegins : Begins StartsOperand text)
    (h : Reads (simpleLine bound) text st Anything) :
    Reads (Reading.statement bound (depth + 1)) text st EndsStatement := by
  obtain ⟨t, text, rfl, hstarts⟩ := hbegins
  rw [Reading.statement]
  refine reads_current_bind fun line column ↦ ?_
  split
  case h_9 => exact h.mono fun _ _ ↦ trivial
  all_goals
    next ht =>
      cases ht
      exact hstarts.elim

/-- A statement is read, by induction on the levels of nesting. -/
theorem reads_statement (bound depth : Nat) : ∀ {text : List Token} {st : Stmt},
    Statement text st → text.length ≤ depth → text.length ≤ bound →
    Reads (Reading.statement bound depth) text st EndsStatement := by
  induction depth with
  | zero => exact fun h hdepth _ ↦ absurd (Nat.le_trans h.begins.length_pos hdepth) (by decide)
  | succ depth ih =>
    intro text st h hdepth hbound
    have hstatement {text : List Token} {st : Stmt} (h : Statement text st)
        (hlimit : text.length ≤ min depth bound) :
        Reads (Reading.statement bound depth) text st EndsStatement :=
      ih h (Nat.le_trans hlimit (Nat.min_le_left _ _)) (Nat.le_trans hlimit (Nat.min_le_right _ _))
    have hblock {text : List Token} {body : Block} (h : Indented Statement text body)
        (hlimit : text.length ≤ min depth bound) :
        Reads (indented bound (return [← Reading.statement bound depth])) text body Anything :=
      reads_block hstatement h hlimit (Nat.le_trans hlimit (Nat.min_le_right _ _))
    cases h with
    | @print text value h =>
      simp only [List.length_append, List.length_cons, List.length_nil] at hdepth hbound
      refine reads_current_bind fun _ _ ↦ reads_advance_bind (reads_take_bind ?_)
      exact (reads_expression h (by omega)).bind (reads_take_bind (reads_take_bind reads_pure))
        fun _ _ ↦ endsExpression_mark (by decide)
    | @define text r h =>
      have hroutine := reads_routine hstatement h (by omega) hbound
      obtain ⟨t, text, rfl, rfl⟩ := h.begins
      exact reads_current_bind fun _ _ ↦ hroutine.bind_nil reads_pure fun _ _ ↦ trivial
    | @defineClass text members name h =>
      simp only [List.length_cons] at hdepth hbound
      have hmember {text : List Token} {rs : List (Routine Block)}
          (h : MemberOver Statement text rs) (hlimit : text.length ≤ min depth bound) :=
        reads_member hstatement h hlimit (Nat.le_trans hlimit (Nat.min_le_right _ _))
      have hmembers : Reads (indented bound (member bound (Reading.statement bound depth))) text
          (members.flatMap id) Anything :=
        reads_indented hmember MemberOver.begins h (by omega) (by omega)
      rw [List.flatMap_id] at hmembers
      exact reads_current_bind fun _ _ ↦ reads_advance_bind (reads_identifier_bind (reads_take_bind
        (hmembers.bind_nil reads_pure fun _ _ ↦ trivial)))
    | returnNone =>
      exact reads_current_bind fun _ _ ↦ reads_advance_bind (reads_take?_bind reads_pure)
    | @returnSome text value h =>
      simp only [List.length_append, List.length_cons, List.length_nil] at hdepth hbound
      have hbegins : Begins (· ≠ .newline) (text ++ [.newline]) := by
        refine (h.begins.mono ?_).append
        rintro t ht rfl
        exact ht
      refine reads_current_bind fun _ _ ↦ reads_advance_bind
        (reads_take?_bind_of_ne ?_ fun t _ ↦ hbegins.headD t)
      exact (reads_expression h (by omega)).bind (reads_take_bind reads_pure)
        fun _ _ ↦ endsExpression_newline
    | @ifThen test text condition body hcondition hbody =>
      simp only [List.length_append, List.length_cons] at hdepth hbound
      refine reads_current_bind fun _ _ ↦ reads_advance_bind ?_
      refine (reads_expression hcondition (by omega)).bind (reads_take_bind ?_)
        fun _ _ ↦ endsExpression_mark (by decide)
      exact (hblock hbody (by omega)).bind_nil (reads_take?_bind_of_ne reads_pure fun _ ht ↦ ht)
        fun _ _ ↦ trivial
    | @ifElse test first second condition body orelse hcondition hbody horelse =>
      simp only [List.length_append, List.length_cons] at hdepth hbound
      rw [List.append_assoc]
      refine reads_current_bind fun _ _ ↦ reads_advance_bind ?_
      refine (reads_expression hcondition (by omega)).bind (reads_take_bind ?_)
        fun _ _ ↦ endsExpression_mark (by decide)
      refine (hblock hbody (by omega)).bind (reads_take?_bind (reads_take_bind ?_))
        fun _ _ ↦ trivial
      exact (hblock horelse (by omega)).bind_nil reads_pure fun _ _ ↦ trivial
    | @whileLoop test text condition body hcondition hbody =>
      simp only [List.length_append, List.length_cons] at hdepth hbound
      refine reads_current_bind fun _ _ ↦ reads_advance_bind ?_
      refine (reads_expression hcondition (by omega)).bind (reads_take_bind ?_)
        fun _ _ ↦ endsExpression_mark (by decide)
      exact (hblock hbody (by omega)).bind_nil reads_pure fun _ _ ↦ trivial
    | @forRange stopText text stop body name hstop hbody =>
      simp only [List.length_append, List.length_cons] at hdepth hbound
      rw [List.append_cons]
      refine reads_current_bind fun _ _ ↦ reads_advance_bind
        (reads_identifier_bind (reads_take_bind ?_))
      refine (reads_rangeArgument hstop (by omega)).bind (reads_take_bind ?_) fun _ _ ↦ trivial
      exact (hblock hbody (by omega)).bind_nil reads_pure fun _ _ ↦ trivial
    | pass =>
      exact reads_current_bind fun _ _ ↦ reads_advance_bind (reads_take_bind reads_pure)
    | @expr text value h =>
      simp only [List.length_append, List.length_cons] at hbound
      exact reads_statement_simple h.begins.append (reads_simpleLine h (by omega))
    | @assign target text value name htarget hvalue =>
      simp only [List.length_append, List.length_cons] at hbound
      exact reads_statement_simple htarget.begins.append.append
        (reads_assignment htarget hvalue rfl (by omega) (by omega))
    | @assignIndex target text position value name htarget hvalue =>
      simp only [List.length_append, List.length_cons] at hbound
      exact reads_statement_simple htarget.begins.append.append
        (reads_assignment htarget hvalue rfl (by omega) (by omega))
    | @assignAttribute target text value object name htarget hvalue =>
      simp only [List.length_append, List.length_cons] at hbound
      exact reads_statement_simple htarget.begins.append.append
        (reads_assignment htarget hvalue rfl (by omega) (by omega))

/-- A program is read up to the end of the input. -/
theorem reads_program {p : Block} (h : Program text p) (hbound : text.length ≤ bound) :
    Reads (program bound) text p (· = .endOfInput) := by
  have hstatement {text : List Token} {st : Stmt} (h : Statement text st)
      (hlimit : text.length ≤ bound) :
      Reads (return [← Reading.statement bound (bound + 1)]) text [st] EndsStatement :=
    reads_line (reads_statement bound _ h (Nat.le_succ_of_le hlimit) hlimit)
  have hlines : Reads (program bound) text (p.flatMap fun st ↦ [st])
      fun t ↦ decide (t = .endOfInput) = true := by
    refine reads_linesUpTo hstatement (fun h ↦ h.begins.mono fun t ht ↦ ?_) ⟨nofun, rfl⟩
      (fun t ht ↦ ?_) h hbound hbound
    · obtain ⟨hnewline, -, hend, helse⟩ := startsStatement_ne ht
      exact ⟨helse, decide_eq_false hend, hnewline⟩
    · rintro rfl
      exact absurd ht (by decide)
  rw [List.flatMap_singleton'] at hlines
  exact hlines.mono fun t ht ↦ decide_eq_true ht

end

end Offside.Reading
