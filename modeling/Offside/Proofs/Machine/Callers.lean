import Offside.Proofs.Machine.Balance
import Offside.Proofs.Machine.Moves

/-!
What a call leaves to its caller. While a call is open, its routine and all that it calls write
variables of their own frames only, so the frames below are as they were at the call (`Opened`). In
a balanced executable they take nothing from the stack that the caller has left there either, and
when the routine returns, the value that it returns stands right above that (`Above`). So the caller
goes on behind its call with what it left and one value more.
-/

set_option autoImplicit false
set_option relaxedAutoImplicit false

namespace Offside.Machine

/-- A step that does not end the run, with more than the given number of calls open behind it. -/
def AdvancesWithin (e : Executable) (depth : Nat) (m m' : Machine) : Prop :=
  Advances e m m' ∧ depth < m'.calls.length

/-- Steps with more than the given number of calls open all the way. -/
abbrev Within (e : Executable) (depth : Nat) : Machine → Machine → Prop :=
  Relation.ReflTransGen (AdvancesWithin e depth)

/-! ### The frames of the callers -/

/-- The call that `m` opened, with the given origin, is open in `m'`, above the calls of `m`. -/
structure Opened (m : Machine) (o : Code × Nat × Option Value) (m' : Machine) : Prop where
  globals : m'.globals = m.globals
  calls : ∃ inner call, m'.calls = inner ++ call :: m.calls ∧ origin call = o

/-- The call that `m` opened, with the given origin, has been returned from. -/
structure Returned (m : Machine) (o : Code × Nat × Option Value) (m' : Machine) : Prop where
  globals : m'.globals = m.globals
  calls : m'.calls = m.calls
  code : m'.code = o.1
  place : m'.place = o.2.1

section

variable {e : Executable} {m m₁ m₂ : Machine} {o : Code × Nat × Option Value}

theorem Opened.depth_lt (h : Opened m o m₁) : m.calls.length < m₁.calls.length := by
  obtain ⟨inner, call, hcalls, -⟩ := h.calls
  rw [hcalls, List.length_append, List.length_cons]
  omega

theorem Opened.top (h : Opened m o m₁) {call : Call} (hcalls : m₁.calls = call :: m.calls) :
    origin call = o := by
  obtain ⟨inner, call', hcalls', horigin⟩ := h.calls
  rw [hcalls] at hcalls'
  cases inner with
  | nil => rwa [(List.cons.inj hcalls').1]
  | cons top inner =>
    have hlength : m.calls.length = (inner ++ call' :: m.calls).length :=
      congrArg List.length (List.cons.inj hcalls').2
    rw [List.length_append, List.length_cons] at hlength
    omega

/-- What passes within a call changes the variables of its frame only. -/
theorem Passes.calls_eq {kept : String → Prop} (h : Passes kept m₁ m₂) {call : Call}
    {calls : List Call} (hcalls : m₁.calls = call :: calls) :
    m₂.globals = m₁.globals ∧ ∃ call', m₂.calls = call' :: calls ∧ origin call' = origin call := by
  have houter := h.outer
  unfold Machine.outer at houter
  rw [hcalls] at houter
  cases hcalls' : m₂.calls with
  | nil =>
    rw [hcalls'] at houter
    cases houter
  | cons call' calls' =>
    rw [hcalls'] at houter
    obtain ⟨hglobals, hcall, rfl⟩ : m₂.globals = m₁.globals ∧
        ({ call' with locals := .empty } : Call) = { call with locals := .empty } ∧
          calls' = calls := by simpa using houter
    have horigin : origin { call' with locals := .empty } = origin { call with locals := .empty } :=
      congrArg origin hcall
    exact ⟨hglobals, call', rfl, horigin⟩

theorem opened_enter {r : Routine Code} {args rest : List Value} {made : Option Value} {place : Nat}
    (h : Follows m m₁ place rest) : Opened m (m.code, place, made) (m₁.enter r args made) :=
  ⟨h.globals, [], ⟨.ofList (r.params.zip args), m₁.code, m₁.place, made⟩,
    congrArg (_ :: ·) h.calls, by rw [origin, h.code, h.place]⟩

/-- A step leaves the frames of the callers alone, and ends the call only by a return from it. -/
theorem Opened.goes (h : Opened m o m₁) (hgoes : Goes m₁ m₂) :
    Opened m o m₂ ∨ Returned m o m₂ := by
  obtain ⟨inner, call, hcalls, horigin⟩ := h.calls
  cases hgoes with
  | stays i _ rest given hi hpasses hleads htakes hgiven hstack =>
    refine .inl ?_
    cases inner with
    | nil =>
      obtain ⟨hglobals, call', hcalls', horigin'⟩ := Passes.calls_eq hpasses hcalls
      exact ⟨hglobals.trans h.globals, [], call', hcalls', horigin'.trans horigin⟩
    | cons top inner =>
      obtain ⟨hglobals, top', hcalls', -⟩ := Passes.calls_eq hpasses hcalls
      exact ⟨hglobals.trans h.globals, top' :: inner, call, hcalls', horigin⟩
  | enters i m' r args rest hi hr hfalls hpushes htakes hfollows =>
    refine .inl ⟨hfollows.globals.trans h.globals,
      ⟨.ofList (r.params.zip args), m'.code, m'.place, m₁.newInstance? i⟩ :: inner, call, ?_,
      horigin⟩
    exact congrArg (_ :: ·) (hfollows.calls.trans hcalls)
  | returns value rest top _ hvalue hcalls' hglobals hcode hplace hstack =>
    rw [hcalls] at hcalls'
    cases inner with
    | nil =>
      obtain ⟨rfl, hrest⟩ := List.cons.inj hcalls'
      rw [← horigin]
      exact .inr ⟨hglobals.trans h.globals, hrest.symm, hcode, hplace⟩
    | cons top' inner =>
      obtain ⟨-, hrest⟩ := List.cons.inj hcalls'
      exact .inl ⟨hglobals.trans h.globals, inner, call, hrest.symm, horigin⟩

/-- While as many calls are open as at the start of the call, the call is. -/
theorem Opened.within (h : Opened m o m₁) (hwithin : Within e m.calls.length m₁ m₂) :
    Opened m o m₂ := by
  induction hwithin with
  | refl => exact h
  | tail _ hstep ih =>
    obtain ⟨hadvances, hdepth⟩ := hstep
    refine (ih.goes hadvances.goes).resolve_right fun hreturned ↦ ?_
    rw [hreturned.calls] at hdepth
    exact Nat.lt_irrefl _ hdepth

end

/-! ### The stack of the callers -/

/-- A routine of the executable with heights of its code, and a place of it. -/
structure StandsIn (e : Executable) (r : Routine Code) (height : Nat → Nat) (place : Nat) :
    Prop where
  holds : e.Holds r
  heights : r.body.Heights height
  inside : ∀ place (i : Instr) next, r.body[place]? = some i → i.LeadsTo place next →
    next < r.body.size
  place_lt : place < r.body.size

/-- A machine at a place of a routine, with the given callers, has so many values on its stack. The
lowest of its routines was entered with `depth` calls open and `floor` values on the stack, and no
call has taken one of them. -/
inductive Above (e : Executable) (depth floor : Nat) :
    Code → Nat → List (Code × Nat × Option Value) → Nat → Prop
  | bottom (r : Routine Code) (height : Nat → Nat) (place : Nat)
    (origins : List (Code × Nat × Option Value)) (hstands : StandsIn e r height place)
    (hdepth : origins.length = depth + 1) :
    Above e depth floor r.body place origins (height place + floor)
  | inner (r : Routine Code) (height : Nat → Nat) (place : Nat) (origin : Code × Nat × Option Value)
    (origins : List (Code × Nat × Option Value)) (below : Nat) (hstands : StandsIn e r height place)
    (hfloor : floor ≤ below)
    (hcaller : Above e depth floor origin.1 origin.2.1 origins (below + 1)) :
    Above e depth floor r.body place (origin :: origins) (height place + below)

section

variable {e : Executable} {depth floor : Nat} {code : Code} {place n : Nat}
  {origins : List (Code × Nat × Option Value)} {i : Instr}

theorem StandsIn.leads {r : Routine Code} {height : Nat → Nat} (h : StandsIn e r height place)
    (hi : r.body[place]? = some i) {next : Nat} (hleads : i.LeadsTo place next) :
    StandsIn e r height next ∧ height next + i.pops = height place + i.pushes :=
  ⟨⟨h.holds, h.heights, h.inside, h.inside place i next hi hleads⟩,
    (h.heights.edge place i next hi hleads).2⟩

theorem standsIn_start (he : e.Balanced) {r : Routine Code} (hr : e.Holds r) :
    ∃ height, StandsIn e r height 0 ∧ height 0 = 0 := by
  obtain ⟨height, hheights, hsize, hinside⟩ := he.routines r hr
  exact ⟨height, ⟨hr, hheights, hinside, hsize⟩, hheights.start⟩

/-- An instruction finds its operands above the floor. -/
theorem Above.pops_le (h : Above e depth floor code place origins n) (hi : code[place]? = some i) :
    i.pops + floor ≤ n := by
  cases h with
  | bottom r height place origins hstands hdepth =>
    exact Nat.add_le_add_right (hstands.heights.enough place i hi) floor
  | inner r height place origin origins below hstands hfloor hcaller =>
    exact Nat.add_le_add (hstands.heights.enough place i hi) hfloor

theorem Above.leads (h : Above e depth floor code place origins n) (hi : code[place]? = some i)
    {next k : Nat} (hleads : i.LeadsTo place next) (hk : k + i.pops = n + i.pushes) :
    Above e depth floor code next origins k := by
  cases h with
  | bottom r height place origins hstands hdepth =>
    obtain ⟨hnext, heq⟩ := hstands.leads hi hleads
    obtain rfl : k = height next + floor := by omega
    exact .bottom r height next origins hnext hdepth
  | inner r height place origin origins below hstands hfloor hcaller =>
    obtain ⟨hnext, heq⟩ := hstands.leads hi hleads
    obtain rfl : k = height next + below := by omega
    exact .inner r height next origin origins below hnext hfloor hcaller

/-- A return leaves the lowest routine with its value right above the floor, or goes on above it. -/
theorem Above.returns {origin : Code × Nat × Option Value}
    (h : Above e depth floor code place (origin :: origins) n)
    (hi : code[place]? = some .returnValue) :
    (origins.length = depth ∧ n = floor + 1) ∨
      Above e depth floor origin.1 origin.2.1 origins n := by
  cases h with
  | bottom r height place origins hstands hdepth =>
    rw [hstands.heights.returns place hi, Nat.add_comm]
    exact .inl ⟨Nat.succ.inj hdepth, rfl⟩
  | inner r height place origin origins below hstands hfloor hcaller =>
    rw [hstands.heights.returns place hi, Nat.add_comm]
    exact .inr hcaller

theorem Above.place_lt (h : Above e depth floor code place origins n) : place < code.size := by
  cases h with
  | bottom r height place origins hstands hdepth => exact hstands.place_lt
  | inner r height place origin origins below hstands hfloor hcaller => exact hstands.place_lt

theorem Above.depth_lt (h : Above e depth floor code place origins n) : depth < origins.length := by
  induction h with
  | bottom r height place origins hstands hdepth => omega
  | inner r height place origin origins below hstands hfloor hcaller ih =>
    exact Nat.lt_succ_of_lt ih

/-- A call starts above the values that it leaves to its caller. -/
theorem Above.enter (he : e.Balanced) {r : Routine Code} (hr : e.Holds r)
    (h : Above e depth floor code place origins n) (hi : code[place]? = some i)
    (hfalls : i.fallsThrough = true) (hpushes : i.pushes = 1) {below : Nat}
    (hbelow : below + i.pops = n) (made : Option Value) :
    Above e depth floor r.body 0 ((code, place + 1, made) :: origins) below := by
  obtain ⟨height, hstands, hstart⟩ := standsIn_start he hr
  have hfloor : floor ≤ below := by
    have := h.pops_le hi
    omega
  have hcaller : Above e depth floor code (place + 1) origins (below + 1) :=
    h.leads hi (.inl ⟨hfalls, rfl⟩) (by omega)
  have habove := Above.inner r height 0 (code, place + 1, made) origins below hstands hfloor hcaller
  rwa [hstart, Nat.zero_add] at habove

end

/-- The stack ends in the given values, and the routines above them do not take any. -/
structure Rests (e : Executable) (depth : Nat) (floor : List Value) (m : Machine) : Prop where
  suffix : floor <:+ m.stack
  above : Above e depth floor.length m.code m.place (m.calls.map origin) m.stack.length

section

variable {e : Executable} {depth : Nat} {floor : List Value} {m m₁ m₂ : Machine} {i : Instr}

theorem Passes.origins_eq {kept : String → Prop} (h : Passes kept m₁ m₂) :
    m₂.calls.map origin = m₁.calls.map origin := by
  cases hcalls : m₁.calls with
  | nil =>
    have houter := h.outer
    rw [show m₁.outer = none by unfold Machine.outer; rw [hcalls]] at houter
    rw [calls_eq_nil houter]
  | cons call calls =>
    obtain ⟨-, call', hcalls', horigin⟩ := h.calls_eq hcalls
    rw [hcalls', List.map_cons, List.map_cons, horigin]

theorem Takes.length {rest : List Value} (h : m.Takes i rest) :
    rest.length + i.pops = m.stack.length := by
  obtain ⟨taken, hstack, htaken⟩ := h
  rw [hstack, List.length_append, htaken, Nat.add_comm]

/-- What an instruction leaves on the stack ends in what it finds enough above. -/
theorem Takes.suffix {rest : List Value} (h : m.Takes i rest) (hsuffix : floor <:+ m.stack)
    (hpops : i.pops + floor.length ≤ m.stack.length) : floor <:+ rest := by
  have hlength := h.length
  obtain ⟨taken, hstack, -⟩ := h
  exact List.suffix_of_suffix_length_le hsuffix (hstack ▸ List.suffix_append _ _) (by omega)

/-- A call of a balanced executable rests on what the call instruction leaves on the stack. -/
theorem rests_enter (he : e.Balanced) {r : Routine Code} (hr : e.Holds r) {args : List Value}
    {made : Option Value} {place : Nat} (h : Follows m m₁ place floor) :
    Rests e m.calls.length floor (m₁.enter r args made) := by
  obtain ⟨height, hstands, hstart⟩ := standsIn_start he hr
  have hdepth : ((m₁.enter r args made).calls.map origin).length = m.calls.length + 1 := by
    rw [List.length_map, ← h.calls]
    rfl
  have habove : Above e m.calls.length floor.length r.body 0 _ (height 0 + floor.length) :=
    .bottom r height 0 _ hstands hdepth
  rw [hstart, Nat.zero_add] at habove
  obtain rfl := h.stack
  exact ⟨List.suffix_rfl, habove⟩

theorem Rests.depth_lt (h : Rests e depth floor m) : depth < m.calls.length := by
  have hdepth := h.above.depth_lt
  rwa [List.length_map] at hdepth

/-- A step leaves the floor on the stack, and ends the lowest call with its value right above. -/
theorem Rests.goes (he : e.Balanced) (hloaded : Loaded e m₁) (h : Rests e depth floor m₁)
    (hgoes : Goes m₁ m₂) :
    Rests e depth floor m₂ ∨ ∃ value call, m₁.code[m₁.place]? = some .returnValue ∧
      m₁.stack = value :: floor ∧ m₁.calls = call :: m₂.calls ∧ m₂.calls.length = depth ∧
        m₂.stack = call.constructed.getD value :: floor := by
  obtain ⟨hsuffix, habove⟩ := h
  cases hgoes with
  | stays i _ rest given hi hpasses hleads htakes hgiven hstack =>
    have hlength := htakes.length
    refine .inl ⟨?_, ?_⟩
    · rw [hstack]
      exact (htakes.suffix hsuffix (habove.pops_le hi)).trans (List.suffix_append _ _)
    · rw [Passes.origins_eq hpasses, hpasses.code]
      refine habove.leads hi hleads ?_
      rw [hstack, List.length_append]
      omega
  | enters i m' r args rest hi hr hfalls hpushes htakes hfollows =>
    refine .inl ⟨?_, ?_⟩
    · show floor <:+ m'.stack
      rw [hfollows.stack]
      exact htakes.suffix hsuffix (habove.pops_le hi)
    · show Above e depth floor.length r.body 0
        ((m'.code, m'.place, m₁.newInstance? i) :: m'.calls.map origin) m'.stack.length
      rw [hfollows.code, hfollows.place, hfollows.calls, hfollows.stack]
      exact habove.enter he (hloaded.holds hr) hi hfalls hpushes htakes.length _
  | returns value rest call _ hvalue hcalls hglobals hcode hplace hstack =>
    obtain ⟨hi, hstack₁⟩ := hvalue.resolve_right (Nat.not_le_of_lt habove.place_lt)
    have htakes : m₁.Takes .returnValue rest := ⟨[value], hstack₁, rfl⟩
    have hrest := htakes.suffix hsuffix (habove.pops_le hi)
    rw [hcalls, List.map_cons, hstack₁, List.length_cons] at habove
    rcases habove.returns hi with ⟨hdepth, hlength⟩ | hcaller
    · rw [List.length_map] at hdepth
      obtain rfl := hrest.eq_of_length (Nat.succ.inj hlength).symm
      exact .inr ⟨value, call, hi, hstack₁, hcalls, hdepth, hstack⟩
    · refine .inl ⟨?_, ?_⟩
      · rw [hstack]
        exact hrest.trans (List.suffix_cons _ _)
      · rw [hcode, hplace, hstack, List.length_cons]
        exact hcaller

/-- While more calls are open than below the lowest routine, the floor is on the stack. -/
theorem Rests.within (he : e.Balanced) (hbalance : Balance e m₁) (h : Rests e depth floor m₁)
    (hwithin : Within e depth m₁ m₂) : Rests e depth floor m₂ ∧ Balance e m₂ := by
  induction hwithin with
  | refl => exact ⟨h, hbalance⟩
  | tail _ hstep ih =>
    obtain ⟨hadvances, hdepth⟩ := hstep
    obtain ⟨hrests, hbalance⟩ := ih
    refine ⟨(hrests.goes he hbalance.loaded hadvances.goes).resolve_right ?_,
      hbalance.reaches he (.single hadvances)⟩
    rintro ⟨-, -, -, -, -, hlength, -⟩
    omega

end

end Offside.Machine
