import AppendLists.Store.Basic

namespace AppendLists

/-!
# Sequences of calls

How a sequence of calls comes out, told from how its parts come out, and the decisions of a
compaction pass told one key at a time.

* `bind_eq_ok`, `bind_eq_error`: a computation that needs the result of another;
* `Call.bind_of_ok`, `Call.bind_of_error`, `Call.bind_eq_ok_iff`, `Call.bind_eq_error_iff`,
  `Call.bind_assoc`: one call and then the next;
* `Call.attempting_of_ok`, `Call.attempting_of_error`, `Call.attempting_eq_ok_iff`,
  `Call.attempting_eq_error_iff`: a call whose errors say what was attempted;
* `Call.Keeps`: what every outcome of a call keeps, with the rules for sequences of calls;
* `Filter.beside`: a filter that has a state of its own and leaves the store alone;
* `PureFilter`: a filter that has no state at all;
* `compact_of_capture_error`, `compact_of_decideAll_error`, `compact_of_decideAll`: a pass told from
  its steps;
* `decideOne`, `decideAll_cons`: one decision, and then the others;
* `decideAll_beside`: the decisions of a filter beside a store;
* `PureFilter.decisions`, `PureFilter.decideAll_eq`: the decisions of a pure filter.
-/

/-- What comes to a result came to one first. -/
theorem bind_eq_ok {ε α β : Type} {x : Except ε α} {f : α → Except ε β} {b : β}
    (h : x >>= f = .ok b) : ∃ a, x = .ok a ∧ f a = .ok b := by
  cases x with
  | error e => cases h
  | ok a => exact ⟨a, rfl, h⟩

/-- What fails failed at first, or behind what came first. -/
theorem bind_eq_error {ε α β : Type} {x : Except ε α} {f : α → Except ε β} {e : ε}
    (h : x >>= f = .error e) : x = .error e ∨ ∃ a, x = .ok a ∧ f a = .error e := by
  cases x with
  | error e' =>
    obtain rfl : e' = e := Except.error.inj h
    exact .inl rfl
  | ok a => exact .inr ⟨a, rfl, h⟩

namespace Call

variable {σ ε α β : Type} {call : Call σ ε α} {s s' : σ}

/-- Behind an answer the next call is made, on the store that is left. -/
theorem bind_of_ok {a : α} (h : call s = (.ok a, s')) (next : α → Call σ ε β) :
    (call >>= next) s = next a s' := by
  show Call.andThen call next s = _
  simp [andThen, h]

/-- Behind an error it is not. -/
theorem bind_of_error {e : ε} (h : call s = (.error e, s')) (next : α → Call σ ε β) :
    (call >>= next) s = (.error e, s') := by
  show Call.andThen call next s = _
  simp [andThen, h]

/-- Calls in turn answer if both do. -/
theorem bind_eq_ok_iff {next : α → Call σ ε β} {b : β} {s'' : σ} :
    (call >>= next) s = (.ok b, s'')
      ↔ ∃ a s', call s = (.ok a, s') ∧ next a s' = (.ok b, s'') := by
  rcases h : call s with ⟨e | a, s'⟩
  · rw [bind_of_error h]
    simp
  · rw [bind_of_ok h]
    constructor
    · intro hn
      exact ⟨a, s', rfl, hn⟩
    · rintro ⟨_, _, heq, hn⟩
      obtain ⟨ha, rfl⟩ := Prod.mk.inj heq
      obtain rfl := Except.ok.inj ha
      exact hn

/-- They fail if the first one does, or if the second one does behind it. -/
theorem bind_eq_error_iff {next : α → Call σ ε β} {e : ε} {s'' : σ} :
    (call >>= next) s = (.error e, s'')
      ↔ call s = (.error e, s'') ∨ ∃ a s', call s = (.ok a, s') ∧ next a s' = (.error e, s'') := by
  rcases h : call s with ⟨e' | a, s'⟩
  · rw [bind_of_error h]
    simp
  · rw [bind_of_ok h]
    constructor
    · intro hn
      exact .inr ⟨a, s', rfl, hn⟩
    · rintro (heq | ⟨_, _, heq, hn⟩)
      · cases heq
      · obtain ⟨ha, rfl⟩ := Prod.mk.inj heq
        obtain rfl := Except.ok.inj ha
        exact hn

/-- It does not matter how calls in turn are put together. -/
theorem bind_assoc {γ : Type} (call : Call σ ε α) (next : α → Call σ ε β) (last : β → Call σ ε γ) :
    (call >>= next) >>= last = call >>= fun a => next a >>= last := by
  funext s
  rcases h : call s with ⟨e | a, s'⟩
  · rw [bind_of_error (bind_of_error h next), bind_of_error h]
  · rw [bind_of_ok h]
    show andThen (andThen call next) last s = andThen (next a) last s'
    simp only [andThen, h]

/-- An attempt does not show in an answer. -/
theorem attempting_of_ok {call : Call σ StorageError α} {a : α} (attempt : Attempt)
    (h : call s = (.ok a, s')) : call.attempting attempt s = (.ok a, s') := by
  simp [attempting, mapError, h]

/-- It does in an error. -/
theorem attempting_of_error {call : Call σ StorageError α} {e : StorageError} (attempt : Attempt)
    (h : call s = (.error e, s')) :
    call.attempting attempt s = (.error (.access attempt e), s') := by
  simp [attempting, mapError, h]

/-- The answers are those of the store. -/
theorem attempting_eq_ok_iff {call : Call σ StorageError α} {attempt : Attempt} {a : α} :
    call.attempting attempt s = (.ok a, s') ↔ call s = (.ok a, s') := by
  rcases h : call s with ⟨e | b, s₁⟩
  · simp [attempting_of_error attempt h]
  · simp [attempting_of_ok attempt h]

/-- The errors are those of the store, with the attempt around them. -/
theorem attempting_eq_error_iff {call : Call σ StorageError α} {attempt : Attempt}
    {e : StateError} :
    call.attempting attempt s = (.error e, s')
      ↔ ∃ cause, e = .access attempt cause ∧ call s = (.error cause, s') := by
  rcases h : call s with ⟨cause | b, s₁⟩
  · rw [attempting_of_error attempt h]
    constructor
    · intro heq
      obtain ⟨he, rfl⟩ := Prod.mk.inj heq
      exact ⟨cause, (Except.error.inj he).symm, rfl⟩
    · rintro ⟨cause', rfl, heq⟩
      obtain ⟨he, rfl⟩ := Prod.mk.inj heq
      obtain rfl := Except.error.inj he
      rfl
  · rw [attempting_of_ok attempt h]
    simp

end Call

/-! ### Calls that keep a property -/

/-- Whatever becomes of a call, a store with `P` has it afterwards, and an answer satisfies `Q`. -/
def Call.Keeps {σ ε α : Type} (P : σ → Prop) (call : Call σ ε α) (Q : α → Prop) : Prop :=
  ∀ s, P s → P (call s).2 ∧ ∀ a, (call s).1 = .ok a → Q a

namespace Call.Keeps

variable {σ ε α β : Type} {P : σ → Prop} {call : Call σ ε α} {Q : α → Prop}

/-- An answer without a call keeps everything. -/
theorem answer {a : α} (h : Q a) : Keeps P (Call.answer a : Call σ ε α) Q := by
  intro s hs
  refine ⟨hs, ?_⟩
  rintro _ ⟨⟩
  exact h

/-- What is decided without the store keeps everything. -/
theorem ofExcept (r : Except ε α) : Keeps P (Call.ofExcept r) fun a => r = .ok a := by
  intro s hs
  cases r with
  | error e => exact ⟨hs, nofun⟩
  | ok a =>
    refine ⟨hs, ?_⟩
    rintro _ ⟨⟩
    rfl

/-- If the first call fails, that is all; otherwise its answer satisfies what the next one needs. -/
theorem bind (h : Keeps P call Q) {next : α → Call σ ε β} {R : β → Prop}
    (hnext : ∀ a, Q a → Keeps P (next a) R) : Keeps P (call >>= next) R := by
  intro s hs
  obtain ⟨hafter, hanswer⟩ := h s hs
  rcases hcall : call s with ⟨e | a, s'⟩
  · rw [bind_of_error hcall]
    rw [hcall] at hafter
    exact ⟨hafter, nofun⟩
  · rw [bind_of_ok hcall]
    rw [hcall] at hafter hanswer
    exact hnext a (hanswer a rfl) s' hafter

/-- What is kept does not depend on how errors are told. -/
theorem attempting {call : Call σ StorageError α} (h : Keeps P call Q) (attempt : Attempt) :
    Keeps P (call.attempting attempt) Q := by
  intro s hs
  obtain ⟨hafter, hanswer⟩ := h s hs
  rcases hcall : call s with ⟨e | a, s'⟩
  · rw [hcall] at hafter
    rw [attempting_of_error attempt hcall]
    refine ⟨hafter, ?_⟩
    rintro _ ⟨⟩
  · rw [hcall] at hafter hanswer
    rw [attempting_of_ok attempt hcall]
    refine ⟨hafter, ?_⟩
    rintro _ ⟨⟩
    exact hanswer a rfl

/-- An answer that is made from that of a call. -/
theorem answered (h : Keeps P call Q) {f : α → β} {R : β → Prop} (hf : ∀ a, Q a → R (f a)) :
    Keeps P (call >>= fun a => return f a) R :=
  h.bind fun a ha => .answer (hf a ha)

end Call.Keeps

/-! ### Filters that leave the store alone -/

/-- A filter with a state of its own, used while the store is beside it. -/
def Filter.beside {σ τ : Type} (f : Filter τ) : Filter (σ × τ) where
  name := f.name
  apply value := fun (s, t) =>
    let (r, t) := f.apply value t
    (r, s, t)

/-- A filter whose answer depends on the value alone. -/
structure PureFilter where
  /-- The name it is reported under. -/
  name : String
  /-- The value to keep instead, `none` to remove the key, or an error that ends the pass. -/
  outcome : Option Bytes → Except StateError (Option Bytes)

/-- A pure filter as a filter on any state. -/
def PureFilter.toFilter {ω : Type} (f : PureFilter) : Filter ω := .ofFunction f.name f.outcome

/-- The outcome for a value with a pure filter or without any. -/
def PureFilter.decide (filter : Option PureFilter) (value : Option Bytes) :
    Except StateError (Option Bytes) :=
  match filter with
  | some f => f.outcome value
  | none => .ok value

/-! ### Passes over a store -/

section

variable {σ τ : Type} [Store σ] {name : String} {filter : Option (Filter (σ × τ))} {s s₁ : σ}
  {t t₁ : τ} {captured : List Captured}

/-- A pass fails if its capture does. -/
theorem compact_of_capture_error {e : StateError}
    (hcapture : Store.capture name s = (.error e, s)) :
    compact name filter (s, t) = (.error e, s, t) := by
  have hfirst : (Store.capture name).onFirst (s, t) = (.error e, s, t) := by
    simp [Call.onFirst, hcapture]
  rw [compact, Call.bind_of_error hfirst]

/-- A pass fails if one of its decisions does. -/
theorem compact_of_decideAll_error {e : StateError}
    (hcapture : Store.capture name s = (.ok captured, s))
    (hdecide : decideAll filter captured (s, t) = (.error e, s₁, t₁)) :
    compact name filter (s, t) = (.error e, s₁, t₁) := by
  have hfirst : (Store.capture name).onFirst (s, t) = (.ok captured, s, t) := by
    simp [Call.onFirst, hcapture]
  rw [compact, Call.bind_of_ok hfirst, Call.bind_of_error hdecide]

/-- A pass that has decided comes out as its commit does. -/
theorem compact_of_decideAll {ds : List Decision}
    (hcapture : Store.capture name s = (.ok captured, s))
    (hdecide : decideAll filter captured (s, t) = (.ok ds, s₁, t₁)) :
    compact name filter (s, t)
      = ((Store.commit name ds s₁).1, (Store.commit name ds s₁).2, t₁) := by
  have hfirst : (Store.capture name).onFirst (s, t) = (.ok captured, s, t) := by
    simp [Call.onFirst, hcapture]
  rw [compact, Call.bind_of_ok hfirst, Call.bind_of_ok hdecide]
  rfl

end

/-! ### Decisions one by one -/

variable {ω : Type}

/-- The outcome for one captured key. -/
def decideOne (filter : Option (Filter ω)) (c : Captured) : Call ω StateError (Option Bytes) :=
  match filter with
  | some f => f.apply c.value
  | none => Call.answer c.value

/-- A pass decides about one key after the other. -/
theorem decideAll_cons (filter : Option (Filter ω)) (c : Captured) (cs : List Captured) :
    decideAll filter (c :: cs) = do
      let outcome ← decideOne filter c
      let decisions ← decideAll filter cs
      return ⟨c, outcome⟩ :: decisions := by
  cases filter <;> rfl

/-- There is one decision for each captured key, in the order of the captured keys. -/
theorem captured_of_decideAll {filter : Option (Filter ω)} {cs : List Captured}
    {ds : List Decision} {w w' : ω} (h : decideAll filter cs w = (.ok ds, w')) :
    ds.map (·.captured) = cs := by
  induction cs generalizing ds w w' with
  | nil =>
    obtain rfl : [] = ds := Except.ok.inj (Prod.mk.inj h).1
    rfl
  | cons c cs ih =>
    rw [decideAll_cons, Call.bind_eq_ok_iff] at h
    obtain ⟨outcome, w₁, _, h⟩ := h
    obtain ⟨decisions, w₂, hrest, h⟩ := Call.bind_eq_ok_iff.1 h
    obtain rfl : _ :: decisions = ds := Except.ok.inj (Prod.mk.inj h).1
    simp [ih hrest]

/-- Deciding beside a store leaves the store alone and decides as it would without one. -/
theorem decideAll_beside {σ τ : Type} (filter : Option (Filter τ)) (cs : List Captured) (s : σ)
    (t : τ) :
    decideAll (filter.map Filter.beside) cs (s, t)
      = ((decideAll filter cs t).1, s, (decideAll filter cs t).2) := by
  -- the state of the filter changes from key to key, the store stays beside it
  induction cs generalizing t with
  | nil => rfl
  | cons c cs ih =>
    have hone : decideOne (filter.map Filter.beside) c (s, t)
        = ((decideOne filter c t).1, s, (decideOne filter c t).2) := by
      cases filter <;> rfl
    rw [decideAll_cons, decideAll_cons]
    rcases hc : decideOne filter c t with ⟨e | outcome, t₁⟩
    · rw [hc] at hone
      rw [Call.bind_of_error hone, Call.bind_of_error hc]
    · rw [hc] at hone
      rw [Call.bind_of_ok hone, Call.bind_of_ok hc]
      have hrest := ih t₁
      rcases hds : decideAll filter cs t₁ with ⟨e | decisions, t₂⟩
      · rw [hds] at hrest
        rw [Call.bind_of_error hrest, Call.bind_of_error hds]
      · rw [hds] at hrest
        rw [Call.bind_of_ok hrest, Call.bind_of_ok hds]
        rfl

/-- A pure filter decides by the value, and leaves the world alone. -/
theorem decideOne_pure (filter : Option PureFilter) (c : Captured) (w : ω) :
    decideOne (filter.map PureFilter.toFilter) c w = (PureFilter.decide filter c.value, w) := by
  cases filter with
  | none => rfl
  | some f =>
    show Call.ofExcept (f.outcome c.value) w = (f.outcome c.value, w)
    cases f.outcome c.value <;> rfl

namespace PureFilter

variable {filter : Option PureFilter}

/-- The decisions of a pure filter. -/
def decisions (filter : Option PureFilter) : List Captured → Except StateError (List Decision)
  | [] => .ok []
  | c :: cs => do
    let outcome ← decide filter c.value
    let ds ← decisions filter cs
    return ⟨c, outcome⟩ :: ds

theorem decisions_cons_of_ok {c : Captured} {outcome : Option Bytes}
    (h : decide filter c.value = .ok outcome) (cs : List Captured) :
    decisions filter (c :: cs) = (decisions filter cs).map (⟨c, outcome⟩ :: ·) := by
  rw [decisions, h]
  cases decisions filter cs <;> rfl

/-- The first error ends the deciding. -/
theorem decisions_cons_of_error {c : Captured} {e : StateError}
    (h : decide filter c.value = .error e) (cs : List Captured) :
    decisions filter (c :: cs) = .error e := by
  rw [decisions, h]
  rfl

/-- What a pass decides with a pure filter can be told beforehand. -/
theorem decideAll_eq (filter : Option PureFilter) (cs : List Captured) (w : ω) :
    decideAll (filter.map toFilter) cs w = (decisions filter cs, w) := by
  -- the state is the same before every decision, so it need not be general
  induction cs with
  | nil => rfl
  | cons c cs ih =>
    have hone := decideOne_pure filter c w
    rw [decideAll_cons]
    cases ho : decide filter c.value with
    | error e =>
      rw [ho] at hone
      rw [Call.bind_of_error hone, decisions_cons_of_error ho]
    | ok outcome =>
      rw [ho] at hone
      rw [Call.bind_of_ok hone, decisions_cons_of_ok ho]
      cases hds : decisions filter cs with
      | error e =>
        rw [hds] at ih
        rw [Call.bind_of_error ih]
        rfl
      | ok ds =>
        rw [hds] at ih
        rw [Call.bind_of_ok ih]
        rfl

/-- There is a decision for every key that was captured, in order. -/
theorem captured_of_decisions {cs : List Captured} {ds : List Decision}
    (h : decisions filter cs = .ok ds) : ds.map (·.captured) = cs := by
  have hall := decideAll_eq filter cs ()
  rw [h] at hall
  exact captured_of_decideAll hall

/-- There are decisions if there is one for each captured value. -/
theorem decisions_isOk {cs : List Captured}
    (h : ∀ c ∈ cs, ∃ outcome, decide filter c.value = .ok outcome) :
    ∃ ds, decisions filter cs = .ok ds := by
  induction cs with
  | nil => exact ⟨[], rfl⟩
  | cons c cs ih =>
    obtain ⟨⟨outcome, ho⟩, hcs⟩ := List.forall_mem_cons.1 h
    obtain ⟨ds, hds⟩ := ih hcs
    exact ⟨⟨c, outcome⟩ :: ds, by rw [decisions_cons_of_ok ho, hds]; rfl⟩

/-- The outcomes of a pure filter follow from the values alone. -/
theorem outcomes_decisions (filter : Option PureFilter) (cs : List Captured) :
    (decisions filter cs).map (List.map (·.outcome)) = (cs.map (·.value)).mapM (decide filter) := by
  induction cs with
  | nil => rfl
  | cons c cs ih =>
    rw [List.map_cons, List.mapM_cons, ← ih]
    cases ho : decide filter c.value with
    | error e =>
      rw [decisions_cons_of_error ho]
      rfl
    | ok outcome =>
      rw [decisions_cons_of_ok ho]
      cases decisions filter cs <;> rfl

/-- Each decision of a pure filter is the one for its captured value. -/
theorem decide_of_mem_decisions {cs : List Captured} {ds : List Decision}
    (h : decisions filter cs = .ok ds) {d : Decision} (hd : d ∈ ds) :
    decide filter d.captured.value = .ok d.outcome := by
  induction cs generalizing ds with
  | nil =>
    obtain rfl : [] = ds := Except.ok.inj h
    cases hd
  | cons c cs ih =>
    cases ho : decide filter c.value with
    | error e =>
      rw [decisions_cons_of_error ho] at h
      cases h
    | ok outcome =>
      rw [decisions_cons_of_ok ho] at h
      cases hds : decisions filter cs with
      | error e =>
        rw [hds] at h
        cases h
      | ok ds' =>
        rw [hds] at h
        obtain rfl : _ :: ds' = ds := Except.ok.inj h
        -- the decision about this key, or one about the others
        rcases List.mem_cons.1 hd with rfl | hd
        · exact ho
        · exact ih hds hd

end PureFilter

end AppendLists
