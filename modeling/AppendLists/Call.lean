import AppendLists.Error

namespace AppendLists

/-!
# Calls on a store

A call reads and changes a store and either answers or fails; what it changed before it failed
stays changed.

* `Call σ ε α`: a call on stores of type `σ`, with errors `ε` and answers `α`;
* `Call.ofExcept`, `Call.fail`, `Call.query`, `Call.mapError`: the ways to build calls;
* `Call.onFirst`: a call on one part of a pair.

Sequencing stops at the first failure (`run_bind`).
-/

/-- A call on a store of type `σ`: an answer or an error, and the store afterwards. -/
def Call (σ ε α : Type) : Type := σ → Except ε α × σ

namespace Call

variable {σ τ ε δ α β : Type}

/-- The outcome of a call on a given store. -/
def run (call : Call σ ε α) (s : σ) : Except ε α × σ := call s

/-- Answer without touching the store. -/
def answer (a : α) : Call σ ε α := fun s => (.ok a, s)

/-- Fail without touching the store. -/
def fail (e : ε) : Call σ ε α := fun s => (.error e, s)

/-- Do one call and then the next, which depends on the answer; a failure ends it. -/
def andThen (call : Call σ ε α) (next : α → Call σ ε β) : Call σ ε β := fun s =>
  match call s with
  | (.ok a, s') => next a s'
  | (.error e, s') => (.error e, s')

instance : Monad (Call σ ε) where
  pure := answer
  bind := andThen

/-- Answer or fail as given. -/
def ofExcept : Except ε α → Call σ ε α
  | .ok a => answer a
  | .error e => fail e

/-- Answer from the store without changing it. -/
def query (f : σ → Except ε α) : Call σ ε α := fun s => (f s, s)

/-- Change the store. -/
def update (f : σ → σ) : Call σ ε Unit := fun s => (.ok (), f s)

/-- The same call with its error in other terms. -/
def mapError (f : ε → δ) (call : Call σ ε α) : Call σ δ α := fun s =>
  match call s with
  | (.ok a, s') => (.ok a, s')
  | (.error e, s') => (.error (f e), s')

/-- The call on the first part of a pair. -/
def onFirst (call : Call σ ε α) : Call (σ × τ) ε α := fun (s, t) =>
  let (r, s') := call s
  (r, s', t)

/-! ### Outcomes -/

@[simp] theorem run_pure (a : α) (s : σ) : (pure a : Call σ ε α).run s = (.ok a, s) := rfl

@[simp] theorem run_answer (a : α) (s : σ) : (answer a : Call σ ε α).run s = (.ok a, s) := rfl

@[simp] theorem run_fail (e : ε) (s : σ) : (fail e : Call σ ε α).run s = (.error e, s) := rfl

@[simp] theorem run_query (f : σ → Except ε α) (s : σ) : (query f).run s = (f s, s) := rfl

@[simp] theorem run_update (f : σ → σ) (s : σ) :
    (update f : Call σ ε Unit).run s = (.ok (), f s) := rfl

/-- The next call is made on what the first one left, and only behind an answer. -/
theorem run_bind (call : Call σ ε α) (next : α → Call σ ε β) (s : σ) :
    (call >>= next).run s =
      match call.run s with
      | (.ok a, s') => (next a).run s'
      | (.error e, s') => (.error e, s') := rfl

/-- Errors are told in other words; answers and the store stay. -/
theorem run_mapError (f : ε → δ) (call : Call σ ε α) (s : σ) :
    (call.mapError f).run s =
      match call.run s with
      | (.ok a, s') => (.ok a, s')
      | (.error e, s') => (.error (f e), s') := rfl

end Call

end AppendLists
