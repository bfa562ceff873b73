import AppendLists.Codec.Basic
import AppendLists.State.Context
import AppendLists.Store.Basic

namespace AppendLists

/-!
# Value state

A handle to the single values of one state, one per key and namespace, stored as their codec
writes them and nothing else.

* `ValueState`: the handle;
* `ValueState.value`, `ValueState.update`, `ValueState.clear`: the calls.
-/

/-- A handle to the single values of a state. -/
structure ValueState (α : Type) where
  /-- What it points at. -/
  context : StateContext
  /-- The codec of the values. -/
  codec : Codec α

/-- The value of a stored byte string, which it has to fill. -/
def decodeValue {α : Type} (codec : Codec α) (bs : Bytes) : Except StateError α := do
  let (x, c) ← codec.decode (Cursor.ofBytes bs)
  if c.isEmpty then return x else .error (.corrupt (.trailing c.remaining))

namespace ValueState

variable {α σ : Type} [Store σ]

/-- The handle at another key. -/
def setKey (key : Part) (h : ValueState α) : Except StateError (ValueState α) :=
  (h.context.setKey key).map fun context => { h with context }

/-- The handle at another namespace. -/
def setNamespace (ns : Part) (h : ValueState α) : Except StateError (ValueState α) :=
  (h.context.setNamespace ns).map fun context => { h with context }

/-- The value, if there is one. -/
def value (h : ValueState α) : Call σ StateError (Option α) := do
  let key ← Call.ofExcept h.context.storageKey
  match ← (Store.get h.context.partition key).attempting .readingValue with
  | none => return none
  | some bs => (some ·) <$> Call.ofExcept (decodeValue h.codec bs)

/-- Set the value. -/
def update (h : ValueState α) (x : α) : Call σ StateError Unit := do
  let key ← Call.ofExcept h.context.storageKey
  let bs ← Call.ofExcept (h.codec.encode x)
  (Store.put h.context.partition key bs).attempting .updatingValue

/-- Remove the value. -/
def clear (h : ValueState α) : Call σ StateError Unit := do
  let key ← Call.ofExcept h.context.storageKey
  (Store.delete h.context.partition key).attempting .clearingValue

/-- The handle in words. -/
def describe (h : ValueState α) : String :=
  s!"ValueState \x7b ctx: {h.context.describe}, codec: {h.codec.descriptor.describe} \x7d"

end ValueState

end AppendLists
