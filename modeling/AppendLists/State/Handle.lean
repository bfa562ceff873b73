import AppendLists.State.List
import AppendLists.State.Value

namespace AppendLists

/-!
# Handles of any kind

What the handles of all state variants have in common: a kind, a partition, a current key and
namespace, and removal of what is stored there.

* `Handle`: a list or value handle;
* `Handle.setKey`, `Handle.setNamespace`, `Handle.clear`: the common calls.
-/

/-- A handle to list or value state. -/
inductive Handle (α : Type) where
  /-- A handle to lists. -/
  | list (h : ListState α)
  /-- A handle to single values. -/
  | value (h : ValueState α)

namespace Handle

variable {α σ : Type}

/-- What the handle points at. -/
def context : Handle α → StateContext
  | .list h => h.context
  | .value h => h.context

/-- The codec of the handle. -/
def codec : Handle α → Codec α
  | .list h => h.codec
  | .value h => h.codec

/-- The variant of state. -/
def kind : Handle α → StateKind
  | .list _ => .list
  | .value _ => .value

/-- The handle at another key. -/
def setKey (key : Part) : Handle α → Except StateError (Handle α)
  | .list h => (h.setKey key).map .list
  | .value h => (h.setKey key).map .value

/-- The handle at another namespace. -/
def setNamespace (ns : Part) : Handle α → Except StateError (Handle α)
  | .list h => (h.setNamespace ns).map .list
  | .value h => (h.setNamespace ns).map .value

/-- Remove what is stored under the current key and namespace. -/
def clear [Store σ] : Handle α → Call σ StateError Unit
  | .list h => h.clear
  | .value h => h.clear

/-- The handle in words. -/
def describe : Handle α → String
  | .list h => h.describe
  | .value h => h.describe

end Handle

end AppendLists
