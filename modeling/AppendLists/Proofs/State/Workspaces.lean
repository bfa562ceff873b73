import AppendLists.Proofs.Backend.Told
import AppendLists.Proofs.Key.Addressing
import AppendLists.Proofs.State.ListMap
import AppendLists.State.Value
import Mathlib.Logic.Function.Basic

namespace AppendLists

/-!
# Workspaces

A backend with the handles that its callers hold, to value states and to list states, and calls
through them in any order. Of the value states it is recorded what was written.

* `KeyBuilder.Separates`: layouts under which keys and namespaces have storage keys of their own;
* `StateTypes`: what the states of a backend are made of;
* `ValueChange`, `latest`, `ValueUse`: what was written, and what was written last;
* `Workspace`, `WorkCall`, `Workspace.step`, `Workspace.run`: the handles, and calls through them.
-/

/-! ### Layouts of storage keys -/

/-- What a layout of storage keys has to do: keys and namespaces have storage keys of their own, as
long as the keys are short. -/
def KeyBuilder.Separates (builder : KeyBuilder) (maxParallelism : Nat) : Prop :=
  ∀ key key' ns ns', ShortKey key → ShortKey key' →
    builder (keyGroup key maxParallelism) key ns = builder (keyGroup key' maxParallelism) key' ns' →
      key = key' ∧ ns = ns'

/-- Composite keys are told apart by the group, the key and the namespace. -/
theorem KeyBuilder.separates_composite (maxParallelism : Nat) :
    (composite maxParallelism).Separates maxParallelism :=
  fun _ _ _ _ hkey hkey' h => (address_inj hkey hkey').1 h

/-! ### Workspaces -/

/-- What the states of a backend are made of. -/
structure StateTypes where
  /-- The items of the value state of a name. -/
  Item : String → Type
  /-- The codec of that value state. -/
  codec : (name : String) → Codec (Item name)
  /-- The kinds of elements of list states. -/
  Kind : Type
  /-- The elements. -/
  Element : Kind → Type

/-- What was written for a key and namespace; nothing if the value was removed. -/
structure ValueChange (α : Type) where
  /-- The serialized key. -/
  key : Bytes
  /-- The serialized namespace. -/
  ns : Bytes
  /-- The value. -/
  value : Option α
deriving DecidableEq

/-- The value that was last written for a key and namespace, with the newest change first. -/
def latest {α : Type} (key ns : Bytes) : List (ValueChange α) → Option α
  | [] => none
  | change :: changes =>
    if change.key = key ∧ change.ns = ns then change.value else latest key ns changes

/-- The latest change of a key is the one that was made last. -/
theorem latest_cons_self {α : Type} (change : ValueChange α) (changes : List (ValueChange α)) :
    latest change.key change.ns (change :: changes) = change.value := if_pos ⟨rfl, rfl⟩

/-- Changes of other keys do not matter. -/
theorem latest_cons_of_ne {α : Type} {key ns : Bytes} {change : ValueChange α}
    (h : ¬ (change.key = key ∧ change.ns = ns)) (changes : List (ValueChange α)) :
    latest key ns (change :: changes) = latest key ns changes := if_neg h

/-- The handles to a value state, and what was written through them, newest first. -/
structure ValueUse (α : Type) where
  /-- The handles. -/
  handles : List (ValueState α)
  /-- What was written. -/
  changes : List (ValueChange α)

/-- Record what was written through a handle. -/
def ValueUse.note {α : Type} (h : ValueState α) (value : Option α) (u : ValueUse α) : ValueUse α :=
  match h.context.current with
  | some key => { u with changes := ⟨key.bytes, h.context.ns, value⟩ :: u.changes }
  | none => u

/-- What is written through a handle is noted under the key it points at. -/
theorem ValueUse.note_of_key {α : Type} {h : ValueState α} {key : CurrentKey}
    (hkey : h.context.current = some key) (value : Option α) (u : ValueUse α) :
    u.note h value = { u with changes := ⟨key.bytes, h.context.ns, value⟩ :: u.changes } := by
  simp only [note, hkey]

/-- A backend with the handles that its callers hold. -/
structure Workspace (σ : Type) (T : StateTypes) where
  /-- The backend. -/
  backend : Backend σ
  /-- The handles to value states. -/
  values : (name : String) → ValueUse (T.Item name)
  /-- The handles to list states. -/
  lists : List ((kind : T.Kind) × ListState (T.Element kind))

/-- A call in a workspace, on the handle of a number. What is asked of a list handle may depend on
the kind of its elements. -/
inductive WorkCall (T : StateTypes) : Type 1 where
  /-- Register a value state and hold the handle. -/
  | registerValue (name : String)
  /-- Register a list state and hold the handle. -/
  | registerList (name : String) (kind : T.Kind) (codec : Codec (T.Element kind))
  /-- Point a value handle at a key. -/
  | setKey (name : String) (i : Nat) (key : Part)
  /-- Point a value handle at a namespace. -/
  | setNamespace (name : String) (i : Nat) (ns : Part)
  /-- Set a value. -/
  | update (name : String) (i : Nat) (x : T.Item name)
  /-- Remove a value. -/
  | clear (name : String) (i : Nat)
  /-- Read a value. -/
  | value (name : String) (i : Nat)
  /-- A call on a list handle. -/
  | list (i : Nat) {τ : Type} (own : τ) (c : (kind : T.Kind) → HandleCall (T.Element kind) τ)
  /-- Hold a handle with another codec to where a list handle points. -/
  | rebind (i : Nat) (kind : T.Kind) (codec : Codec (T.Element kind))

/-- Whether the call points a value handle at a short key, if it points it at a key. -/
def WorkCall.Short {T : StateTypes} : WorkCall T → Prop
  | .setKey _ _ key => ∀ bytes, key.serialize = .ok bytes → ShortKey bytes
  | _ => True

namespace Workspace

variable {σ : Type} {T : StateTypes}

/-- A workspace without handles. -/
def start (b : Backend σ) : Workspace σ T := ⟨b, fun _ => ⟨[], []⟩, []⟩

/-- The workspace with another use of one value state. -/
def change (w : Workspace σ T) (name : String)
    (f : ValueUse (T.Item name) → ValueUse (T.Item name)) : Workspace σ T :=
  { w with values := Function.update w.values name (f (w.values name)) }

/-- The workspace after a call, whether that succeeds or fails. -/
def step [Store σ] (w : Workspace σ T) : WorkCall T → Workspace σ T
  | .registerValue name =>
    match Backend.registerValue name (T.codec name) w.backend with
    | (.ok h, b) =>
      { w with backend := b }.change name fun u => { u with handles := u.handles ++ [h] }
    | (.error _, b) => { w with backend := b }
  | .registerList name kind codec =>
    match Backend.registerList name codec w.backend with
    | (.ok h, b) => { w with backend := b, lists := w.lists ++ [⟨kind, h⟩] }
    | (.error _, b) => { w with backend := b }
  | .setKey name i key =>
    match (w.values name).handles[i]?.map (ValueState.setKey key) with
    | some (.ok h) => w.change name fun u => { u with handles := u.handles.set i h }
    | _ => w
  | .setNamespace name i ns =>
    match (w.values name).handles[i]?.map (ValueState.setNamespace ns) with
    | some (.ok h) => w.change name fun u => { u with handles := u.handles.set i h }
    | _ => w
  | .update name i x =>
    match (w.values name).handles[i]? with
    | none => w
    | some h =>
      match Backend.onStore (h.update x) w.backend with
      | (.ok (), b) => { w with backend := b }.change name (ValueUse.note h (some x))
      | (.error _, b) => { w with backend := b }
  | .clear name i =>
    match (w.values name).handles[i]? with
    | none => w
    | some h =>
      match Backend.onStore h.clear w.backend with
      | (.ok (), b) => { w with backend := b }.change name (ValueUse.note h none)
      | (.error _, b) => { w with backend := b }
  | .value name i =>
    match (w.values name).handles[i]? with
    | none => w
    | some h => { w with backend := (Backend.onStore h.value w.backend).2 }
  | .list i own c =>
    match w.lists[i]? with
    | none => w
    | some ⟨kind, h⟩ =>
      let d := ((c kind).run ⟨w.backend, h, own⟩).2
      { w with backend := d.backend, lists := w.lists.set i ⟨kind, d.handle⟩ }
  | .rebind i kind codec =>
    match w.lists[i]? with
    | none => w
    | some ⟨_, h⟩ => { w with lists := w.lists ++ [⟨kind, h.rebind codec⟩] }

/-- Calls in turn. -/
def run [Store σ] (calls : List (WorkCall T)) (w : Workspace σ T) : Workspace σ T :=
  calls.foldl step w

/-! ### One value state at a time -/

variable {w : Workspace σ T} {name : String}
  {f : ValueUse (T.Item name) → ValueUse (T.Item name)}

@[simp] theorem backend_change : (w.change name f).backend = w.backend := rfl

@[simp] theorem values_change_self : (w.change name f).values name = f (w.values name) :=
  Function.update_self name _ w.values

/-- A change in one state leaves the others. -/
theorem values_change_of_ne {other : String} (h : other ≠ name) :
    (w.change name f).values other = w.values other := Function.update_of_ne h _ w.values

end Workspace

end AppendLists
