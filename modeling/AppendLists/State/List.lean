import AppendLists.ListFormat.Basic
import AppendLists.State.Context
import AppendLists.State.Namespaces
import AppendLists.Transform

namespace AppendLists

/-!
# List state

A handle to the lists of one state: a list per key and namespace, stored in its delimited form in
a partition that merges with the delimiter. Appending costs one merge and never reads the list.

* `ListState`: the handle;
* `ListState.get`, `getRaw`, `forEach`: reading;
* `ListState.add`, `addAll`, `update`, `clear`: writing;
* `ListState.mergeNamespaces`: moving lists between namespaces;
* `ListState.rebind`, `ListState.filter`: handles and filters made from a handle.

Items are encoded before the storage key is asked for when appending, and after when replacing.
-/

/-- A handle to the lists of a state. -/
structure ListState (α : Type) where
  /-- What it points at. -/
  context : StateContext
  /-- The codec of the elements. -/
  codec : Codec α

/-- Visit the elements from the cursor on, if reading ends; an error of the visitor or of decoding
ends it. The visitor acts on a state of its own. -/
def Codec.visitFrom {α τ : Type} (codec : Codec α) (visit : α → Call τ StateError Unit)
    (c : Cursor) (t : τ) : Option (Except StateError Unit × τ) :=
  match decodeNext codec c with
  | .error e => some (.error e, t)
  | .ok none => some (.ok (), t)
  | .ok (some (x, c')) =>
    match visit x t with
    | (.error e, t) => some (.error e, t)
    | (.ok (), t) => codec |>.visitFrom visit c' t
partial_fixpoint

namespace ListState

variable {α β σ τ : Type} [Store σ]

/-- The handle at another key. -/
def setKey (key : Part) (h : ListState α) : Except StateError (ListState α) :=
  (h.context.setKey key).map fun context => { h with context }

/-- The handle at another namespace. -/
def setNamespace (ns : Part) (h : ListState α) : Except StateError (ListState α) :=
  (h.context.setNamespace ns).map fun context => { h with context }

/-! ### Reading -/

/-- The stored bytes, all appends resolved. -/
def getRaw (h : ListState α) : Call σ StateError (Option Bytes) := do
  let key ← Call.ofExcept h.context.storageKey
  (Store.get h.context.partition key).attempting .readingList

/-- The list; a key without value has the empty one. -/
def get (h : ListState α) : Call σ StateError (List α) := do
  let raw ← h.getRaw
  Call.ofExcept (decodeList h.codec raw)

/-- Visit the elements one at a time; the visitor acts on a state of its own. -/
def forEach (h : ListState α) (visit : α → Call τ StateError Unit) :
    Call (σ × τ) StateError Unit := do
  match ← (h.getRaw : Call σ StateError (Option Bytes)).onFirst with
  | none => return
  | some bs =>
    fun (s, t) =>
      have : Nonempty τ := ⟨t⟩
      let (r, t) := (h.codec.visitFrom visit (Cursor.ofBytes bs) t).await
      (r, s, t)

/-! ### Writing -/

/-- Merge a written list behind the stored one. -/
def mergeFragment (h : ListState α) (fragment : Bytes) : Call σ StateError Unit := do
  let key ← Call.ofExcept h.context.storageKey
  (Store.merge h.context.partition key fragment).attempting .appendingToList

/-- Append one element. -/
def add (h : ListState α) (x : α) : Call σ StateError Unit := do
  let fragment ← Call.ofExcept (h.codec.encode x)
  h.mergeFragment fragment

/-- Append several elements with one merge; none at all is no call to the store. -/
def addAll (h : ListState α) (xs : List α) : Call σ StateError Unit :=
  if xs.isEmpty then Call.answer ()
  else do
    let fragment ← Call.ofExcept (encodeList h.codec xs)
    h.mergeFragment fragment

/-- Remove the list. -/
def clear (h : ListState α) : Call σ StateError Unit := do
  let key ← Call.ofExcept h.context.storageKey
  (Store.delete h.context.partition key).attempting .clearingList

/-- Replace the list, unresolved appends included; the empty list is removed. -/
def update (h : ListState α) (xs : List α) : Call σ StateError Unit :=
  if xs.isEmpty then h.clear
  else do
    let key ← Call.ofExcept h.context.storageKey
    let bs ← Call.ofExcept (encodeList h.codec xs)
    (Store.put h.context.partition key bs).attempting .updatingList

/-! ### Namespaces -/

/-- The storage key of the current key in a namespace. -/
def keyInNamespace (h : ListState α) (ns : Part) : Except StateError Bytes := do
  let bytes ← ns.serialize
  h.context.keyIn bytes

/-- Move the lists of several namespaces of the current key behind that of another. -/
def mergeNamespaces (h : ListState α) (target : Part) (sources : List Part) :
    Call σ StateError MoveStats :=
  if sources.isEmpty then Call.answer .none
  else do
    let targetKey ← Call.ofExcept (h.keyInNamespace target)
    let sourceKeys ← Call.ofExcept (sources.mapM h.keyInNamespace)
    moveValues h.context.partition targetKey sourceKeys .none

/-! ### Handles and filters -/

/-- A handle to the same place with another codec; stored lists stay as they are. -/
def rebind (h : ListState α) (codec : Codec β) : ListState β := ⟨h.context, codec⟩

/-- The compaction filter that transforms every list of the partition. -/
def filter {ω : Type} (h : ListState α) (t : ElementTransformer α) : Filter ω :=
  .ofFunction (transformName h.codec) (transformList h.codec t)

/-- The handle in words. -/
def describe (h : ListState α) : String :=
  s!"ListState \x7b ctx: {h.context.describe}, codec: {h.codec.descriptor.describe} \x7d"

end ListState

end AppendLists
