import AppendLists.Store.Basic
import AppendLists.Table

namespace AppendLists

/-!
# Merging for stores without it

A wrapper that merges by reading the current value, combining the operand with it and writing the
result back. The wrapped store never holds an operand; the ways of merging are kept beside it.

* `MergeOnRead`: a store with the ways of merging of its partitions;
* `MergeOnRead.merge`: the call that it adds.
-/

/-- A store with the ways of merging of its partitions. -/
structure MergeOnRead (σ : Type) where
  /-- The wrapped store. -/
  inner : σ
  /-- The ways of merging by partition name. -/
  operators : Table String MergeOperator

namespace MergeOnRead

variable {σ : Type} {ε α : Type}

/-- A wrapped store none of whose partitions merges yet. -/
def wrap (inner : σ) : MergeOnRead σ := ⟨inner, Table.empty⟩

/-- A call on the wrapped store. -/
def onInner (call : Call σ ε α) : Call (MergeOnRead σ) ε α := fun s =>
  let (r, inner) := call s.inner
  (r, { s with inner })

variable [Store σ]

/-- Create a partition; the wrapped store learns nothing of its way of merging. -/
def create (name : String) (op : Option MergeOperator) :
    Call (MergeOnRead σ) StorageError Unit := do
  onInner (Store.create name none)
  match op with
  | some op => Call.update fun s => { s with operators := s.operators.insert name op }
  | none => Call.answer ()

/-- Combine an operand with the current value and write the result back. -/
def merge (name : String) (key operand : Bytes) : Call (MergeOnRead σ) StorageError Unit := do
  let op ← Call.query fun s : MergeOnRead σ =>
    match s.operators.find? name with
    | some op => .ok op
    | none => .error (.mergeNotSupported name)
  let existing ← onInner (Store.get name key)
  onInner (Store.put name key (op.fullMerge existing [operand]))

instance : Store (MergeOnRead σ) where
  create := create
  has s name := Store.has s.inner name
  get name key := onInner (Store.get name key)
  put name key value := onInner (Store.put name key value)
  delete name key := onInner (Store.delete name key)
  scan name := onInner (Store.scan name)
  merge := merge
  capture := captureByScan fun name => onInner (Store.scan name)
  commit name decisions :=
    commitByWrites (fun key value => onInner (Store.put name key value))
      (fun key => onInner (Store.delete name key)) decisions (.visited decisions.length)

end MergeOnRead

end AppendLists
