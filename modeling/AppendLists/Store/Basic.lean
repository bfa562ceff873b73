import AppendLists.Call
import AppendLists.Store.MergeOperator

namespace AppendLists

/-!
# Stores

What keyed state needs of an embedded key-value store: named partitions, `get`, `put`, `delete`,
an ordered `scan`, and a `merge` whose operands the store may keep unresolved until a read or a
compaction.

* `Store`: the calls;
* `Captured`, `Decision`, `CompactionStats`: what a compaction pass takes from the store, decides,
  and reports;
* `Filter`, `decide`: the decisions of a pass, made while the store stays open to other calls;
* `compact`: capture, decide, commit;
* `captureByScan`, `commitByWrites`: the pass of a store without means of its own.
-/

/-! ### Compaction passes -/

/-- What a pass knows of one key when it starts. -/
structure Captured where
  /-- The key. -/
  key : Bytes
  /-- The version of its entry; stores without versions leave it at zero. -/
  version : Nat
  /-- The number of its unresolved operands. -/
  pending : Nat
  /-- Its resolved value. -/
  value : Option Bytes
deriving DecidableEq

/-- What a pass wants to make of one key. -/
structure Decision where
  /-- The key as it was captured. -/
  captured : Captured
  /-- The value it is to have; `none` removes it. -/
  outcome : Option Bytes
deriving DecidableEq

/-- What a pass reports. -/
structure CompactionStats where
  /-- The keys visited. -/
  scanned : Nat
  /-- The keys whose value was changed. -/
  rewritten : Nat
  /-- The keys removed. -/
  removed : Nat
  /-- The unresolved operands folded into values. -/
  folded : Nat
  /-- The keys written in the meantime and therefore left alone. -/
  skipped : Nat
deriving DecidableEq

/-- The report of a pass that visited `n` keys and has done nothing to them yet. -/
def CompactionStats.visited (n : Nat) : CompactionStats := ⟨n, 0, 0, 0, 0⟩

/-- A hook that is asked about every value of a pass. It may act on the state `ω`, in which the
store itself is. -/
structure Filter (ω : Type) where
  /-- The name it is reported under. -/
  name : String
  /-- The value to keep instead, `none` to remove the key, or an error that ends the pass. -/
  apply : Option Bytes → Call ω StateError (Option Bytes)

/-- A filter that acts on nothing. -/
def Filter.ofFunction {ω : Type} (name : String)
    (f : Option Bytes → Except StateError (Option Bytes)) : Filter ω :=
  ⟨name, fun value => Call.ofExcept (f value)⟩

/-- The decisions about captured keys in turn; without a filter every key keeps its value. -/
def decideAll {ω : Type} (filter : Option (Filter ω)) :
    List Captured → Call ω StateError (List Decision)
  | [] => Call.answer []
  | c :: cs => do
    let outcome ←
      match filter with
      | some f => f.apply c.value
      | none => Call.answer c.value
    let decisions ← decideAll filter cs
    return ⟨c, outcome⟩ :: decisions

/-! ### The calls of a store -/

/-- A key-value store with merging. -/
class Store (σ : Type) where
  /-- Create a partition with its way of merging; an existing one is an error. -/
  create : String → Option MergeOperator → Call σ StorageError Unit
  /-- Whether a partition exists. -/
  has : σ → String → Bool
  /-- The resolved value of a key. -/
  get : String → Bytes → Call σ StorageError (Option Bytes)
  /-- Set the value of a key; its unresolved operands are dropped. -/
  put : String → Bytes → Bytes → Call σ StorageError Unit
  /-- Remove a key. -/
  delete : String → Bytes → Call σ StorageError Unit
  /-- The keys of a partition in order, with their resolved values. -/
  scan : String → Call σ StorageError (List (Bytes × Bytes))
  /-- Queue an operand for a key without reading it. -/
  merge : String → Bytes → Bytes → Call σ StorageError Unit
  /-- Take what a compaction pass starts from. -/
  capture : String → Call σ StateError (List Captured)
  /-- Carry out what a compaction pass decided. -/
  commit : String → List Decision → Call σ StateError CompactionStats

/-- A store call in an operation on keyed state. -/
def Call.attempting {σ α : Type} (attempt : Attempt) (call : Call σ StorageError α) :
    Call σ StateError α :=
  call.mapError (.access attempt)

variable {σ τ : Type} [Store σ]

/-- Run a compaction pass over a partition. The store is free for other calls, those of the filter
included, between capture and commit. -/
def compact (name : String) (filter : Option (Filter (σ × τ))) :
    Call (σ × τ) StateError CompactionStats := do
  let captured ← (Store.capture name).onFirst
  let decisions ← decideAll filter captured
  (Store.commit name decisions).onFirst

/-! ### Passes through the plain calls -/

/-- Capture by listing the partition. -/
def captureByScan (scan : String → Call σ StorageError (List (Bytes × Bytes))) (name : String) :
    Call σ StateError (List Captured) := do
  let entries ← (scan name).attempting .accessingStore
  return entries.map fun (key, value) => ⟨key, 0, 0, some value⟩

/-- Commit by deleting and putting the keys whose value is to change, counting into `stats`. -/
def commitByWrites (put : Bytes → Bytes → Call σ StorageError Unit)
    (delete : Bytes → Call σ StorageError Unit) :
    List Decision → CompactionStats → Call σ StateError CompactionStats
  | [], stats => Call.answer stats
  | d :: ds, stats =>
    match d.outcome with
    | none => do
      (delete d.captured.key).attempting .accessingStore
      commitByWrites put delete ds { stats with removed := stats.removed + 1 }
    | some value =>
      if d.outcome = d.captured.value then commitByWrites put delete ds stats
      else do
        (put d.captured.key value).attempting .accessingStore
        commitByWrites put delete ds { stats with rewritten := stats.rewritten + 1 }

end AppendLists
